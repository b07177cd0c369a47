import Mathlib.Tactic.Common

/-!
# The leftmost fault

Something with many places is gone through from left to right, and its first fault is reported. So a
step of the way reports what the places in front of it report, or else what its own places do.
-/

namespace MathMarkup

variable {α β ε π : Type}

/-- The reason that the leftmost of all faulty places gives. -/
def Leftmost (fault : π → ε → Prop) (places : List π) (reason : ε) : Prop :=
  ∃ before place after, places = before ++ place :: after ∧ fault place reason ∧
    ∀ p ∈ before, ∀ r, ¬ fault p r

variable {fault : π → ε → Prop} {place : π} {places more : List π} {reason : ε}

theorem leftmost_nil : ¬ Leftmost fault [] reason := by
  rintro ⟨before, place, after, h, _⟩
  cases before <;> cases h

theorem leftmost_cons : Leftmost fault (place :: places) reason ↔
    fault place reason ∨ (∀ r, ¬ fault place r) ∧ Leftmost fault places reason := by
  constructor
  · rintro ⟨before, p, after, h, hp, hb⟩
    cases before with
    | nil =>
      obtain ⟨rfl, _⟩ := List.cons.inj h
      exact .inl hp
    | cons first before =>
      obtain ⟨rfl, rfl⟩ := List.cons.inj h
      obtain ⟨hfirst, hbefore⟩ := List.forall_mem_cons.mp hb
      exact .inr ⟨hfirst, before, p, after, rfl, hp, hbefore⟩
  · rintro (hp | ⟨hnone, before, p, after, rfl, hp, hb⟩)
    · exact ⟨[], place, places, rfl, hp, List.forall_mem_nil _⟩
    · exact ⟨place :: before, p, after, rfl, hp, List.forall_mem_cons.mpr ⟨hnone, hb⟩⟩

theorem leftmost_append : Leftmost fault (places ++ more) reason ↔
    Leftmost fault places reason ∨
      (∀ p ∈ places, ∀ r, ¬ fault p r) ∧ Leftmost fault more reason := by
  induction places with
  | nil => simp [leftmost_nil]
  | cons place places ih =>
    rw [List.cons_append, leftmost_cons, leftmost_cons, ih, List.forall_mem_cons]
    tauto

theorem exists_leftmost :
    (∃ reason, Leftmost fault places reason) ↔ ∃ p ∈ places, ∃ r, fault p r := by
  induction places with
  | nil => simp [leftmost_nil]
  | cons place places ih =>
    simp only [leftmost_cons, List.mem_cons, exists_eq_or_imp, ← ih]
    constructor
    · rintro ⟨reason, h | ⟨_, h⟩⟩
      · exact .inl ⟨reason, h⟩
      · exact .inr ⟨reason, h⟩
    · rintro (⟨reason, h⟩ | ⟨reason, h⟩)
      · exact ⟨reason, .inl h⟩
      · by_cases hplace : ∃ r, fault place r
        · obtain ⟨r, hr⟩ := hplace
          exact ⟨r, .inl hr⟩
        · exact ⟨reason, .inr ⟨not_exists.mp hplace, h⟩⟩

/-- A computation that fails exactly for the leftmost fault of the places. -/
def Surveys (fault : π → ε → Prop) (places : List π) (c : Except ε α) : Prop :=
  ∀ reason, c = .error reason ↔ Leftmost fault places reason

namespace Surveys

variable {c : Except ε α}

theorem ok (a : α) : Surveys fault [] (.ok a : Except ε α) :=
  fun _ => iff_of_false (by simp) leftmost_nil

theorem error (h : ∀ r, fault place r ↔ r = reason) :
    Surveys fault (place :: places) (.error reason : Except ε α) := by
  intro r
  rw [leftmost_cons, h, Except.error.injEq, eq_comm, iff_self_or]
  rintro ⟨hnone, _⟩
  exact absurd ((h reason).mpr rfl) (hnone reason)

theorem cons (hc : Surveys fault places c) (h : ∀ r, ¬ fault place r) :
    Surveys fault (place :: places) c := by
  intro r
  rw [hc r, leftmost_cons]
  simp [h]

theorem isOk_iff (hc : Surveys fault places c) :
    (∃ a, c = .ok a) ↔ ∀ p ∈ places, ∀ r, ¬ fault p r := by
  have hfails : (∃ reason, c = .error reason) ↔ ∃ p ∈ places, ∃ r, fault p r := by
    rw [← exists_leftmost]
    exact exists_congr hc
  cases c with
  | ok a => simpa using hfails
  | error r => simpa using hfails

theorem bind {k : α → Except ε β} (hc : Surveys fault places c)
    (hk : ∀ a, c = .ok a → Surveys fault more (k a)) :
    Surveys fault (places ++ more) (c >>= k) := by
  intro r
  rw [leftmost_append, ← hc r, ← hc.isOk_iff]
  cases c with
  | error reason =>
    show Except.error reason = Except.error r ↔ _
    simp
  | ok a =>
    rw [← hk a rfl r]
    simp [Bind.bind, Except.bind]

theorem bind_pure {f : α → β} (hc : Surveys fault places c) :
    Surveys fault places (c >>= fun a => pure (f a)) := by
  rw [← List.append_nil places]
  exact hc.bind fun a _ => ok (f a)

theorem map {f : α → β} (hc : Surveys fault places c) : Surveys fault places (f <$> c) := by
  rw [← bind_pure_comp]
  exact hc.bind_pure

end Surveys

end MathMarkup
