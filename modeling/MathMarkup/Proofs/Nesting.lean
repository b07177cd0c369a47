import MathMarkup.Proofs.Sentence

/-!
# Nesting

Tokens are well nested if no beginning of them closes more scopes than it opens and all of them
close as many as they open. What a search for a closing token runs over is well nested, and so are
the tokens of a sentence.
-/

namespace MathMarkup.Grammar

/-- From within `depth` open scopes the tokens close all of them and never more. -/
structure Closes (opener closer : Token.Kind) (depth : Nat) (ts : List Token) : Prop where
  total : countKind closer ts = countKind opener ts + depth
  within : ∀ xs, xs <+: ts → countKind closer xs ≤ countKind opener xs + depth

variable {opener closer : Token.Kind} {depth before : Nat} {t : Token} {ts xs ys : List Token}

theorem closes_nil : Closes opener closer 0 [] := by
  refine ⟨rfl, ?_⟩
  intro xs hxs
  rw [List.prefix_nil.mp hxs]
  simp

theorem Closes.cons (h : Closes opener closer depth ts)
    (ht : before + (if t.kind = opener then 1 else 0) = depth + if t.kind = closer then 1 else 0) :
    Closes opener closer before (t :: ts) := by
  constructor
  · have hts := h.total
    simp only [countKind_cons]
    omega
  · intro xs hxs
    cases xs with
    | nil => simp
    | cons x xs =>
      obtain ⟨rfl, hp⟩ := List.cons_prefix_cons.mp hxs
      have hle := h.within xs hp
      simp only [countKind_cons]
      omega

theorem closeScope_closes (hne : closer ≠ opener) {split : Split}
    (h : closeScope opener closer depth ts = some split) :
    Closes opener closer depth split.inside := by
  induction ts generalizing depth split with
  | nil => cases h
  | cons t ts ih =>
    simp only [closeScope] at h
    split_ifs at h with ho hc
    · obtain ⟨inner, hi, rfl⟩ := Option.map_eq_some_iff.mp h
      exact (ih hi).cons (by simp [ho, hne.symm])
    · cases depth with
      | zero =>
        cases h
        exact closes_nil
      | succ depth =>
        obtain ⟨inner, hi, rfl⟩ := Option.map_eq_some_iff.mp h
        exact (ih hi).cons (by simp [hc, hne])
    · obtain ⟨inner, hi, rfl⟩ := Option.map_eq_some_iff.mp h
      exact (ih hi).cons (by simp [ho, hc])

theorem Balanced.closes (h : Balanced ts) : Closes .parenLeft .parenRight 0 ts := by
  have hs := closeScope_closes (by decide) (h 0 [⟨.parenRight, ")", 0, 0⟩])
  simpa using hs

theorem Closes.suffix (h : Closes opener closer 0 ts) (hys : ys <:+ ts) :
    countKind opener ys ≤ countKind closer ys := by
  obtain ⟨xs, rfl⟩ := hys
  have ht := h.total
  have hb := h.within xs (List.prefix_append xs ys)
  simp only [countKind_append] at ht
  omega

end MathMarkup.Grammar
