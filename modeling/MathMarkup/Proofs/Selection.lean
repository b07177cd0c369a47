import Mathlib.Tactic.Common
import MathMarkup.Grammar.Outcome

/-!
# Selection

How the outcome of a list of rules depends on the outcomes of its members. A rule that refuses the
tokens leaves them to the rules behind it. Where all tokens are wanted, a rule that leaves some of
them over is passed in the same way.
-/

namespace MathMarkup.Grammar

def Refuses (g : Grammar) (r : Rule) (ts : List Token) : Prop :=
  ∃ reason, g.outcome r ts = .error (.mismatch reason)

def Passes (g : Grammar) (r : Rule) (ts : List Token) : Prop :=
  g.Refuses r ts ∨ ∃ p, g.outcome r ts = .ok p ∧ p.rest ts ≠ []

variable {g : Grammar} {ts : List Token} {ρ : Type} {rule : ρ → Rule} {r : ρ} {rs : List ρ}

/-! ## The first rule that succeeds -/

theorem firstOutcome_cons (ht : ts ≠ []) :
    g.firstOutcome rule (r :: rs) ts =
      match g.outcome (rule r) ts with
      | .error (.mismatch _) => g.firstOutcome rule rs ts
      | outcome => outcome := by
  cases ts with
  | nil => exact absurd rfl ht
  | cons first rest =>
    show Id.run (match g.outcome (rule r) (first :: rest) with
      | .error (.mismatch _) => _
      | outcome => pure outcome) = _
    rcases g.outcome (rule r) (first :: rest) with (_ | _) | _ <;> rfl

theorem firstOutcome_of_refuses (ht : ts ≠ []) (h : g.Refuses (rule r) ts) :
    g.firstOutcome rule (r :: rs) ts = g.firstOutcome rule rs ts := by
  obtain ⟨reason, hr⟩ := h
  rw [firstOutcome_cons ht, hr]

theorem firstOutcome_of_ok {p : Parsed} (ht : ts ≠ []) (h : g.outcome (rule r) ts = .ok p) :
    g.firstOutcome rule (r :: rs) ts = .ok p := by
  rw [firstOutcome_cons ht, h]

theorem firstOutcome_append {before : List ρ} (ht : ts ≠ [])
    (h : ∀ b ∈ before, g.Refuses (rule b) ts) :
    g.firstOutcome rule (before ++ rs) ts = g.firstOutcome rule rs ts := by
  induction before with
  | nil => rfl
  | cons b before ih =>
    rw [List.cons_append, firstOutcome_of_refuses ht (h b List.mem_cons_self)]
    exact ih fun c hc => h c (List.mem_cons_of_mem b hc)

theorem firstOutcome_insert {c : ρ} {before : List ρ} (ht : ts ≠ [])
    (h : g.Refuses (rule c) ts) :
    g.firstOutcome rule (before ++ c :: rs) ts = g.firstOutcome rule (before ++ rs) ts := by
  induction before with
  | nil => exact firstOutcome_of_refuses ht h
  | cons b before ih =>
    rw [List.cons_append, List.cons_append, firstOutcome_cons ht, firstOutcome_cons ht, ih]

theorem firstOutcome_congr {g' : Grammar}
    (h : ∀ r, g.outcome (rule r) ts = g'.outcome (rule r) ts) :
    g.firstOutcome rule rs ts = g'.firstOutcome rule rs ts := by
  rw [firstOutcome, firstOutcome, funext h]

theorem exists_of_firstOutcome {p : Parsed} (h : g.firstOutcome rule rs ts = .ok p) :
    ∃ r ∈ rs, g.outcome (rule r) ts = .ok p := by
  have ht : ts ≠ [] := by
    rintro rfl
    cases h
  induction rs with
  | nil =>
    cases ts with
    | nil => exact absurd rfl ht
    | cons first rest => cases h
  | cons r rs ih =>
    rw [firstOutcome_cons ht] at h
    split at h
    · obtain ⟨s, hs, ho⟩ := ih h
      exact ⟨s, List.mem_cons_of_mem r hs, ho⟩
    · exact ⟨r, List.mem_cons_self, h⟩

theorem firstOutcome_map {σ : Type} (f : σ → ρ) (ss : List σ) :
    g.firstOutcome rule (ss.map f) ts = g.firstOutcome (fun s => rule (f s)) ss ts := by
  by_cases ht : ts = []
  · subst ht
    rfl
  · induction ss with
    | nil => cases ts <;> rfl
    | cons s ss ih => rw [List.map_cons, firstOutcome_cons ht, firstOutcome_cons ht, ih]

/-! ## The first rule that reads all tokens -/

def completeOutcome (g : Grammar) (ts : List Token) (otherwise : Mismatch) (trailing : Option Token)
    (rules : List Rule) : Except Failure Expr :=
  Id.run (completeMatch (fun r => g.outcome r ts) ts otherwise trailing rules)

variable {otherwise : Mismatch} {trailing : Option Token} {s : Rule} {rules : List Rule}

theorem completeOutcome_cons :
    g.completeOutcome ts otherwise trailing (s :: rules) =
      match g.outcome s ts with
      | .ok p =>
        match p.rest ts with
        | [] => .ok p.expr
        | next :: _ => g.completeOutcome ts otherwise (trailing.or (some next)) rules
      | .error (.mismatch _) => g.completeOutcome ts otherwise trailing rules
      | .error failure => .error failure := by
  show Id.run (match g.outcome s ts with
    | .ok p => match p.rest ts with
      | [] => _
      | next :: _ => _
    | .error (.mismatch _) => _
    | .error failure => _) = _
  rcases g.outcome s ts with (_ | _) | p
  · rfl
  · rfl
  · dsimp only
    cases p.rest ts <;> rfl

theorem completeOutcome_of_passes (otherwise : Mismatch) (trailing : Option Token)
    (rules : List Rule) (h : g.Passes s ts) :
    ∃ trailing', g.completeOutcome ts otherwise trailing (s :: rules) =
      g.completeOutcome ts otherwise trailing' rules := by
  rcases h with ⟨reason, hr⟩ | ⟨p, hp, hrest⟩
  · exact ⟨trailing, by rw [completeOutcome_cons, hr]⟩
  · obtain ⟨next, more, hn⟩ := List.exists_cons_of_ne_nil hrest
    exact ⟨trailing.or (some next), by rw [completeOutcome_cons, hp]; simp only [hn]⟩

theorem completeOutcome_of_ok {p : Parsed} (h : g.outcome s ts = .ok p) (hrest : p.rest ts = []) :
    g.completeOutcome ts otherwise trailing (s :: rules) = .ok p.expr := by
  rw [completeOutcome_cons, h]
  simp only [hrest]

theorem completeOutcome_append (otherwise : Mismatch) (trailing : Option Token)
    (rules : List Rule) {before : List Rule} (h : ∀ b ∈ before, g.Passes b ts) :
    ∃ trailing', g.completeOutcome ts otherwise trailing (before ++ rules) =
      g.completeOutcome ts otherwise trailing' rules := by
  induction before generalizing trailing with
  | nil => exact ⟨trailing, rfl⟩
  | cons b before ih =>
    obtain ⟨tr, hb⟩ := completeOutcome_of_passes otherwise trailing (before ++ rules)
      (h b List.mem_cons_self)
    obtain ⟨tr', hr⟩ := ih tr fun c hc => h c (List.mem_cons_of_mem b hc)
    exact ⟨tr', by rw [List.cons_append, hb, hr]⟩

theorem completeOutcome_congr {g' : Grammar} (h : ∀ r, g.outcome r ts = g'.outcome r ts) :
    g.completeOutcome ts otherwise trailing rules =
      g'.completeOutcome ts otherwise trailing rules := by
  rw [completeOutcome, completeOutcome, funext h]

theorem completeOutcome_insert {before : List Rule} (h : g.Refuses s ts) :
    g.completeOutcome ts otherwise trailing (before ++ s :: rules) =
      g.completeOutcome ts otherwise trailing (before ++ rules) := by
  induction before generalizing trailing with
  | nil =>
    obtain ⟨reason, hr⟩ := h
    rw [List.nil_append, completeOutcome_cons, hr, List.nil_append]
  | cons b before ih =>
    simp only [List.cons_append, completeOutcome_cons, ih]

theorem exists_of_completeOutcome {e : Expr}
    (h : g.completeOutcome ts otherwise trailing rules = .ok e) :
    ∃ r ∈ rules, ∃ p, g.outcome r ts = .ok p ∧ p.rest ts = [] ∧ p.expr = e := by
  induction rules generalizing trailing with
  | nil => cases h
  | cons r rules ih =>
    have later : ∀ {tr : Option Token}, g.completeOutcome ts otherwise tr rules = .ok e →
        ∃ s ∈ r :: rules, ∃ p, g.outcome s ts = .ok p ∧ p.rest ts = [] ∧ p.expr = e := by
      intro tr hl
      obtain ⟨s, hs, hp⟩ := ih hl
      exact ⟨s, List.mem_cons_of_mem r hs, hp⟩
    rw [completeOutcome_cons] at h
    split at h
    · rename_i p hp
      split at h
      · rename_i hrest
        cases h
        exact ⟨r, List.mem_cons_self, p, hp, hrest, rfl⟩
      · exact later h
    · exact later h
    · cases h

theorem completeOutcome_of_firstOutcome {p : Parsed} (h : g.firstOutcome id rules ts = .ok p)
    (hrest : p.rest ts = []) : g.completeOutcome ts otherwise trailing rules = .ok p.expr := by
  have ht : ts ≠ [] := by
    rintro rfl
    cases h
  induction rules with
  | nil =>
    cases ts with
    | nil => exact absurd rfl ht
    | cons first rest => cases h
  | cons r rules ih =>
    rw [firstOutcome_cons ht] at h
    split at h
    · rename_i reason hr
      rw [completeOutcome_cons]
      simp only [id_eq] at hr
      rw [hr]
      exact ih h
    · exact completeOutcome_of_ok h hrest

theorem fullOutcome_cons (first : Token) (rest : List Token) :
    g.fullOutcome (first :: rest) =
      g.completeOutcome (first :: rest) (.noRuleMatched first) none g.rules := rfl

theorem exists_of_fullOutcome {e : Expr} (h : g.fullOutcome ts = .ok e) :
    ∃ r ∈ g.rules, ∃ p, g.outcome r ts = .ok p ∧ p.rest ts = [] ∧ p.expr = e := by
  cases ts with
  | nil => cases h
  | cons first rest => exact exists_of_completeOutcome h

/-! ## Smaller rules first -/

/-- What holds of a rule on some tokens as soon as it holds of all smaller ones holds of all. -/
theorem size_induction {motive : Rule → List Token → Prop}
    (step : ∀ r ts, (∀ s us, s.size us < r.size ts → motive s us) → motive r ts) (r : Rule)
    (ts : List Token) : motive r ts := by
  induction hn : r.size ts using Nat.strongRecOn generalizing r ts with
  | ind n ih => exact step r ts fun s us hs => ih (s.size us) (hn ▸ hs) s us rfl

end MathMarkup.Grammar
