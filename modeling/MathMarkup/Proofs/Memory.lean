import MathMarkup.Grammar.Memory
import MathMarkup.Proofs.Derivation

/-!
# The memory cannot be noticed

A memory is faithful if everything it keeps is what the rule yields when the question is answered
afresh. From a faithful memory every computation of the rules yields what it yields without one, and
the memory it leaves is faithful again. The empty memory is faithful, and so parsing with a memory is
parsing without one.
-/

namespace MathMarkup.Grammar

def Question.part (q : Question) (whole : List Token) : List Token :=
  (whole.drop q.start).take q.length

def Faithful (g : Grammar) (whole : List Token) (memory : Memory) : Prop :=
  ∀ (q : Question) (kept : Except Mismatch Parsed), memory[q]? = some kept →
    kept.mapError Failure.mismatch = g.outcome q.rule (q.part whole)

/-- From every faithful memory the computation yields `a` and leaves a faithful memory. -/
def Agrees (g : Grammar) (whole : List Token) {α : Type} (c : StateM Memory α) (a : α) : Prop :=
  ∀ memory, g.Faithful whole memory →
    (c.run memory).1 = a ∧ g.Faithful whole (c.run memory).2

variable {g : Grammar} {whole : List Token} {α β ρ : Type}

theorem faithful_empty : g.Faithful whole ∅ := by
  intro q kept h
  simp at h

theorem Faithful.keep {memory : Memory} {q : Question} {found : Outcome}
    (h : g.Faithful whole memory) (hf : found = g.outcome q.rule (q.part whole)) :
    g.Faithful whole (memory.keep q found) := by
  have inserted : ∀ kept : Except Mismatch Parsed,
      kept.mapError Failure.mismatch = g.outcome q.rule (q.part whole) →
        g.Faithful whole (memory.insert q kept) := by
    intro kept hk q' kept' hq
    rw [Std.HashMap.getElem?_insert] at hq
    split_ifs at hq with he
    · cases hq
      rw [← eq_of_beq he]
      exact hk
    · exact h q' kept' hq
  cases found with
  | ok p => exact inserted (.ok p) hf
  | error failure =>
    cases failure with
    | mismatch reason => exact inserted (.error reason) hf
    | unsupportedScript t => exact h

theorem Faithful.taken_le {memory : Memory} {q : Question} {p : Parsed}
    (h : g.Faithful whole memory) (hq : memory[q]? = some (.ok p)) :
    p.taken ≤ (q.part whole).length :=
  Grammar.taken_le (h q (.ok p) hq).symm

/-! ## Computations -/

theorem agrees_pure (a : α) : g.Agrees whole (pure a) a := fun _ h => ⟨rfl, h⟩

theorem Agrees.bind {c : StateM Memory α} {a : α} {f : α → StateM Memory β} {b : β}
    (hc : g.Agrees whole c a) (hf : g.Agrees whole (f a) b) : g.Agrees whole (c >>= f) b := by
  intro memory h
  obtain ⟨ha, hm⟩ := hc memory h
  have hb := hf _ hm
  rw [← ha] at hb
  exact hb

theorem agrees_lift (r : Except Mismatch α) :
    g.Agrees whole (liftM r : ExceptT Failure (StateM Memory) α).run
      (Id.run (liftM r : ExceptT Failure Id α).run) :=
  agrees_pure _

theorem Agrees.bindExcept {c : ExceptT Failure (StateM Memory) α} {a : ExceptT Failure Id α}
    {f : α → ExceptT Failure (StateM Memory) β} {f' : α → ExceptT Failure Id β}
    (hc : g.Agrees whole c.run (Id.run a.run))
    (hf : ∀ x, g.Agrees whole (f x).run (Id.run (f' x).run)) :
    g.Agrees whole (c >>= f).run (Id.run (a >>= f').run) := by
  rw [run_bind, ExceptT.run_bind]
  apply hc.bind
  cases Id.run a.run with
  | ok x => exact hf x
  | error failure => exact agrees_pure _

section Selection

variable {ask : ρ → StateM Memory Outcome} {ask' : ρ → Id Outcome}

theorem agrees_firstMatch (h : ∀ r, g.Agrees whole (ask r) (Id.run (ask' r))) (first : Token)
    (rules : List ρ) :
    g.Agrees whole (firstMatch ask first rules) (Id.run (firstMatch ask' first rules)) := by
  induction rules with
  | nil => exact agrees_pure _
  | cons r rules ih =>
    simp only [firstMatch, Id.run_bind]
    apply (h r).bind
    rcases Id.run (ask' r) with (_ | _) | _
    · exact ih
    · exact agrees_pure _
    · exact agrees_pure _

theorem agrees_anyMatch (h : ∀ r, g.Agrees whole (ask r) (Id.run (ask' r))) (rules : List ρ)
    (ts : List Token) :
    g.Agrees whole (anyMatch ask rules ts) (Id.run (anyMatch ask' rules ts)) := by
  cases ts with
  | nil => exact agrees_pure _
  | cons first rest => exact agrees_firstMatch h first rules

theorem agrees_completeMatch (h : ∀ r, g.Agrees whole (ask r) (Id.run (ask' r)))
    (ts : List Token) (otherwise : Mismatch) (trailing : Option Token) (rules : List ρ) :
    g.Agrees whole (completeMatch ask ts otherwise trailing rules)
      (Id.run (completeMatch ask' ts otherwise trailing rules)) := by
  induction rules generalizing trailing with
  | nil => exact agrees_pure _
  | cons r rules ih =>
    simp only [completeMatch, Id.run_bind]
    apply (h r).bind
    rcases Id.run (ask' r) with (_ | _) | p
    · exact ih _
    · exact agrees_pure _
    · dsimp only
      cases p.rest ts with
      | nil => exact agrees_pure _
      | cons next rest => exact ih _

theorem agrees_fullMatch (h : ∀ r, g.Agrees whole (ask r) (Id.run (ask' r))) (rules : List ρ)
    (ts : List Token) :
    g.Agrees whole (fullMatch ask rules ts) (Id.run (fullMatch ask' rules ts)) := by
  cases ts with
  | nil => exact agrees_pure _
  | cons first rest => exact agrees_completeMatch h _ _ _ rules

end Selection

/-! ## Rules -/

theorem agrees_step {ts : List Token} (r : Rule) {ask : Ask (StateM Memory) ts (r.size ts)}
    {ask' : Ask Id ts (r.size ts)}
    (h : ∀ r' p hp, g.Agrees whole (ask r' p hp) (Id.run (ask' r' p hp))) :
    g.Agrees whole (g.step ts r ask).run (Id.run (g.step ts r ask').run) := by
  cases r with
  | chain =>
    simp only [step, chain]
    split
    · apply Agrees.bindExcept (agrees_anyMatch (fun a => h _ _ _) _ _)
      intro left
      split
      · apply Agrees.bindExcept (agrees_lift _)
        intro op
        apply Agrees.bindExcept (agrees_anyMatch (fun r => h _ _ _) _ _)
        intro right
        exact agrees_pure _
      · exact agrees_pure _
    · exact agrees_pure _
  | atom a =>
    cases a with
    | parenthesized =>
      simp only [step, parenthesized]
      split
      · apply Agrees.bindExcept (agrees_lift _)
        intro split
        apply Agrees.bindExcept (agrees_fullMatch (fun r => h _ _ _) _ _)
        intro inner
        exact agrees_pure _
      · exact agrees_pure _
    | unaryCommand =>
      rcases ts with _ | ⟨head, _ | ⟨next, rest⟩⟩
      · exact agrees_pure _
      · exact agrees_pure _
      · simp only [step, unaryCommand]
        apply Agrees.bindExcept (agrees_lift _)
        intro op
        split
        · apply Agrees.bindExcept (agrees_lift _)
          intro split
          apply Agrees.bindExcept (agrees_lift _)
          intro operand
          exact agrees_pure _
        · refine Agrees.bindExcept ?_ fun operand => agrees_pure _
          exact agrees_anyMatch (fun a => h (.atom a) _ _) g.atoms (next :: rest)
    | bracketBinary => exact agrees_pure _
    | superscript => exact agrees_pure _
    | subscript => exact agrees_pure _
    | implicitProduct => exact agrees_pure _
    | number => exact agrees_pure _
    | var => exact agrees_pure _

theorem answer_run (r : Rule) (ts : List Token) (start : Nat) (memory : Memory) :
    (g.answer r ts start).run memory =
      match memory[(⟨r, start, ts.length⟩ : Question)]? with
      | some kept => (kept.mapError .mismatch, memory)
      | none =>
        let found := (g.step ts r fun r' p _ => answer g r' p.tokens (start + p.skip)).run.run memory
        (found.1, found.2.keep ⟨r, start, ts.length⟩ found.1) := by
  rw [answer]
  show StateT.run (match memory[(⟨r, start, ts.length⟩ : Question)]? with
    | some kept => _
    | none => _) memory = _
  split <;> rfl

theorem Part.tokens_within {ts : List Token} (p : Part ts) {start : Nat}
    (h : ts <+: whole.drop start) : p.tokens <+: whole.drop (start + p.skip) := by
  obtain ⟨rest, hr⟩ := h
  refine p.within.trans ⟨rest.drop (p.skip - ts.length), ?_⟩
  rw [← List.drop_drop, ← hr, List.drop_append]

theorem agrees_answer (r : Rule) (ts : List Token) (start : Nat) (h : ts <+: whole.drop start) :
    g.Agrees whole (g.answer r ts start) (g.outcome r ts) := by
  intro memory hm
  have hpart : Question.part ⟨r, start, ts.length⟩ whole = ts := by
    obtain ⟨rest, hr⟩ := h
    simp only [Question.part, ← hr, List.take_left]
  have hstep : g.Agrees whole (g.step ts r fun r' p _ => answer g r' p.tokens (start + p.skip)).run
      (g.outcome r ts) := by
    rw [outcome]
    apply agrees_step r
    intro r' p hp
    exact agrees_answer r' p.tokens (start + p.skip) (p.tokens_within h)
  rw [answer_run]
  split
  · rename_i kept hk
    refine ⟨?_, hm⟩
    rw [hm _ kept hk, hpart]
  · obtain ⟨hf, hk⟩ := hstep memory hm
    exact ⟨hf, hk.keep (hf.trans (by rw [hpart]))⟩
termination_by r.size ts

theorem agrees_answer_all (r : Rule) (ts : List Token) :
    g.Agrees ts (g.answer r ts 0) (g.outcome r ts) :=
  agrees_answer r ts 0 List.prefix_rfl

theorem apply_eq_outcome (r : Rule) (ts : List Token) : g.apply r ts = g.outcome r ts :=
  (agrees_answer_all r ts ∅ faithful_empty).1

theorem parse_eq_firstOutcome (ts : List Token) : g.parse ts = g.firstOutcome id g.rules ts :=
  (agrees_anyMatch (fun r => agrees_answer_all r ts) g.rules ts ∅ faithful_empty).1

theorem parseComplete_eq_fullOutcome (ts : List Token) : g.parseComplete ts = g.fullOutcome ts :=
  (agrees_fullMatch (fun r => agrees_answer_all r ts) g.rules ts ∅ faithful_empty).1

/-- A single rule, the first rule and the first complete rule yield with a memory what they yield
without one. From any faithful memory, about any part of the tokens, a rule yields that too and
leaves a faithful memory, in which no success reaches beyond the part it was read from. -/
theorem memory_transparent (g : Grammar) :
    (∀ r ts, g.apply r ts = g.outcome r ts) ∧
      (∀ ts, g.parse ts = g.firstOutcome id g.rules ts) ∧
      (∀ ts, g.parseComplete ts = g.fullOutcome ts) ∧
      ∀ whole memory, g.Faithful whole memory →
        (∀ r start ts, ts <+: whole.drop start →
          ((g.answer r ts start).run memory).1 = g.outcome r ts ∧
            g.Faithful whole ((g.answer r ts start).run memory).2) ∧
          ∀ (q : Question) (p : Parsed), memory[q]? = some (.ok p) →
            p.taken ≤ (q.part whole).length := by
  refine ⟨apply_eq_outcome, parse_eq_firstOutcome, parseComplete_eq_fullOutcome, ?_⟩
  intro whole memory hm
  exact ⟨fun r start ts h => agrees_answer r ts start h memory hm, fun q p hq => hm.taken_le hq⟩

/-- The memory has two entries for the tokens from position 1 on, which end at different places. -/
theorem memory_transparent_nested :
    let g : Grammar := ⟨Command.meaning Command.standard, false⟩
    let ts : List Token := [⟨.parenLeft, "(", 0, 1⟩, ⟨.var, "x", 1, 2⟩, ⟨.command, "+", 2, 3⟩,
      ⟨.var, "y", 3, 4⟩, ⟨.command, "+", 4, 5⟩, ⟨.var, "z", 5, 6⟩, ⟨.parenRight, ")", 6, 7⟩]
    let short : Parsed := ⟨.binary .add (.var "x") (.var "y"), 3⟩
    let long : Parsed := ⟨.binary .add (.var "x") (.binary .add (.var "y") (.var "z")), 5⟩
    let memory : Memory := (Memory.keep ∅ ⟨.chain, 1, 3⟩ (.ok short)).keep ⟨.chain, 1, 5⟩ (.ok long)
    let whole := (g.answer (.atom .parenthesized) ts 0).run memory
    let part := (g.answer .chain ((ts.drop 1).take 3) 1).run whole.2
    whole.1 = .ok ⟨.group long.expr, 7⟩ ∧ part.1 = .ok short ∧ g.Faithful ts part.2 ∧
      long.taken ≤ (Question.part ⟨.chain, 1, 5⟩ ts).length := by
  intro g ts short long memory whole part
  have hshort : g.outcome .chain ((ts.drop 1).take 3) = .ok short := by with_unfolding_all rfl
  have hlong : g.outcome .chain ((ts.drop 1).take 5) = .ok long := by with_unfolding_all rfl
  have hgroup : g.outcome (.atom .parenthesized) ts = .ok ⟨.group long.expr, 7⟩ := by
    with_unfolding_all rfl
  have hm : g.Faithful ts memory := (faithful_empty.keep hshort.symm).keep hlong.symm
  have hkept : memory[(⟨.chain, 1, 5⟩ : Question)]? = some (.ok long) :=
    Std.HashMap.getElem?_insert_self
  obtain ⟨hruns, htaken⟩ := (memory_transparent g).2.2.2 ts memory hm
  obtain ⟨hw, hwm⟩ := hruns (.atom .parenthesized) 0 ts List.prefix_rfl
  have hpart : (ts.drop 1).take 3 <+: ts.drop 1 := List.take_prefix 3 (ts.drop 1)
  obtain ⟨hp, hpm⟩ := ((memory_transparent g).2.2.2 ts whole.2 hwm).1 .chain 1 _ hpart
  exact ⟨hw.trans hgroup, hp.trans hshort, hpm, htaken _ long hkept⟩

end MathMarkup.Grammar
