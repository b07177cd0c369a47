import MathMarkup.Proofs.Agreement
import MathMarkup.Proofs.Appending

/-!
# What failures report

A failure is true of the tokens that were read. A token that it names is among them and is of the
kind that it says, and the numbers of tokens that it compares are right. A script that ends the parse
stands among them too, with braces that do not hold just one literal. A rule that asks about a part
of its tokens may report what is true of the part, since that is true of the whole as well.
-/

namespace MathMarkup.Grammar

/-- What a mismatch says about the tokens `ts`. -/
def Mismatch.TrueOf (ts : List Token) : Mismatch → Prop
  | emptyInput => True
  | insufficientTokens _ found required => found < required ∧ found ≤ ts.length
  | unexpectedToken expected found => found ∈ ts ∧ found.kind ≠ expected
  | unknownOperator t | invalidNumber t | unbalancedScope t | unclosedScope t | singletonRun t
  | trailingTokens t | noRuleMatched t => t ∈ ts

def Failure.TrueOf (ts : List Token) : Failure → Prop
  | mismatch reason => reason.TrueOf ts
  | unsupportedScript found =>
    ∃ base mark opening next, [base, mark, opening, found, next] <:+: ts ∧ base.kind = .var ∧
      (mark.kind = .superscript ∨ mark.kind = .subscript) ∧ opening.kind = .argStart ∧
      ¬(found.kind = .arg ∧ next.kind = .argEnd)

variable {g : Grammar} {t : Token} {ts us : List Token} {ε α β : Type}

theorem Mismatch.TrueOf.within {reason : Mismatch} (h : reason.TrueOf us) (hs : us <:+: ts) :
    reason.TrueOf ts := by
  cases reason with
  | emptyInput => trivial
  | insufficientTokens construct found required => exact ⟨h.1, h.2.trans hs.length_le⟩
  | unexpectedToken expected found => exact ⟨hs.subset h.1, h.2⟩
  | unknownOperator t | invalidNumber t | unbalancedScope t | unclosedScope t | singletonRun t
  | trailingTokens t | noRuleMatched t => exact hs.subset h

theorem Failure.TrueOf.within {failure : Failure} (h : failure.TrueOf us) (hs : us <:+: ts) :
    failure.TrueOf ts := by
  cases failure with
  | mismatch reason => exact Mismatch.TrueOf.within h hs
  | unsupportedScript found =>
    obtain ⟨base, mark, opening, next, hi, h⟩ := h
    exact ⟨base, mark, opening, next, hi.trans hs, h⟩

/-! ## Computations that fail -/

def FailsOnly (P : ε → Prop) (found : Except ε α) : Prop := ∀ reason, found = .error reason → P reason

variable {P : ε → Prop}

theorem failsOnly_ok (a : α) : FailsOnly P (.ok a : Except ε α) := fun _ h => by cases h

theorem failsOnly_error {reason : ε} (h : P reason) : FailsOnly P (.error reason : Except ε α) := by
  rintro _ ⟨⟩
  exact h

theorem FailsOnly.bind {found : Except ε α} {f : α → Except ε β} (h : FailsOnly P found)
    (hf : ∀ a, found = .ok a → FailsOnly P (f a)) : FailsOnly P (found >>= f) := by
  cases found with
  | error reason => exact failsOnly_error (h reason rfl)
  | ok a => exact hf a rfl

theorem FailsOnly.map {found : Except ε α} (h : FailsOnly P found) (f : α → β) :
    FailsOnly P (found.map f) := by
  cases found with
  | error reason => exact failsOnly_error (h reason rfl)
  | ok a => exact failsOnly_ok (f a)

theorem FailsOnly.lift {found : Except Mismatch α} (h : FailsOnly (Mismatch.TrueOf ts) found) :
    FailsOnly (Failure.TrueOf ts) (liftM found : Except Failure α) := by
  cases found with
  | error reason => exact failsOnly_error (h reason rfl)
  | ok a => exact failsOnly_ok a

theorem FailsOnly.within {found : Except Mismatch α} (h : FailsOnly (Mismatch.TrueOf us) found)
    (hs : us <:+: ts) : FailsOnly (Mismatch.TrueOf ts) found :=
  fun reason hr => (h reason hr).within hs

theorem FailsOnly.within_failure {found : Except Failure α}
    (h : FailsOnly (Failure.TrueOf us) found) (hs : us <:+: ts) :
    FailsOnly (Failure.TrueOf ts) found :=
  fun reason hr => (h reason hr).within hs

/-! ## Rules that ask no other rule -/

theorem expect_failsOnly (kind : Token.Kind) (ht : t ∈ ts) :
    FailsOnly (Mismatch.TrueOf ts) (expect kind t) := by
  unfold expect
  split_ifs with hk
  · exact failsOnly_ok ()
  · exact failsOnly_error ⟨ht, hk⟩

theorem numberLeaf_failsOnly (ht : t ∈ ts) : FailsOnly (Mismatch.TrueOf ts) (numberLeaf t) := by
  unfold numberLeaf
  split_ifs with hk
  · split
    · exact failsOnly_ok _
    · exact failsOnly_error ht
  · exact failsOnly_error ⟨ht, hk⟩

theorem varLeaf_failsOnly (ht : t ∈ ts) : FailsOnly (Mismatch.TrueOf ts) (varLeaf t) := by
  unfold varLeaf
  split_ifs with hk
  · exact failsOnly_ok _
  · exact failsOnly_error ⟨ht, hk⟩

theorem argLeaf_failsOnly (ht : t ∈ ts) : FailsOnly (Mismatch.TrueOf ts) (argLeaf t) := by
  unfold argLeaf
  split_ifs with hk
  · exact failsOnly_ok _
  · exact failsOnly_error ⟨ht, hk⟩

theorem factorLeaf_failsOnly (ht : t ∈ ts) : FailsOnly (Mismatch.TrueOf ts) (factorLeaf t) := by
  unfold factorLeaf
  split_ifs
  · exact varLeaf_failsOnly ht
  · exact numberLeaf_failsOnly ht

theorem firstLeaf_failsOnly {leaf : Token → Except Mismatch Expr}
    (h : ∀ t ∈ ts, FailsOnly (Mismatch.TrueOf ts) (leaf t)) :
    FailsOnly (Mismatch.TrueOf ts) (firstLeaf leaf ts) := by
  cases ts with
  | nil => exact failsOnly_error trivial
  | cons first rest => exact (h first List.mem_cons_self).map _

theorem bracedLeaf_failsOnly (ts : List Token) :
    FailsOnly (Mismatch.TrueOf ts) (bracedLeaf ts) := by
  cases ts with
  | nil => exact failsOnly_error trivial
  | cons first rest =>
    have hfirst : FailsOnly (Mismatch.TrueOf (first :: rest)) (argLeaf first) :=
      argLeaf_failsOnly List.mem_cons_self
    simp only [bracedLeaf]
    split
    · rename_i reason hr
      exact failsOnly_error (hfirst reason hr)
    · exact failsOnly_ok _
    · exact failsOnly_error (by simp [Mismatch.TrueOf])

theorem binaryOp_failsOnly (g : Grammar) (ht : t ∈ ts) :
    FailsOnly (Mismatch.TrueOf ts) (g.binaryOp t) := by
  unfold binaryOp
  split
  · split_ifs
    · exact failsOnly_ok _
    · exact failsOnly_error ht
  · exact failsOnly_error ht

theorem unaryOp_failsOnly (g : Grammar) (ht : t ∈ ts) :
    FailsOnly (Mismatch.TrueOf ts) (g.unaryOp t) := by
  unfold unaryOp
  split
  · split_ifs
    · exact failsOnly_ok _
    · exact failsOnly_error ht
  · exact failsOnly_error ht

theorem balancedScope_failsOnly (opener closer : Token.Kind) (ts : List Token) :
    FailsOnly (Mismatch.TrueOf ts) (balancedScope opener closer ts) := by
  cases ts with
  | nil => exact failsOnly_error trivial
  | cons first rest =>
    have hfirst : first ∈ first :: rest := List.mem_cons_self
    simp only [balancedScope]
    split_ifs with hc ho
    · exact failsOnly_error hfirst
    · exact failsOnly_error ⟨hfirst, ho⟩
    · split
      · exact failsOnly_ok _
      · exact failsOnly_error hfirst

theorem infixes_of_balancedScope {opener closer : Token.Kind} {split : Split}
    (h : balancedScope opener closer ts = .ok split) :
    split.inside <:+: ts ∧ split.remainder <:+: ts := by
  obtain ⟨first, close, _, _, rfl⟩ := balancedScope_append h
  constructor
  · exact ⟨[first], close :: split.remainder, by simp⟩
  · exact ⟨first :: (split.inside ++ [close]), [], by simp⟩

theorem bracketBinary_failsOnly (g : Grammar) (ts : List Token) :
    FailsOnly (Mismatch.TrueOf ts) (g.bracketBinary ts) := by
  cases ts with
  | nil => exact failsOnly_error ⟨Nat.one_pos, Nat.le_refl 0⟩
  | cons head rest =>
    have hrest : rest <:+: head :: rest := List.infix_cons (List.infix_refl rest)
    refine (binaryOp_failsOnly g List.mem_cons_self).bind fun op _ => ?_
    refine ((balancedScope_failsOnly _ _ rest).within hrest).bind fun first hf => ?_
    obtain ⟨hfi, hfr⟩ := infixes_of_balancedScope hf
    refine ((balancedScope_failsOnly _ _ _).within (hfr.trans hrest)).bind fun second hs => ?_
    obtain ⟨hsi, _⟩ := infixes_of_balancedScope hs
    refine ((bracedLeaf_failsOnly _).within (hfi.trans hrest)).bind fun left _ => ?_
    refine ((bracedLeaf_failsOnly _).within (hsi.trans (hfr.trans hrest))).bind fun right _ => ?_
    exact failsOnly_ok _

theorem script_failsOnly {construct : Construct} {marker : Token.Kind}
    {build : String → String → Expr} (hm : marker = .superscript ∨ marker = .subscript)
    (ts : List Token) :
    FailsOnly (Failure.TrueOf ts) (script construct marker build ts) := by
  unfold script
  split
  · rename_i base mark opening raw closing rest
    refine (expect_failsOnly .var (by simp)).lift.bind fun _ hb => ?_
    refine (expect_failsOnly marker (by simp)).lift.bind fun _ hk => ?_
    refine (expect_failsOnly .argStart (by simp)).lift.bind fun _ ho => ?_
    split_ifs with hraw
    · exact failsOnly_ok _
    · have hmark : mark.kind = marker := expect_eq_ok.mp (lift_eq_ok.mp hk)
      refine failsOnly_error ⟨base, mark, opening, closing, ?_, expect_eq_ok.mp (lift_eq_ok.mp hb),
        by rwa [hmark], expect_eq_ok.mp (lift_eq_ok.mp ho), hraw⟩
      exact (List.prefix_append [base, mark, opening, raw, closing] rest).isInfix
  · rename_i hshort
    refine failsOnly_error ⟨?_, Nat.le_refl ts.length⟩
    rcases ts with _ | ⟨a, _ | ⟨b, _ | ⟨c, _ | ⟨d, _ | ⟨e, rest⟩⟩⟩⟩⟩
    · simp
    · simp
    · simp
    · simp
    · simp
    · exact absurd rfl (hshort a b c d e rest)

theorem product_failsOnly (h : ∀ u ∈ t :: us, u ∈ ts) :
    FailsOnly (Mismatch.TrueOf ts) (product t us) := by
  induction us generalizing t with
  | nil => exact factorLeaf_failsOnly (h t List.mem_cons_self)
  | cons next us ih =>
    refine (ih fun u hu => h u (List.mem_cons_of_mem t hu)).bind fun right _ => ?_
    refine (factorLeaf_failsOnly (h t List.mem_cons_self)).bind fun left _ => ?_
    exact failsOnly_ok _

theorem implicitProduct_failsOnly (ts : List Token) :
    FailsOnly (Mismatch.TrueOf ts) (implicitProduct ts) := by
  cases ts with
  | nil => exact failsOnly_error trivial
  | cons first rest =>
    simp only [implicitProduct, run]
    split
    · rename_i t next us hrun
      refine (product_failsOnly fun u hu => ?_).map _
      rw [← hrun] at hu
      exact (List.takeWhile_sublist _).subset hu
    · exact failsOnly_error List.mem_cons_self

/-! ## Rules that ask other rules -/

theorem mem_of_rest_eq {p : Parsed} {next : Token} {more : List Token}
    (h : p.rest ts = next :: more) : next ∈ ts := by
  have hm : next ∈ ts.drop p.taken := by
    rw [show ts.drop p.taken = next :: more from h]
    exact List.mem_cons_self
  exact List.mem_of_mem_drop hm

theorem firstOutcome_failsOnly {ρ : Type} {rule : ρ → Rule} {rs : List ρ}
    (h : ∀ r, FailsOnly (Failure.TrueOf ts) (g.outcome (rule r) ts)) :
    FailsOnly (Failure.TrueOf ts) (g.firstOutcome rule rs ts) := by
  intro failure hf
  rcases firstOutcome_error_cases hf with
    ⟨_, rfl⟩ | ⟨first, rest, rfl, rfl⟩ | ⟨found, r, _, hr, rfl⟩
  · trivial
  · exact List.mem_cons_self
  · exact h r _ hr

theorem fullOutcome_failsOnly (h : ∀ r, FailsOnly (Failure.TrueOf ts) (g.outcome r ts)) :
    FailsOnly (Failure.TrueOf ts) (g.fullOutcome ts) := by
  intro failure hf
  rcases fullOutcome_error_cases hf with
    hfirst | ⟨p, next, more, _, hrest, rfl⟩ | ⟨found, r, _, hr, rfl⟩
  · exact firstOutcome_failsOnly h failure hfirst
  · exact mem_of_rest_eq hrest
  · exact h r _ hr

def TrueBelow (g : Grammar) (size : Nat) : Prop :=
  ∀ r us, Rule.size us r < size → FailsOnly (Failure.TrueOf us) (g.outcome r us)

theorem parenthesized_failsOnly (ih : g.TrueBelow ((Rule.atom .parenthesized).size ts)) :
    FailsOnly (Failure.TrueOf ts) (g.outcome (.atom .parenthesized) ts) := by
  rw [outcome_parenthesized]
  split_ifs with hl
  · refine (balancedScope_failsOnly _ _ ts).lift.bind fun split _ => ?_
    have hpart : (ts.drop 1).take split.inside.length <:+: ts :=
      (List.take_prefix _ _).isInfix.trans (List.drop_suffix 1 ts).isInfix
    have hinner := fullOutcome_failsOnly fun r => ih r _ (size_inside_lt hl split r)
    exact (hinner.within_failure hpart).bind fun inner _ => failsOnly_ok _
  · exact failsOnly_error ⟨Nat.lt_of_not_le hl, Nat.le_refl ts.length⟩

theorem unaryCommand_failsOnly (ih : g.TrueBelow ((Rule.atom .unaryCommand).size ts)) :
    FailsOnly (Failure.TrueOf ts) (g.outcome (.atom .unaryCommand) ts) := by
  rcases ts with _ | ⟨head, _ | ⟨next, rest⟩⟩
  · rw [outcome_unaryCommand_nil]
    exact failsOnly_error ⟨Nat.two_pos, Nat.le_refl 0⟩
  · rw [outcome_unaryCommand_singleton]
    exact failsOnly_error ⟨Nat.one_lt_two, Nat.le_refl 1⟩
  · have htail : next :: rest <:+: head :: next :: rest := List.infix_cons (List.infix_refl _)
    rw [outcome_unaryCommand]
    refine (unaryOp_failsOnly g List.mem_cons_self).lift.bind fun op _ => ?_
    split_ifs
    · refine ((balancedScope_failsOnly _ _ _).within htail).lift.bind fun split hs => ?_
      have hinside := (infixes_of_balancedScope (lift_eq_ok.mp hs)).1.trans htail
      exact ((bracedLeaf_failsOnly _).within hinside).lift.bind fun operand _ => failsOnly_ok _
    · have hatom : FailsOnly (Failure.TrueOf (next :: rest))
          (g.firstOutcome .atom g.atoms (next :: rest)) :=
        firstOutcome_failsOnly fun a => ih (.atom a) _ (size_operand_lt head (next :: rest) a)
      exact (hatom.within_failure htail).bind fun operand _ => failsOnly_ok _

theorem chain_failsOnly (ih : g.TrueBelow (Rule.chain.size ts)) :
    FailsOnly (Failure.TrueOf ts) (g.outcome .chain ts) := by
  rw [outcome_chain]
  split_ifs with hl
  · have hleft : FailsOnly (Failure.TrueOf ts) (g.firstOutcome .atom g.atoms ts) :=
      firstOutcome_failsOnly fun a => ih (.atom a) ts (size_left_lt ts a)
    refine hleft.bind fun left _ => ?_
    split
    · rename_i o next more hrest
      refine (binaryOp_failsOnly g (mem_of_rest_eq hrest)).lift.bind fun op _ => ?_
      have hright : FailsOnly (Failure.TrueOf (ts.drop (left.taken + 1)))
          (g.firstOutcome id g.operands (ts.drop (left.taken + 1))) :=
        firstOutcome_failsOnly fun r => ih r _ (size_right_lt hl left r)
      exact (hright.within_failure (List.drop_suffix _ ts).isInfix).bind fun right _ =>
        failsOnly_ok _
    · rename_i hshort
      refine failsOnly_error ⟨?_, (List.drop_suffix left.taken ts).length_le⟩
      rcases hrest : left.rest ts with _ | ⟨o, _ | ⟨next, more⟩⟩
      · exact Nat.two_pos
      · exact Nat.one_lt_two
      · exact absurd hrest (hshort o next more)
  · exact failsOnly_error ⟨Nat.lt_of_not_le hl, Nat.le_refl ts.length⟩

theorem outcome_failsOnly (r : Rule) (ts : List Token) :
    FailsOnly (Failure.TrueOf ts) (g.outcome r ts) := by
  induction r, ts using size_induction with
  | step r ts ih =>
    cases r with
    | chain => exact chain_failsOnly ih
    | atom a =>
      cases a with
      | parenthesized => exact parenthesized_failsOnly ih
      | unaryCommand => exact unaryCommand_failsOnly ih
      | bracketBinary =>
        rw [outcome_bracketBinary]
        exact (bracketBinary_failsOnly g ts).lift
      | superscript =>
        rw [outcome_superscript]
        exact script_failsOnly (.inl rfl) ts
      | subscript =>
        rw [outcome_subscript]
        exact script_failsOnly (.inr rfl) ts
      | implicitProduct =>
        rw [outcome_implicitProduct]
        exact (implicitProduct_failsOnly ts).lift
      | number =>
        rw [outcome_number]
        exact (firstLeaf_failsOnly fun t ht => numberLeaf_failsOnly ht).lift
      | var =>
        rw [outcome_var]
        exact (firstLeaf_failsOnly fun t ht => varLeaf_failsOnly ht).lift

/-! ## The ways of reading tokens -/

/-- Asking one rule, the first rule that takes the tokens, or the first that takes them all yields the
failure. -/
def Fails (g : Grammar) (ts : List Token) (failure : Failure) : Prop :=
  (∃ r, g.apply r ts = .error failure) ∨ g.parse ts = .error failure ∨
    g.parseComplete ts = .error failure

theorem Fails.trueOf {failure : Failure} (h : g.Fails ts failure) : failure.TrueOf ts := by
  rcases h with ⟨r, hr⟩ | hp | hc
  · rw [apply_eq_outcome] at hr
    exact outcome_failsOnly r ts failure hr
  · rw [parse_eq_firstOutcome] at hp
    exact firstOutcome_failsOnly (fun r => outcome_failsOnly r ts) failure hp
  · rw [parseComplete_eq_fullOutcome] at hc
    exact fullOutcome_failsOnly (fun r => outcome_failsOnly r ts) failure hc

/-! ## Where mismatches point -/

def Mismatch.pointsAt? : Mismatch → Option (String × Nat)
  | emptyInput | insufficientTokens _ _ _ | singletonRun _ => none
  | unexpectedToken _ t | unknownOperator t | invalidNumber t | unbalancedScope t
  | unclosedScope t | trailingTokens t | noRuleMatched t => some (t.text, t.start)

theorem Mismatch.TrueOf.exists_mem {reason : Mismatch} {text : String} {start : Nat}
    (h : reason.TrueOf ts) (hp : reason.pointsAt? = some (text, start)) :
    ∃ t ∈ ts, t.text = text ∧ t.start = start := by
  cases reason with
  | emptyInput | insufficientTokens construct found required | singletonRun first => cases hp
  | unexpectedToken expected found =>
    cases hp
    exact ⟨found, h.1, rfl, rfl⟩
  | unknownOperator found | invalidNumber found | unbalancedScope found | unclosedScope found
  | trailingTokens found | noRuleMatched found =>
    cases hp
    exact ⟨found, h, rfl, rfl⟩

/-- A mismatch points at a token, and what it says of kinds and numbers of tokens is right. In a text
what it points at is found at the offset that it gives. -/
theorem mismatch_points_at_token (g : Grammar) (ts : List Token) (reason : Mismatch)
    (h : g.Fails ts (.mismatch reason)) :
    (∀ text start, reason.pointsAt? = some (text, start) →
      ∃ t ∈ ts, t.text = text ∧ t.start = start) ∧
    (∀ expected found, reason = .unexpectedToken expected found →
      found ∈ ts ∧ found.kind ≠ expected) ∧
    (∀ first, reason = .singletonRun first → first ∈ ts) ∧
    (∀ rule found required, reason = .insufficientTokens rule found required →
      found < required ∧ found ≤ ts.length) ∧
    ∀ input, ts = lex input → ∀ text start, reason.pointsAt? = some (text, start) →
      ∃ before after, input = before ++ text ++ after ∧ before.utf8ByteSize = start := by
  have htrue : reason.TrueOf ts := h.trueOf
  refine ⟨fun text start => htrue.exists_mem, ?_, ?_, ?_, ?_⟩
  · rintro expected found rfl
    exact htrue
  · rintro first rfl
    exact htrue
  · rintro rule found required rfl
    exact htrue
  · rintro input rfl text start hp
    obtain ⟨t, ht, rfl, rfl⟩ := htrue.exists_mem hp
    exact exists_append_of_mem_lex ht

theorem mismatch_points_at_parenthesis :
    let g : Grammar := ⟨Command.meaning Command.standard, true⟩
    let opening : Token := ⟨.parenLeft, "(", 2, 3⟩
    let x : Token := ⟨.var, "x", 3, 4⟩
    let plus : Token := ⟨.command, "+", 4, 5⟩
    let ts : List Token := [opening, x, plus]
    (ts = lex "α(x+" ∧ g.Fails ts (.mismatch (.unclosedScope opening)) ∧
      (∃ t ∈ ts, t.text = "(" ∧ t.start = 2) ∧
      ∃ before after, "α(x+" = before ++ "(" ++ after ∧ before.utf8ByteSize = 2) ∧
    (g.Fails ts (.mismatch (.unexpectedToken .var opening)) ∧
      opening ∈ ts ∧ opening.kind ≠ .var) ∧
    (g.Fails [x, plus] (.mismatch (.singletonRun x)) ∧ x ∈ [x, plus]) ∧
    g.Fails [x] (.mismatch (.insufficientTokens .chain 1 3)) ∧ 1 < 3 ∧ 1 ≤ [x].length := by
  intro g opening x plus ts
  have hlex : ts = lex "α(x+" := by
    rw [Scanner.lex_eq_tokens]
    decide
  have hopen : g.Fails ts (.mismatch (.unclosedScope opening)) :=
    .inl ⟨.atom .parenthesized, (apply_eq_outcome _ _).trans (by with_unfolding_all rfl)⟩
  have hkind : g.Fails ts (.mismatch (.unexpectedToken .var opening)) :=
    .inl ⟨.atom .var, (apply_eq_outcome _ _).trans (by with_unfolding_all rfl)⟩
  have hrun : g.Fails [x, plus] (.mismatch (.singletonRun x)) :=
    .inl ⟨.atom .implicitProduct, (apply_eq_outcome _ _).trans (by with_unfolding_all rfl)⟩
  have hshort : g.Fails [x] (.mismatch (.insufficientTokens .chain 1 3)) :=
    .inl ⟨.chain, (apply_eq_outcome _ _).trans (by with_unfolding_all rfl)⟩
  obtain ⟨hmem, _, _, _, hslice⟩ := mismatch_points_at_token g ts _ hopen
  exact ⟨⟨hlex, hopen, hmem "(" 2 rfl, hslice "α(x+" hlex "(" 2 rfl⟩,
    ⟨hkind, (mismatch_points_at_token g ts _ hkind).2.1 _ _ rfl⟩,
    ⟨hrun, (mismatch_points_at_token g [x, plus] _ hrun).2.2.1 _ rfl⟩,
    hshort, (mismatch_points_at_token g [x] _ hshort).2.2.2.1 _ _ _ rfl⟩

end MathMarkup.Grammar
