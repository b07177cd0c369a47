import Mathlib.Tactic.Common
import MathMarkup.Proofs.Memory
import MathMarkup.Proofs.Words

/-!
# Places do not count

A move gives tokens other places and keeps their kinds and texts. A grammar reads moved tokens as it
reads the tokens themselves: it yields the same tree from the same number of tokens, or the same
failure with its tokens moved. So what is read depends on the words of the tokens alone.
-/

namespace MathMarkup

def Word.token (w : Word) : Token := ⟨w.kind, w.text, 0, 0⟩

def Token.unplaced (t : Token) : Token := t.word.token

namespace Grammar

variable {α β : Type} {f : Token → Token}

def Moves (f : Token → Token) : Prop := ∀ t, (f t).word = t.word

theorem Moves.kind (hf : Moves f) (t : Token) : (f t).kind = t.kind :=
  congrArg Word.kind (hf t)

theorem Moves.text (hf : Moves f) (t : Token) : (f t).text = t.text :=
  congrArg Word.text (hf t)

def Mismatch.move (f : Token → Token) : Mismatch → Mismatch
  | emptyInput => emptyInput
  | insufficientTokens construct found required => insufficientTokens construct found required
  | unexpectedToken expected found => unexpectedToken expected (f found)
  | unknownOperator found => unknownOperator (f found)
  | invalidNumber found => invalidNumber (f found)
  | unbalancedScope closing => unbalancedScope (f closing)
  | unclosedScope opening => unclosedScope (f opening)
  | singletonRun first => singletonRun (f first)
  | trailingTokens next => trailingTokens (f next)
  | noRuleMatched first => noRuleMatched (f first)

def Failure.move (f : Token → Token) : Failure → Failure
  | mismatch reason => mismatch (reason.move f)
  | unsupportedScript found => unsupportedScript (f found)

def Split.move (f : Token → Token) (s : Split) : Split := ⟨s.inside.map f, s.remainder.map f⟩

theorem mapError_bind {ε ε' : Type} (h : ε → ε') (x : Except ε α) (k : α → Except ε β) :
    (x >>= k).mapError h = x.mapError h >>= fun a => (k a).mapError h := by
  cases x <;> rfl

theorem bind_move {ε : Type} {h : ε → ε} {m : α → α} {k k' : α → Except ε β}
    (hk : ∀ a, k' (m a) = (k a).mapError h) (x : Except ε α) :
    ((x.map m).mapError h >>= k') = (x >>= k).mapError h := by
  cases x with
  | error reason => rfl
  | ok a => exact hk a

theorem lift_move {m : α → α} (r : Except Mismatch α) :
    (liftM ((r.map m).mapError (Mismatch.move f)) : Except Failure α) =
      ((liftM r : Except Failure α).map m).mapError (Failure.move f) := by
  cases r <;> rfl

theorem mapError_lift (r : Except Mismatch α) :
    (liftM r : Except Failure α).mapError (Failure.move f) =
      liftM (r.mapError (Mismatch.move f)) := by
  cases r <;> rfl

/-! ## Flat rules -/

variable {g : Grammar} {t : Token} {ts : List Token}

theorem expect_move (hf : Moves f) (kind : Token.Kind) (t : Token) :
    expect kind (f t) = (expect kind t).mapError (.move f) := by
  rw [expect, expect, hf.kind]
  split_ifs <;> rfl

theorem numberLeaf_move (hf : Moves f) (t : Token) :
    numberLeaf (f t) = (numberLeaf t).mapError (.move f) := by
  rw [numberLeaf, numberLeaf, hf.kind, hf.text]
  split_ifs
  · cases Decimal.read? t.text <;> rfl
  · rfl

theorem varLeaf_move (hf : Moves f) (t : Token) :
    varLeaf (f t) = (varLeaf t).mapError (.move f) := by
  rw [varLeaf, varLeaf, hf.kind, hf.text]
  split_ifs <;> rfl

theorem argLeaf_move (hf : Moves f) (t : Token) :
    argLeaf (f t) = (argLeaf t).mapError (.move f) := by
  rw [argLeaf, argLeaf, hf.kind, hf.text]
  split_ifs <;> rfl

theorem factorLeaf_move (hf : Moves f) (t : Token) :
    factorLeaf (f t) = (factorLeaf t).mapError (.move f) := by
  rw [factorLeaf, factorLeaf, hf.kind, varLeaf_move hf, numberLeaf_move hf]
  split_ifs <;> rfl

theorem firstLeaf_move {leaf : Token → Except Mismatch Expr}
    (h : ∀ t, leaf (f t) = (leaf t).mapError (.move f)) (ts : List Token) :
    firstLeaf leaf (ts.map f) = (firstLeaf leaf ts).mapError (.move f) := by
  cases ts with
  | nil => rfl
  | cons t ts =>
    rw [List.map_cons, firstLeaf, firstLeaf, h]
    cases leaf t <;> rfl

theorem bracedLeaf_move (hf : Moves f) (ts : List Token) :
    bracedLeaf (ts.map f) = (bracedLeaf ts).mapError (.move f) := by
  cases ts with
  | nil => rfl
  | cons first rest =>
    simp only [List.map_cons, bracedLeaf, argLeaf_move hf]
    cases argLeaf first with
    | error reason => rfl
    | ok e => cases rest <;> rfl

theorem binaryOp_move (hf : Moves f) (g : Grammar) (t : Token) :
    g.binaryOp (f t) = (g.binaryOp t).mapError (.move f) := by
  rw [binaryOp, binaryOp, hf.kind, hf.text]
  split
  · split_ifs <;> rfl
  · rfl

theorem unaryOp_move (hf : Moves f) (g : Grammar) (t : Token) :
    g.unaryOp (f t) = (g.unaryOp t).mapError (.move f) := by
  rw [unaryOp, unaryOp, hf.kind, hf.text]
  split
  · split_ifs <;> rfl
  · rfl

theorem closeScope_move (hf : Moves f) (opener closer : Token.Kind) (depth : Nat)
    (ts : List Token) :
    closeScope opener closer depth (ts.map f) =
      (closeScope opener closer depth ts).map (.move f) := by
  have hkeep : ∀ (t : Token) (found : Option Split),
      (found.map (.move f)).map (closeScope.keep (f t)) =
        (found.map (closeScope.keep t)).map (.move f) := by
    intro t found
    cases found <;> rfl
  induction ts generalizing depth with
  | nil => rfl
  | cons t ts ih =>
    simp only [List.map_cons, closeScope, hf.kind]
    split_ifs
    · rw [ih, hkeep]
    · cases depth with
      | zero => rfl
      | succ depth => exact (congrArg _ (ih depth)).trans (hkeep t _)
    · rw [ih, hkeep]

theorem balancedScope_move (hf : Moves f) (opener closer : Token.Kind) (ts : List Token) :
    balancedScope opener closer (ts.map f) =
      ((balancedScope opener closer ts).map (.move f)).mapError (.move f) := by
  cases ts with
  | nil => rfl
  | cons first rest =>
    rw [List.map_cons, balancedScope, balancedScope, hf.kind, closeScope_move hf]
    split_ifs
    · rfl
    · rfl
    · cases closeScope opener closer 0 rest <;> rfl

theorem bracketBinary_move (hf : Moves f) (g : Grammar) (ts : List Token) :
    g.bracketBinary (ts.map f) = (g.bracketBinary ts).mapError (.move f) := by
  cases ts with
  | nil => rfl
  | cons head rest =>
    rw [List.map_cons, bracketBinary, bracketBinary, binaryOp_move hf, mapError_bind]
    refine congrArg (Except.bind _) (funext fun op => ?_)
    rw [braces, balancedScope_move hf]
    refine bind_move (fun first => ?_) _
    rw [braces, Split.move, balancedScope_move hf]
    refine bind_move (fun second => ?_) _
    simp only [Split.move, bracedLeaf_move hf, mapError_bind, List.length_map]
    rfl

theorem script_move (hf : Moves f) (construct : Construct) (marker : Token.Kind)
    (build : String → String → Expr) (ts : List Token) :
    script construct marker build (ts.map f) =
      (script construct marker build ts).mapError (.move f) := by
  rcases ts with _ | ⟨base, _ | ⟨mark, _ | ⟨opener, _ | ⟨raw, _ | ⟨closer, rest⟩⟩⟩⟩⟩
  iterate 5 rfl
  simp only [List.map_cons, script, expect_move hf, hf.kind, hf.text, mapError_bind, mapError_lift]
  split_ifs <;> rfl

theorem product_move (hf : Moves f) (t : Token) (ts : List Token) :
    product (f t) (ts.map f) = (product t ts).mapError (.move f) := by
  induction ts generalizing t with
  | nil => exact factorLeaf_move hf t
  | cons next ts ih =>
    rw [List.map_cons, product, product, ih, mapError_bind, factorLeaf_move hf]
    simp only [mapError_bind]
    rfl

theorem isFactor_move (hf : Moves f) : isFactor ∘ f = isFactor := by
  funext t
  simp only [Function.comp_apply, isFactor, hf.kind]

theorem implicitProduct_move (hf : Moves f) (ts : List Token) :
    implicitProduct (ts.map f) = (implicitProduct ts).mapError (.move f) := by
  cases ts with
  | nil => rfl
  | cons first rest =>
    have hrun : ((first :: rest).map f).takeWhile isFactor =
        ((first :: rest).takeWhile isFactor).map f := by
      rw [List.takeWhile_map, isFactor_move hf]
    rw [List.map_cons] at hrun
    rw [List.map_cons, implicitProduct, implicitProduct, run, run, hrun]
    rcases (first :: rest).takeWhile isFactor with _ | ⟨t, _ | ⟨next, ts⟩⟩
    · rfl
    · rfl
    · have hproduct := product_move hf t (next :: ts)
      simp only [List.map_cons, List.length_map] at hproduct ⊢
      rw [hproduct]
      cases product t (next :: ts) <;> rfl

/-! ## Lists of rules -/

theorem parsed_rest_move (f : Token → Token) (p : Parsed) (ts : List Token) :
    p.rest (ts.map f) = (p.rest ts).map f :=
  (List.map_drop).symm

def Carries (g : Grammar) (f : Token → Token) (ts : List Token) (r : Rule) : Prop :=
  g.outcome r (ts.map f) = (g.outcome r ts).mapError (.move f)

theorem firstOutcome_move {ρ : Type} {rule : ρ → Rule} {ts : List Token}
    (h : ∀ r, Carries g f ts (rule r)) (rs : List ρ) :
    g.firstOutcome rule rs (ts.map f) = (g.firstOutcome rule rs ts).mapError (.move f) := by
  by_cases ht : ts = []
  · rw [ht]
    rfl
  · have hm : ts.map f ≠ [] := by simpa using ht
    induction rs with
    | nil =>
      obtain ⟨t, ts, rfl⟩ := List.exists_cons_of_ne_nil ht
      rfl
    | cons r rs ih =>
      rw [firstOutcome_cons ht, firstOutcome_cons hm, h r, ih]
      rcases g.outcome (rule r) ts with (_ | _) | _ <;> rfl

theorem completeOutcome_move (h : ∀ r, Carries g f ts r) (otherwise : Mismatch)
    (trailing : Option Token) (rules : List Rule) :
    g.completeOutcome (ts.map f) (otherwise.move f) (trailing.map f) rules =
      (g.completeOutcome ts otherwise trailing rules).mapError (.move f) := by
  induction rules generalizing trailing with
  | nil => cases trailing <;> rfl
  | cons r rules ih =>
    rw [completeOutcome_cons, completeOutcome_cons, h r]
    rcases g.outcome r ts with (_ | _) | p
    · exact ih trailing
    · rfl
    · simp only [Except.mapError, parsed_rest_move]
      cases p.rest ts with
      | nil => rfl
      | cons next rest =>
        have htrailing : (trailing.map f).or (some (f next)) =
            (trailing.or (some next)).map f := by cases trailing <;> rfl
        simp only [List.map_cons, htrailing]
        exact ih _

theorem fullOutcome_move (h : ∀ r, Carries g f ts r) :
    g.fullOutcome (ts.map f) = (g.fullOutcome ts).mapError (.move f) := by
  cases ts with
  | nil => rfl
  | cons t ts => exact completeOutcome_move h (.noRuleMatched t) none g.rules

/-! ## Rules that ask others -/

theorem parenthesized_carries (hf : Moves f)
    (ih : ∀ r us, r.size us < (Rule.atom .parenthesized).size ts → Carries g f us r) :
    Carries g f ts (.atom .parenthesized) := by
  rw [Carries, outcome_parenthesized, outcome_parenthesized, List.length_map]
  split_ifs with hl
  · rw [parentheses, balancedScope_move hf, lift_move]
    refine bind_move (fun split => ?_) _
    have hwindow : ((ts.map f).drop 1).take (split.move f).inside.length =
        ((ts.drop 1).take split.inside.length).map f := by
      rw [Split.move, List.length_map, List.map_take, List.map_drop]
    have hinner : g.fullOutcome (((ts.drop 1).take split.inside.length).map f) =
        (g.fullOutcome ((ts.drop 1).take split.inside.length)).mapError (.move f) :=
      fullOutcome_move fun r => ih r _ (size_inside_lt hl split r)
    rw [hwindow, hinner, mapError_bind, Split.move, List.length_map]
    rfl
  · rfl

theorem unaryCommand_carries (hf : Moves f)
    (ih : ∀ r us, r.size us < (Rule.atom .unaryCommand).size ts → Carries g f us r) :
    Carries g f ts (.atom .unaryCommand) := by
  rw [Carries]
  rcases ts with _ | ⟨head, _ | ⟨next, rest⟩⟩
  · rw [List.map_nil, outcome_unaryCommand_nil]
    rfl
  · rw [List.map_cons, List.map_nil, outcome_unaryCommand_singleton,
      outcome_unaryCommand_singleton]
    rfl
  · have hoperand := firstOutcome_move
      (fun a => ih (.atom a) (next :: rest) (size_operand_lt head (next :: rest) a)) g.atoms
    rw [List.map_cons] at hoperand
    rw [List.map_cons, List.map_cons, outcome_unaryCommand, outcome_unaryCommand, unaryOp_move hf,
      mapError_bind, mapError_lift, hf.kind]
    refine congrArg (Except.bind _) (funext fun op => ?_)
    split_ifs with hk
    · rw [braces, ← List.map_cons, balancedScope_move hf, lift_move]
      refine bind_move (fun split => ?_) _
      rw [Split.move, bracedLeaf_move hf, mapError_bind, mapError_lift, List.length_map]
      rfl
    · rw [hoperand, mapError_bind]
      rfl

theorem chain_carries (hf : Moves f)
    (ih : ∀ r us, r.size us < Rule.chain.size ts → Carries g f us r) :
    Carries g f ts .chain := by
  rw [Carries, outcome_chain, outcome_chain, List.length_map]
  split_ifs with hl
  · rw [firstOutcome_move (fun a => ih (.atom a) ts (size_left_lt ts a)), mapError_bind]
    refine congrArg (Except.bind _) (funext fun left => ?_)
    rw [parsed_rest_move]
    rcases left.rest ts with _ | ⟨operator, _ | ⟨next, rest⟩⟩
    · rfl
    · rfl
    · have hright : g.firstOutcome id g.operands ((ts.drop (left.taken + 1)).map f) =
          (g.firstOutcome id g.operands (ts.drop (left.taken + 1))).mapError (.move f) :=
        firstOutcome_move (fun r => ih r _ (size_right_lt hl left r)) _
      simp only [List.map_cons, binaryOp_move hf, mapError_bind, mapError_lift, ← List.map_drop,
        hright]
      rfl
  · rfl

theorem carries (hf : Moves f) (g : Grammar) (r : Rule) (ts : List Token) : Carries g f ts r := by
  induction r, ts using size_induction with
  | step r ts ih =>
    cases r with
    | chain => exact chain_carries hf ih
    | atom a =>
      cases a with
      | parenthesized => exact parenthesized_carries hf ih
      | unaryCommand => exact unaryCommand_carries hf ih
      | bracketBinary =>
        rw [Carries, outcome_bracketBinary, outcome_bracketBinary, bracketBinary_move hf,
          mapError_lift]
      | superscript =>
        rw [Carries, outcome_superscript, outcome_superscript, superscript, superscript,
          script_move hf]
      | subscript =>
        rw [Carries, outcome_subscript, outcome_subscript, subscript, subscript, script_move hf]
      | implicitProduct =>
        rw [Carries, outcome_implicitProduct, outcome_implicitProduct, implicitProduct_move hf,
          mapError_lift]
      | number =>
        rw [Carries, outcome_number, outcome_number, number, number,
          firstLeaf_move (numberLeaf_move hf), mapError_lift]
      | var =>
        rw [Carries, outcome_var, outcome_var, var, var, firstLeaf_move (varLeaf_move hf),
          mapError_lift]

theorem parseComplete_move (hf : Moves f) (g : Grammar) (ts : List Token) :
    g.parseComplete (ts.map f) = (g.parseComplete ts).mapError (.move f) := by
  rw [parseComplete_eq_fullOutcome, parseComplete_eq_fullOutcome]
  exact fullOutcome_move fun r => carries hf g r ts

/-! ## Tokens without places -/

def Failure.unplaced (failure : Failure) : Failure := failure.move Token.unplaced

theorem moves_unplaced : Moves Token.unplaced := fun _ => rfl

/-- Tokens with the same words are read alike. -/
theorem parseComplete_of_map_word (g : Grammar) {ts us : List Token}
    (h : ts.map Token.word = us.map Token.word) :
    (g.parseComplete ts).mapError Failure.unplaced =
      (g.parseComplete us).mapError Failure.unplaced := by
  have hmap : ts.map Token.unplaced = us.map Token.unplaced := by
    have hw := congrArg (List.map Word.token) h
    rwa [List.map_map, List.map_map] at hw
  have hts := parseComplete_move moves_unplaced g ts
  rw [hmap, parseComplete_move moves_unplaced] at hts
  exact hts.symm

end Grammar
end MathMarkup
