import Mathlib.Data.List.Chain
import MathMarkup.Proofs.Juxtaposition

/-!
# Factors that stand apart

Implicit products are read from neighbouring factors and from nothing else. Where no two factors are
neighbours, the rule for products refuses every part of the tokens, and a list of rules with it
yields what the list without it yields, down to the failure. A sentence without implicit products
has no neighbouring factors, and so it keeps its tree when they are switched on.
-/

namespace MathMarkup.Grammar

def Apart (ts : List Token) : Prop := ts.IsChain fun t u => ¬ (isFactor t ∧ isFactor u)

instance : DecidablePred Apart := fun ts =>
  inferInstanceAs (Decidable (ts.IsChain fun t u => ¬ (isFactor t ∧ isFactor u)))

variable {t o : Token} {ts xs ys : List Token}

/-! ## Parts and sentences -/

theorem Apart.takeWhile_length_lt (h : Apart ts) : (ts.takeWhile isFactor).length < 2 := by
  rcases ts with _ | ⟨t, _ | ⟨u, rest⟩⟩
  · simp
  · have hle := (List.takeWhile_sublist isFactor (l := [t])).length_le
    simp only [List.length_singleton] at hle
    omega
  · have hpair : ¬ (isFactor t ∧ isFactor u) := (List.isChain_cons_cons.mp h).1
    by_cases ht : isFactor t
    · have hu : ¬ isFactor u := fun hu => hpair ⟨ht, hu⟩
      rw [List.takeWhile_cons_of_pos ht, List.takeWhile_cons_of_neg hu]
      simp
    · rw [List.takeWhile_cons_of_neg ht]
      simp

theorem Apart.refuses_implicitProduct (g : Grammar) (h : Apart ts) :
    g.Refuses (.atom .implicitProduct) ts :=
  Grammar.refuses_implicitProduct h.takeWhile_length_lt

theorem apart_cons (ht : ¬ isFactor t) (h : Apart ts) : Apart (t :: ts) :=
  List.isChain_cons.mpr ⟨fun _ _ hboth => ht hboth.1, h⟩

theorem apart_append_cons (ho : ¬ isFactor o) (hx : Apart xs) (hy : Apart ys) :
    Apart (xs ++ o :: ys) := by
  refine List.IsChain.append hx (apart_cons ho hy) ?_
  intro t _ u hu hboth
  cases hu
  exact ho hboth.2

theorem apart_of_not_factor (h : ∀ t ∈ ts, ¬ isFactor t) : Apart ts := by
  induction ts with
  | nil => exact .nil
  | cons t ts ih =>
    exact apart_cons (h t List.mem_cons_self) (ih fun u hu => h u (List.mem_cons_of_mem t hu))

theorem apart_singleton (t : Token) : Apart [t] := .singleton t

theorem apart_script {v mark : Token} (hm : ¬ isFactor mark) (hx : ∀ t ∈ xs, ¬ isFactor t) :
    Apart (v :: mark :: xs) :=
  apart_append_cons hm (apart_singleton v) (apart_of_not_factor hx)

theorem Derives.apart {g : Grammar} {s : Symbol} {e : Expr} (hg : g.implicitProducts = false)
    (h : g.Derives s ts e) : Apart ts := by
  induction h with
  | @group opening closing ts e ho hc _ ih =>
    have hin : ¬ isFactor opening := by simp [isFactor, ho]
    have hout : ¬ isFactor closing := by simp [isFactor, hc]
    exact apart_cons hin (apart_append_cons hout ih .nil)
  | bracketBinary ho hx hy =>
    exact apart_cons ho.not_factor
      (apart_of_not_factor (List.forall_mem_append.mpr ⟨hx.not_factor, hy.not_factor⟩))
  | @superscript v mark xs a _ hm hx => exact apart_script (by simp [isFactor, hm]) hx.not_factor
  | @subscript v mark xs a _ hm hx => exact apart_script (by simp [isFactor, hm]) hx.not_factor
  | unaryBraced hu hx => exact apart_cons hu.not_factor (apart_of_not_factor hx.not_factor)
  | unaryAtom hu _ ih => exact apart_cons hu.not_factor ih
  | product hp _ => exact absurd (hp.symm.trans hg) Bool.noConfusion
  | factor _ => exact apart_singleton _
  | chainOn _ ho _ ihl ihr => exact apart_append_cons ho.not_factor ihl ihr
  | chainEnd _ ho _ ihl ihr => exact apart_append_cons ho.not_factor ihl ihr
  | ofChain _ ih => exact ih
  | ofAtom _ ih => exact ih

/-! ## Rules with and without implicit products -/

variable {meaning : String → Option Command}

def Same (meaning : String → Option Command) (ts : List Token) (r : Rule) : Prop :=
  (Grammar.mk meaning true).outcome r ts = (Grammar.mk meaning false).outcome r ts

theorem firstOutcome_atoms_eq (h : Apart ts) (same : ∀ a : Atom, Same meaning ts (.atom a)) :
    (Grammar.mk meaning true).firstOutcome .atom (Grammar.mk meaning true).atoms ts =
      (Grammar.mk meaning false).firstOutcome .atom (Grammar.mk meaning false).atoms ts := by
  cases ts with
  | nil => rfl
  | cons t ts =>
    let before : List Atom :=
      [.parenthesized, .bracketBinary, .superscript, .subscript, .unaryCommand]
    have hinsert : (Grammar.mk meaning true).firstOutcome .atom
        (before ++ .implicitProduct :: [.number, .var]) (t :: ts) =
          (Grammar.mk meaning true).firstOutcome .atom (before ++ [.number, .var]) (t :: ts) :=
      firstOutcome_insert (List.cons_ne_nil t ts) (h.refuses_implicitProduct _)
    exact hinsert.trans (firstOutcome_congr same)

theorem firstOutcome_operands_eq (h : Apart ts) (same : ∀ r, Same meaning ts r) :
    (Grammar.mk meaning true).firstOutcome id (Grammar.mk meaning true).operands ts =
      (Grammar.mk meaning false).firstOutcome id (Grammar.mk meaning false).operands ts := by
  cases ts with
  | nil => rfl
  | cons t ts =>
    have hatoms := firstOutcome_atoms_eq h fun a => same (.atom a)
    have ht : t :: ts ≠ [] := List.cons_ne_nil t ts
    have hchain : Same meaning (t :: ts) .chain := same .chain
    rw [Same] at hchain
    simp only [operands, firstOutcome_cons ht, firstOutcome_map, id_eq, hchain, hatoms]

def beforeProduct : List Rule :=
  [.atom .parenthesized, .atom .bracketBinary, .chain, .atom .superscript, .atom .subscript,
    .atom .unaryCommand]

theorem firstOutcome_rules_eq (h : Apart ts) (same : ∀ r, Same meaning ts r) :
    (Grammar.mk meaning true).firstOutcome id (Grammar.mk meaning true).rules ts =
      (Grammar.mk meaning false).firstOutcome id (Grammar.mk meaning false).rules ts := by
  cases ts with
  | nil => rfl
  | cons t ts =>
    have hinsert : (Grammar.mk meaning true).firstOutcome id
        (beforeProduct ++ .atom .implicitProduct :: [.atom .number, .atom .var]) (t :: ts) =
          (Grammar.mk meaning true).firstOutcome id
            (beforeProduct ++ [.atom .number, .atom .var]) (t :: ts) :=
      firstOutcome_insert (List.cons_ne_nil t ts) (h.refuses_implicitProduct _)
    exact hinsert.trans (firstOutcome_congr same)

theorem fullOutcome_eq (h : Apart ts) (same : ∀ r, Same meaning ts r) :
    (Grammar.mk meaning true).fullOutcome ts = (Grammar.mk meaning false).fullOutcome ts := by
  cases ts with
  | nil => rfl
  | cons t ts =>
    have hinsert : (Grammar.mk meaning true).completeOutcome (t :: ts) (.noRuleMatched t) none
        (beforeProduct ++ .atom .implicitProduct :: [.atom .number, .atom .var]) =
          (Grammar.mk meaning true).completeOutcome (t :: ts) (.noRuleMatched t) none
            (beforeProduct ++ [.atom .number, .atom .var]) :=
      completeOutcome_insert (h.refuses_implicitProduct _)
    exact hinsert.trans (completeOutcome_congr same)

theorem parenthesized_same
    (ih : ∀ r us, r.size us < (Rule.atom .parenthesized).size ts → Apart us → Same meaning us r)
    (h : Apart ts) : Same meaning ts (.atom .parenthesized) := by
  rw [Same, outcome_parenthesized, outcome_parenthesized]
  split_ifs with hl
  · refine congrArg (Except.bind _) (funext fun split => ?_)
    have hwindow : Apart ((ts.drop 1).take split.inside.length) := (h.drop 1).take _
    rw [fullOutcome_eq hwindow fun r => ih r _ (size_inside_lt hl split r) hwindow]
  · rfl

theorem unaryCommand_same
    (ih : ∀ r us, r.size us < (Rule.atom .unaryCommand).size ts → Apart us → Same meaning us r)
    (h : Apart ts) : Same meaning ts (.atom .unaryCommand) := by
  rw [Same]
  rcases ts with _ | ⟨head, _ | ⟨next, rest⟩⟩
  · rw [outcome_unaryCommand_nil, outcome_unaryCommand_nil]
  · rw [outcome_unaryCommand_singleton, outcome_unaryCommand_singleton]
  · have htail : Apart (next :: rest) := h.tail
    have hatoms := firstOutcome_atoms_eq htail fun a =>
      ih (.atom a) (next :: rest) (size_operand_lt head (next :: rest) a) htail
    rw [outcome_unaryCommand, outcome_unaryCommand, hatoms]
    rfl

theorem chain_same (ih : ∀ r us, r.size us < Rule.chain.size ts → Apart us → Same meaning us r)
    (h : Apart ts) : Same meaning ts .chain := by
  rw [Same, outcome_chain, outcome_chain]
  split_ifs with hl
  · rw [firstOutcome_atoms_eq h fun a => ih (.atom a) ts (size_left_lt ts a) h]
    refine congrArg (Except.bind _) (funext fun left => ?_)
    have hafter : Apart (ts.drop (left.taken + 1)) := h.drop _
    rw [firstOutcome_operands_eq hafter fun r => ih r _ (size_right_lt hl left r) hafter]
    rfl
  · rfl

theorem same_of_apart (h : Apart ts) (r : Rule) : Same meaning ts r := by
  induction r, ts using size_induction with
  | step r ts ih =>
    cases r with
    | chain => exact chain_same ih h
    | atom a =>
      cases a with
      | parenthesized => exact parenthesized_same ih h
      | unaryCommand => exact unaryCommand_same ih h
      | bracketBinary =>
        rw [Same, outcome_bracketBinary, outcome_bracketBinary]
        rfl
      | superscript => rw [Same, outcome_superscript, outcome_superscript]
      | subscript => rw [Same, outcome_subscript, outcome_subscript]
      | implicitProduct => rw [Same, outcome_implicitProduct, outcome_implicitProduct]
      | number => rw [Same, outcome_number, outcome_number]
      | var => rw [Same, outcome_var, outcome_var]

/-- Where no two factors are neighbours, implicit products change neither what is read nor why
nothing is. What is read without them has no neighbouring factors, and so it is read with them as
well. -/
theorem parse_eq_of_apart (meaning : String → Option Command) :
    (∀ ts, Apart ts → parse ⟨meaning, true⟩ ts = parse ⟨meaning, false⟩ ts ∧
      parseComplete ⟨meaning, true⟩ ts = parseComplete ⟨meaning, false⟩ ts) ∧
    ∀ ts e, parseComplete ⟨meaning, false⟩ ts = .ok e →
      Apart ts ∧ parseComplete ⟨meaning, true⟩ ts = .ok e := by
  have hcomplete : ∀ ts, Apart ts →
      parseComplete ⟨meaning, true⟩ ts = parseComplete ⟨meaning, false⟩ ts := by
    intro ts h
    rw [parseComplete_eq_fullOutcome, parseComplete_eq_fullOutcome,
      fullOutcome_eq h (same_of_apart h)]
  refine ⟨fun ts h => ⟨?_, hcomplete ts h⟩, fun ts e he => ?_⟩
  · rw [parse_eq_firstOutcome, parse_eq_firstOutcome,
      firstOutcome_rules_eq h (same_of_apart h)]
  · have hapart : Apart ts := (parseComplete_eq_ok.mp he).apart rfl
    exact ⟨hapart, (hcomplete ts hapart).trans he⟩

theorem parse_eq_of_apart_power :
    let ts : List Token := [⟨.number, "2", 0, 1⟩, ⟨.superscript, "^", 1, 2⟩, ⟨.var, "x", 2, 3⟩,
      ⟨.subscript, "_", 3, 4⟩]
    Apart ts ∧
      parse ⟨Command.meaning Command.standard, true⟩ ts =
        parse ⟨Command.meaning Command.standard, false⟩ ts ∧
      Apart (ts.take 3) ∧
      parseComplete ⟨Command.meaning Command.standard, true⟩ (ts.take 3) =
        .ok (.binary .pow (.number 2) (.var "x")) := by
  intro ts
  have h : Apart ts := by decide
  have hpower : Derives ⟨Command.meaning Command.standard, false⟩ .chain (ts.take 3)
      (.binary .pow (.number 2) (.var "x")) :=
    .chainEnd (.factor (.number rfl (by decide +kernel))) ⟨.inr rfl, by decide⟩ (.factor (.var rfl))
  have he := parseComplete_eq_ok.mpr (.ofChain hpower)
  exact ⟨h, ((parse_eq_of_apart _).1 ts h).1, (parse_eq_of_apart _).2 _ _ he⟩

end MathMarkup.Grammar
