import MathMarkup.Proofs.Reading
import MathMarkup.Proofs.Selection

/-!
# What is read is a sentence

Each rule reads tokens from which its symbol derives the tree that it yields. A rule asks only about
fewer tokens, or a chain about an atom, and so the proof goes by the size of the question.
-/

namespace MathMarkup.Grammar

variable {g : Grammar} {ts : List Token}

def Rule.symbol : Rule → Symbol
  | atom _ => .atom
  | chain => .chain

def Offers (g : Grammar) (r : Rule) : Prop :=
  r = .atom .implicitProduct → g.implicitProducts = true

def Reads (g : Grammar) (s : Symbol) (ts : List Token) (p : Parsed) : Prop :=
  ∃ used rest, ts = used ++ rest ∧ p.taken = used.length ∧ g.Derives s used p.expr

theorem Derives.expression {s : Symbol} {e : Expr} (h : g.Derives s ts e) :
    g.Derives .expression ts e := by
  cases s with
  | atom => exact .ofAtom h
  | chain => exact .ofChain h
  | expression => exact h

theorem Reads.expression {s : Symbol} {p : Parsed} (h : g.Reads s ts p) (hrest : p.rest ts = []) :
    g.Derives .expression ts p.expr := by
  obtain ⟨used, rest, rfl, ht, hd⟩ := h
  rw [Parsed.rest, ht, List.drop_left] at hrest
  rw [hrest, List.append_nil]
  exact hd.expression

theorem offers_of_mem_atoms {a : Atom} (h : a ∈ g.atoms) : g.Offers (.atom a) := by
  intro ha
  cases ha
  by_contra hn
  simp [atoms, hn] at h

theorem offers_chain : g.Offers .chain := fun h => by cases h

theorem offers_of_mem_operands {r : Rule} (h : r ∈ g.operands) : g.Offers r := by
  rcases List.mem_cons.mp h with rfl | h
  · exact offers_chain
  · obtain ⟨a, ha, rfl⟩ := List.mem_map.mp h
    exact offers_of_mem_atoms ha

theorem offers_of_mem_rules {r : Rule} (h : r ∈ g.rules) : g.Offers r := by
  rintro rfl
  by_contra hn
  simp [rules, hn] at h

def ReadsBelow (g : Grammar) (size : Nat) : Prop :=
  ∀ r ts p, Rule.size ts r < size → g.Offers r → g.outcome r ts = .ok p → g.Reads r.symbol ts p

theorem exists_of_parenthesized {p : Parsed} (h : g.outcome (.atom .parenthesized) ts = .ok p) :
    ∃ opening inside closing rest e, ts = opening :: (inside ++ [closing]) ++ rest ∧
      opening.kind = .parenLeft ∧ closing.kind = .parenRight ∧ g.fullOutcome inside = .ok e ∧
      p = ⟨.group e, inside.length + 2⟩ := by
  rw [outcome_parenthesized] at h
  split_ifs at h
  obtain ⟨split, hs, h⟩ := bind_eq_ok.mp h
  obtain ⟨inner, hi, ⟨⟩⟩ := bind_eq_ok.mp h
  obtain ⟨opening, closing, ho, hc, rfl⟩ := balancedScope_append (lift_eq_ok.mp hs)
  have hw : ((opening :: (split.inside ++ closing :: split.remainder)).drop 1).take
      split.inside.length = split.inside := by simp
  rw [hw] at hi
  exact ⟨opening, split.inside, closing, split.remainder, inner, by simp, ho, hc, hi, rfl⟩

theorem parenthesized_reads {p : Parsed} (ih : g.ReadsBelow ((Rule.atom .parenthesized).size ts))
    (h : g.outcome (.atom .parenthesized) ts = .ok p) : g.Reads .atom ts p := by
  obtain ⟨opening, inside, closing, rest, e, rfl, ho, hc, hi, rfl⟩ := exists_of_parenthesized h
  obtain ⟨r, hr, q, hq, hrest, rfl⟩ := exists_of_fullOutcome hi
  have hlt : r.size inside < (Rule.atom .parenthesized).size
      (opening :: (inside ++ [closing]) ++ rest) := by
    refine Nat.lt_of_le_of_lt (r.size_le inside) ?_
    simp only [Rule.size, List.length_append, List.length_cons, List.length_nil]
    omega
  have hd := (ih r inside q hlt (offers_of_mem_rules hr) hq).expression hrest
  exact ⟨opening :: (inside ++ [closing]), rest, rfl, by simp, .group ho hc hd⟩

theorem bracketBinary_reads {p : Parsed} (h : g.outcome (.atom .bracketBinary) ts = .ok p) :
    g.Reads .atom ts p := by
  rw [outcome_bracketBinary, lift_eq_ok] at h
  obtain ⟨o, op, xs, a, ys, b, rest, rfl, ho, hx, hy, rfl⟩ := bracketBinary_eq_ok h
  exact ⟨o :: (xs ++ ys), rest, rfl, by simp [hx.length, hy.length], .bracketBinary ho hx hy⟩

theorem superscript_reads {p : Parsed} (h : g.outcome (.atom .superscript) ts = .ok p) :
    g.Reads .atom ts p := by
  rw [outcome_superscript] at h
  obtain ⟨base, mark, xs, a, rest, rfl, hb, hm, hx, rfl⟩ := script_eq_ok h
  exact ⟨base :: mark :: xs, rest, rfl, by simp [hx.length], .superscript hb hm hx⟩

theorem subscript_reads {p : Parsed} (h : g.outcome (.atom .subscript) ts = .ok p) :
    g.Reads .atom ts p := by
  rw [outcome_subscript] at h
  obtain ⟨base, mark, xs, a, rest, rfl, hb, hm, hx, rfl⟩ := script_eq_ok h
  exact ⟨base :: mark :: xs, rest, rfl, by simp [hx.length], .subscript hb hm hx⟩

theorem exists_of_unaryCommand {p : Parsed} (h : g.outcome (.atom .unaryCommand) ts = .ok p) :
    ∃ u op, g.IsUnary u op ∧
      ((∃ xs a rest, ts = u :: xs ++ rest ∧ Braced xs a ∧ p = ⟨.unary op (.arg a), 4⟩) ∨
        ∃ next more operand, ts = u :: next :: more ∧
          g.firstOutcome .atom g.atoms (next :: more) = .ok operand ∧
          p = ⟨.unary op operand.expr, operand.taken + 1⟩) := by
  rcases ts with _ | ⟨head, _ | ⟨next, more⟩⟩
  · rw [outcome_unaryCommand_nil] at h
    cases h
  · rw [outcome_unaryCommand_singleton] at h
    cases h
  · rw [outcome_unaryCommand] at h
    obtain ⟨op, ho, h⟩ := bind_eq_ok.mp h
    refine ⟨head, op, unaryOp_eq_ok.mp (lift_eq_ok.mp ho), ?_⟩
    split_ifs at h
    · obtain ⟨split, hs, h⟩ := bind_eq_ok.mp h
      obtain ⟨operand, he, ⟨⟩⟩ := bind_eq_ok.mp h
      obtain ⟨xs, a, hx, rfl, hrest, hl⟩ := Braced.of_split (lift_eq_ok.mp hs) (lift_eq_ok.mp he)
      exact .inl ⟨xs, a, split.remainder, by simp [hrest], hx, by rw [hl]⟩
    · obtain ⟨operand, ha, ⟨⟩⟩ := bind_eq_ok.mp h
      exact .inr ⟨next, more, operand, rfl, ha, rfl⟩

theorem unaryCommand_reads {p : Parsed} (ih : g.ReadsBelow ((Rule.atom .unaryCommand).size ts))
    (h : g.outcome (.atom .unaryCommand) ts = .ok p) : g.Reads .atom ts p := by
  obtain ⟨u, op, hu, h⟩ := exists_of_unaryCommand h
  rcases h with ⟨xs, a, rest, rfl, hx, rfl⟩ | ⟨next, more, operand, rfl, ha, rfl⟩
  · exact ⟨u :: xs, rest, rfl, by simp [hx.length], .unaryBraced hu hx⟩
  · obtain ⟨a, hm, ha⟩ := exists_of_firstOutcome ha
    obtain ⟨used, rest, hrest, hn, hd⟩ :=
      ih (.atom a) _ operand (size_operand_lt u (next :: more) a) (offers_of_mem_atoms hm) ha
    exact ⟨u :: used, rest, congrArg (u :: ·) hrest, by simp [hn], .unaryAtom hu hd⟩

theorem implicitProduct_reads {p : Parsed} (hg : g.implicitProducts = true)
    (h : g.outcome (.atom .implicitProduct) ts = .ok p) : g.Reads .atom ts p := by
  rw [outcome_implicitProduct, lift_eq_ok] at h
  obtain ⟨hp, ht⟩ := Product.of_implicitProduct h
  exact ⟨_, ts.dropWhile isFactor, (List.takeWhile_append_dropWhile).symm, ht, .product hg hp⟩

theorem number_reads {p : Parsed} (h : g.outcome (.atom .number) ts = .ok p) :
    g.Reads .atom ts p := by
  rw [outcome_number, lift_eq_ok] at h
  obtain ⟨t, rest, rfl, hl, ht⟩ := firstLeaf_eq_ok h
  obtain ⟨hk, x, hx, he⟩ := numberLeaf_eq_ok.mp hl
  exact ⟨[t], rest, rfl, ht, he ▸ .factor (.number hk hx)⟩

theorem var_reads {p : Parsed} (h : g.outcome (.atom .var) ts = .ok p) : g.Reads .atom ts p := by
  rw [outcome_var, lift_eq_ok] at h
  obtain ⟨t, rest, rfl, hl, ht⟩ := firstLeaf_eq_ok h
  obtain ⟨hk, he⟩ := varLeaf_eq_ok.mp hl
  exact ⟨[t], rest, rfl, ht, he ▸ .factor (.var hk)⟩

theorem exists_of_chain {p : Parsed} (h : g.outcome .chain ts = .ok p) :
    ∃ left o op next more right, g.firstOutcome .atom g.atoms ts = .ok left ∧
      left.rest ts = o :: next :: more ∧ g.IsBinary o op ∧
      g.firstOutcome id g.operands (next :: more) = .ok right ∧
      p = ⟨.binary op left.expr right.expr, left.taken + 1 + right.taken⟩ := by
  rw [outcome_chain] at h
  split_ifs at h
  obtain ⟨left, hleft, h⟩ := bind_eq_ok.mp h
  split at h
  · rename_i o next more hrest
    obtain ⟨op, ho, h⟩ := bind_eq_ok.mp h
    obtain ⟨right, hright, ⟨⟩⟩ := bind_eq_ok.mp h
    have hafter : ts.drop (left.taken + 1) = next :: more := by
      rw [← List.drop_drop, show ts.drop left.taken = o :: next :: more from hrest]
      rfl
    rw [hafter] at hright
    exact ⟨left, o, op, next, more, right, hleft, hrest, binaryOp_eq_ok.mp (lift_eq_ok.mp ho),
      hright, rfl⟩
  · cases h

theorem chain_reads {p : Parsed} (ih : g.ReadsBelow (Rule.chain.size ts))
    (h : g.outcome .chain ts = .ok p) : g.Reads .chain ts p := by
  obtain ⟨left, o, op, next, more, right, hleft, hrest, hb, hright, rfl⟩ := exists_of_chain h
  obtain ⟨a, ha, hleft⟩ := exists_of_firstOutcome hleft
  obtain ⟨r, hr, hright⟩ := exists_of_firstOutcome hright
  obtain ⟨used, rest, rfl, hn, hx⟩ :=
    ih (.atom a) ts left (size_left_lt ts a) (offers_of_mem_atoms ha) hleft
  rw [Parsed.rest, hn, List.drop_left] at hrest
  subst hrest
  have hlt : r.size (next :: more) < Rule.chain.size (used ++ o :: next :: more) := by
    refine Nat.lt_of_le_of_lt (r.size_le _) ?_
    simp only [Rule.size, List.length_append, List.length_cons]
    omega
  obtain ⟨used', rest', hu, hn', hy⟩ :=
    ih r (next :: more) right hlt (offers_of_mem_operands hr) hright
  refine ⟨used ++ o :: used', rest', by simp [hu], by simp [hn, hn']; omega, ?_⟩
  cases r with
  | atom b => exact .chainEnd hx hb hy
  | chain => exact .chainOn hx hb hy

theorem readsBelow (g : Grammar) (size : Nat) : g.ReadsBelow size := by
  induction size using Nat.strongRecOn with
  | ind size below =>
    intro r ts p hr ho h
    have ih := below _ hr
    cases r with
    | chain => exact chain_reads ih h
    | atom a =>
      cases a with
      | parenthesized => exact parenthesized_reads ih h
      | bracketBinary => exact bracketBinary_reads h
      | superscript => exact superscript_reads h
      | subscript => exact subscript_reads h
      | unaryCommand => exact unaryCommand_reads ih h
      | implicitProduct => exact implicitProduct_reads (ho rfl) h
      | number => exact number_reads h
      | var => exact var_reads h

/-- A rule of the grammar reads what its symbol derives. -/
theorem outcome_reads {r : Rule} {p : Parsed} (hr : g.Offers r) (h : g.outcome r ts = .ok p) :
    g.Reads r.symbol ts p :=
  g.readsBelow _ r ts p (Nat.lt_succ_self _) hr h

theorem taken_le {r : Rule} {p : Parsed} (h : g.outcome r ts = .ok p) : p.taken ≤ ts.length := by
  by_cases hr : g.Offers r
  · obtain ⟨used, rest, rfl, ht, _⟩ := outcome_reads hr h
    simp [ht]
  · obtain ⟨rfl, _⟩ := Classical.not_imp.mp hr
    rw [outcome_implicitProduct, lift_eq_ok] at h
    rw [(Product.of_implicitProduct h).2]
    exact (List.takeWhile_sublist _).length_le

theorem derives_of_fullOutcome {e : Expr} (h : g.fullOutcome ts = .ok e) :
    g.Derives .expression ts e := by
  obtain ⟨r, hr, p, hp, hrest, rfl⟩ := exists_of_fullOutcome h
  exact (outcome_reads (offers_of_mem_rules hr) hp).expression hrest

end MathMarkup.Grammar
