import MathMarkup.Proofs.Recognition

/-!
# What a reading depends on

A reading depends on the tokens that it takes and on the words that it knows. Rules look at tokens
that they do not take in the end, and yet without those tokens they read the same. A sentence is
spelt with known words alone, and so it keeps its tree when other words get a meaning.
-/

namespace MathMarkup.Grammar

variable {g : Grammar} {ts : List Token} {p : Parsed}

/-! ## The tokens that are taken -/

/-- Some tokens at the front are read, at least one, and alone they are read as the same tree. -/
def ReadsAlone (read : List Token → Outcome) (ts : List Token) (p : Parsed) : Prop :=
  ∃ used rest, ts = used ++ rest ∧ used ≠ [] ∧ p.taken = used.length ∧ read used = .ok p

theorem readsAlone_append {read : List Token → Outcome} {used rest : List Token}
    (ht : p.taken = used.length) (hne : used ≠ []) (hs : ts = used ++ rest)
    (h : ∀ rest, read (used ++ rest) = .ok p) : ReadsAlone read ts p := by
  have halone := h []
  rw [List.append_nil] at halone
  exact ⟨used, rest, hs, hne, ht, halone⟩

theorem firstLeaf_alone {leaf : Token → Except Mismatch Expr} (h : firstLeaf leaf ts = .ok p) :
    ReadsAlone (fun us => liftM (firstLeaf leaf us)) ts p := by
  obtain ⟨t, rest, rfl, hl, ht⟩ := firstLeaf_eq_ok h
  refine ⟨[t], rest, rfl, List.cons_ne_nil t [], ht, lift_eq_ok.mpr ?_⟩
  rw [firstLeaf_cons hl, ← ht]

theorem script_alone {construct : Construct} {marker : Token.Kind} {build : String → String → Expr}
    (h : script construct marker build ts = .ok p) :
    ReadsAlone (script construct marker build) ts p := by
  obtain ⟨base, mark, xs, a, rest, rfl, hb, hm, hx, rfl⟩ := script_eq_ok h
  have ht : 5 = (base :: mark :: xs).length := by simp [hx.length]
  exact readsAlone_append ht (List.cons_ne_nil _ _) rfl fun _ => script_of_braced hb hm hx

theorem bracketBinary_alone (h : g.bracketBinary ts = .ok p) :
    ReadsAlone (fun us => liftM (g.bracketBinary us)) ts p := by
  obtain ⟨o, op, xs, a, ys, b, rest, rfl, ho, hx, hy, rfl⟩ := bracketBinary_eq_ok h
  have ht : 7 = (o :: (xs ++ ys)).length := by simp [hx.length, hy.length]
  exact readsAlone_append ht (List.cons_ne_nil _ _) rfl fun rest =>
    lift_eq_ok.mpr (bracketBinary_of_braced ho hx hy rest)

theorem implicitProduct_alone (h : implicitProduct ts = .ok p) :
    ReadsAlone (fun us => liftM (implicitProduct us)) ts p := by
  obtain ⟨hp, ht⟩ := Product.of_implicitProduct h
  -- A product takes all factors that there are, so that not any tokens may stand behind it.
  have halone : implicitProduct (ts.takeWhile isFactor ++ []) = _ :=
    hp.implicitProduct_append (by simp)
  rw [List.append_nil, ← ht] at halone
  refine ⟨ts.takeWhile isFactor, ts.dropWhile isFactor, List.takeWhile_append_dropWhile.symm, ?_,
    ht, lift_eq_ok.mpr halone⟩
  obtain ⟨t, next, rest, hs, _⟩ := hp.head
  rw [hs]
  exact List.cons_ne_nil t _

theorem parenthesized_alone (h : g.outcome (.atom .parenthesized) ts = .ok p) :
    ReadsAlone (g.outcome (.atom .parenthesized)) ts p := by
  obtain ⟨opening, inside, closing, rest, e, rfl, ho, hc, hi, rfl⟩ := exists_of_parenthesized h
  have ht : inside.length + 2 = (opening :: (inside ++ [closing])).length := by simp
  exact readsAlone_append ht (List.cons_ne_nil _ _) rfl (outcome_group ho hc hi)

theorem unaryCommand_alone (h : g.outcome (.atom .unaryCommand) ts = .ok p) :
    ReadsAlone (g.outcome (.atom .unaryCommand)) ts p := by
  obtain ⟨u, op, hu, h⟩ := exists_of_unaryCommand h
  rcases h with ⟨xs, a, rest, rfl, hx, rfl⟩ | ⟨next, more, operand, rfl, ha, rfl⟩
  · have ht : 4 = (u :: xs).length := by simp [hx.length]
    exact readsAlone_append ht (List.cons_ne_nil _ _) rfl (outcome_unaryBraced hu hx)
  · obtain ⟨a, hm, ha⟩ := exists_of_firstOutcome ha
    obtain ⟨used, rest, hrest, hn, hd⟩ := outcome_reads (offers_of_mem_atoms hm) ha
    -- The tokens of the operand are a sentence, and a sentence is read whole.
    have hwhole := recognizes_atom_whole (recognizes_of_derives hd)
    obtain ⟨t, tail, rfl, hk⟩ := hd.head
    refine ⟨u :: t :: tail, rest, congrArg (u :: ·) hrest, List.cons_ne_nil _ _, by simp [hn], ?_⟩
    rw [outcome_unaryAtom hu hk, hwhole, hn]
    rfl

theorem chain_alone (h : g.outcome .chain ts = .ok p) : ReadsAlone (g.outcome .chain) ts p := by
  obtain ⟨used, rest, rfl, ht, hd⟩ := outcome_reads offers_chain h
  have halone : g.outcome .chain used = .ok ⟨p.expr, used.length⟩ := recognizes_of_derives hd
  exact ⟨used, rest, rfl, hd.ne_nil, ht, by rw [halone, ← ht]⟩

theorem outcome_alone {r : Rule} (h : g.outcome r ts = .ok p) : ReadsAlone (g.outcome r) ts p := by
  cases r with
  | chain => exact chain_alone h
  | atom a =>
    cases a with
    | parenthesized => exact parenthesized_alone h
    | unaryCommand => exact unaryCommand_alone h
    | bracketBinary =>
      rw [funext (outcome_bracketBinary g)] at h ⊢
      exact bracketBinary_alone (lift_eq_ok.mp h)
    | superscript =>
      rw [funext (outcome_superscript g)] at h ⊢
      exact script_alone h
    | subscript =>
      rw [funext (outcome_subscript g)] at h ⊢
      exact script_alone h
    | implicitProduct =>
      rw [funext (outcome_implicitProduct g)] at h ⊢
      exact implicitProduct_alone (lift_eq_ok.mp h)
    | number =>
      rw [funext (outcome_number g)] at h ⊢
      exact firstLeaf_alone (lift_eq_ok.mp h)
    | var =>
      rw [funext (outcome_var g)] at h ⊢
      exact firstLeaf_alone (lift_eq_ok.mp h)

/-- What a rule reads of some tokens it reads of the tokens that it took alone, which are at least
one. What the rules for a whole expression read in this way is an expression. -/
theorem reading_of_taken (g : Grammar) (ts : List Token) :
    (∀ r p, g.apply r ts = .ok p →
      ∃ used, used ≠ [] ∧ ts = used ++ p.rest ts ∧ g.apply r used = .ok p ∧ p.rest used = []) ∧
    ∀ p, g.parse ts = .ok p →
      ∃ used, used ≠ [] ∧ ts = used ++ p.rest ts ∧ g.parseComplete used = .ok p.expr := by
  constructor
  · intro r p h
    rw [apply_eq_outcome] at h
    obtain ⟨used, rest, rfl, hne, ht, halone⟩ := outcome_alone h
    refine ⟨used, hne, ?_, (apply_eq_outcome r used).trans halone, ?_⟩
    · rw [Parsed.rest, ht, List.drop_left]
    · rw [Parsed.rest, ht, List.drop_length]
  · intro p h
    rw [parse_eq_firstOutcome] at h
    obtain ⟨r, hr, h⟩ := exists_of_firstOutcome h
    obtain ⟨used, rest, rfl, ht, hd⟩ := outcome_reads (offers_of_mem_rules hr) h
    refine ⟨used, hd.ne_nil, ?_, parseComplete_eq_ok.mpr hd.expression⟩
    rw [Parsed.rest, ht, List.drop_left]

theorem reading_of_taken_chain :
    let g : Grammar := ⟨Command.meaning Command.standard, false⟩
    let used : List Token := [⟨.var, "x", 0, 1⟩, ⟨.command, "+", 1, 2⟩, ⟨.var, "y", 2, 3⟩,
      ⟨.superscript, "^", 3, 4⟩, ⟨.argStart, "\x7b", 4, 5⟩, ⟨.arg, "2", 5, 6⟩,
      ⟨.argEnd, "\x7d", 6, 7⟩]
    let ts := used ++ [⟨.command, "+", 7, 8⟩, ⟨.parenLeft, "(", 8, 9⟩]
    let p : Parsed := ⟨.binary .add (.var "x") (.binary .pow (.var "y") (.arg "2")), 7⟩
    g.apply .chain ts = .ok p ∧ g.apply .chain used = .ok p ∧ g.parse ts = .ok p ∧
      g.parseComplete used = .ok p.expr := by
  intro g used ts p
  have hchain : g.apply .chain ts = .ok p :=
    (apply_eq_outcome _ _).trans (by with_unfolding_all rfl)
  have hparse : g.parse ts = .ok p :=
    (parse_eq_firstOutcome _).trans (by with_unfolding_all rfl)
  have huse : ∀ us, ts = us ++ p.rest ts → us = used := fun us hs =>
    List.append_cancel_right hs.symm
  refine ⟨hchain, ?_, hparse, ?_⟩
  · obtain ⟨us, _, hs, halone, _⟩ := (reading_of_taken g ts).1 .chain p hchain
    rwa [huse us hs] at halone
  · obtain ⟨us, _, hs, halone⟩ := (reading_of_taken g ts).2 p hparse
    rwa [huse us hs] at halone

/-! ## The words that are known -/

variable {meaning meaning' : String → Option Command} {implicitProducts : Bool}

theorem IsBinary.extend {o : Token} {op : BinaryOp}
    (hm : ∀ name command, meaning name = some command → meaning' name = some command)
    (h : IsBinary ⟨meaning, implicitProducts⟩ o op) : IsBinary ⟨meaning', implicitProducts⟩ o op :=
  ⟨h.1, hm _ _ h.2⟩

theorem IsUnary.extend {u : Token} {op : UnaryOp}
    (hm : ∀ name command, meaning name = some command → meaning' name = some command)
    (h : IsUnary ⟨meaning, implicitProducts⟩ u op) : IsUnary ⟨meaning', implicitProducts⟩ u op :=
  ⟨h.1, hm _ _ h.2⟩

theorem Derives.extend {s : Symbol} {e : Expr}
    (hm : ∀ name command, meaning name = some command → meaning' name = some command)
    (h : Derives ⟨meaning, implicitProducts⟩ s ts e) :
    Derives ⟨meaning', implicitProducts⟩ s ts e := by
  induction h with
  | group ho hc _ ih => exact .group ho hc ih
  | bracketBinary ho hx hy => exact .bracketBinary (ho.extend hm) hx hy
  | superscript hv hk hx => exact .superscript hv hk hx
  | subscript hv hk hx => exact .subscript hv hk hx
  | unaryBraced hu hx => exact .unaryBraced (hu.extend hm) hx
  | unaryAtom hu _ ih => exact .unaryAtom (hu.extend hm) ih
  | product hg hp => exact .product hg hp
  | factor hf => exact .factor hf
  | chainOn _ ho _ ihl ihr => exact .chainOn ihl (ho.extend hm) ihr
  | chainEnd _ ho _ ihl ihr => exact .chainEnd ihl (ho.extend hm) ihr
  | ofChain _ ih => exact .ofChain ih
  | ofAtom _ ih => exact .ofAtom ih

/-- What is accepted keeps its tree when words without a meaning are given one. -/
theorem parseComplete_of_extends
    (hm : ∀ name command, meaning name = some command → meaning' name = some command)
    {e : Expr} (h : parseComplete ⟨meaning, implicitProducts⟩ ts = .ok e) :
    parseComplete ⟨meaning', implicitProducts⟩ ts = .ok e :=
  parseComplete_eq_ok.mpr ((parseComplete_eq_ok.mp h).extend hm)

theorem parseComplete_of_extends_sum :
    let ts : List Token := [⟨.var, "x", 0, 1⟩, ⟨.superscript, "^", 1, 2⟩,
      ⟨.argStart, "\x7b", 2, 3⟩, ⟨.arg, "2", 3, 4⟩, ⟨.argEnd, "\x7d", 4, 5⟩,
      ⟨.command, "+", 5, 6⟩, ⟨.var, "y", 6, 7⟩]
    let e : Expr := .binary .add (.binary .pow (.var "x") (.arg "2")) (.var "y")
    parseComplete ⟨Command.meaning [("+", .binary .add)], false⟩ ts = .ok e ∧
      parseComplete ⟨Command.meaning Command.standard, false⟩ ts = .ok e := by
  intro ts e
  have hd : Derives ⟨Command.meaning [("+", .binary .add)], false⟩ .chain ts e :=
    .chainEnd (.superscript rfl rfl (.mk rfl rfl rfl)) ⟨.inl rfl, by decide⟩ (.factor (.var rfl))
  have h := parseComplete_eq_ok.mpr hd.expression
  refine ⟨h, parseComplete_of_extends (fun name command hn => ?_) h⟩
  rw [← List.nil_append [_], Command.meaning_concat] at hn
  split_ifs at hn with hname
  · cases hn
    rw [hname]
    decide
  · cases hn

end MathMarkup.Grammar
