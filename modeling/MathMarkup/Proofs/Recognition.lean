import MathMarkup.Proofs.Memory

/-!
# Recognition

Reading all tokens by the rules in their order yields a tree exactly when the productions of the
grammar do, and then the same one. The rule of an atom that stands before an operator or at the end
reads all of the atom, and every rule before it refuses, so that no earlier success hides the one
that uses all tokens.
-/

namespace MathMarkup.Grammar

variable {g : Grammar} {ts : List Token}

/-! ## Refusals -/

variable {t : Token} {rest : List Token}

theorem refuses_of_lift {r : Rule} {x : Except Mismatch Parsed} (hx : g.outcome r ts = liftM x)
    (h : ∀ p, x ≠ .ok p) : g.Refuses r ts := by
  cases x with
  | ok p => exact absurd rfl (h p)
  | error reason => exact ⟨reason, hx⟩

theorem refuses_parenthesized (h : t.kind ≠ .parenLeft) :
    g.Refuses (.atom .parenthesized) (t :: rest) := by
  unfold Refuses
  rw [outcome_parenthesized]
  split_ifs with hl
  · by_cases hr : t.kind = .parenRight
    · exact ⟨.unbalancedScope t, by simp [parentheses, balancedScope, hr]; rfl⟩
    · exact ⟨.unexpectedToken .parenLeft t, by simp [parentheses, balancedScope, h, hr]; rfl⟩
  · exact ⟨_, rfl⟩

theorem refuses_bracketBinary (h : ∀ op, ¬ g.IsBinary t op) :
    g.Refuses (.atom .bracketBinary) (t :: rest) := by
  apply refuses_of_lift (outcome_bracketBinary g _)
  intro p hp
  obtain ⟨op, ho, _⟩ := bind_eq_ok.mp hp
  exact h op (binaryOp_eq_ok.mp ho)

theorem refuses_superscript (h : ¬ ScriptHead .superscript ts) :
    g.Refuses (.atom .superscript) ts := by
  unfold Refuses
  rw [outcome_superscript]
  exact script_mismatch h

theorem refuses_subscript (h : ¬ ScriptHead .subscript ts) : g.Refuses (.atom .subscript) ts := by
  unfold Refuses
  rw [outcome_subscript]
  exact script_mismatch h

theorem refuses_unaryCommand (h : ∀ op, ¬ g.IsUnary t op) :
    g.Refuses (.atom .unaryCommand) (t :: rest) := by
  cases rest with
  | nil => exact ⟨_, outcome_unaryCommand_singleton g t⟩
  | cons next rest =>
    unfold Refuses
    rw [outcome_unaryCommand]
    cases ho : g.unaryOp t with
    | ok op => exact absurd (unaryOp_eq_ok.mp ho) (h op)
    | error reason => exact ⟨reason, rfl⟩

theorem refuses_implicitProduct (h : (ts.takeWhile isFactor).length < 2) :
    g.Refuses (.atom .implicitProduct) ts := by
  apply refuses_of_lift (outcome_implicitProduct g _)
  intro p hp
  obtain ⟨t, next, more, hrun, _⟩ := (Product.of_implicitProduct hp).1.head
  simp only [hrun, List.length_cons] at h
  omega

theorem refuses_number (h : t.kind ≠ .number) : g.Refuses (.atom .number) (t :: rest) := by
  apply refuses_of_lift (outcome_number g _)
  intro p hp
  obtain ⟨t', rest', ⟨⟩, hl, _⟩ := firstLeaf_eq_ok hp
  exact h (numberLeaf_eq_ok.mp hl).1

theorem not_scriptHead {marker : Token.Kind} (h : t.kind ≠ .var) :
    ¬ ScriptHead marker (t :: rest) := by
  rintro ⟨base, mark, opening, more, ⟨⟩, hb, _⟩
  exact h hb

theorem not_isBinary {op : BinaryOp} (hc : t.kind ≠ .command) (hs : t.kind ≠ .superscript) :
    ¬ g.IsBinary t op := by
  rintro ⟨hk | hk, _⟩
  · exact hc hk
  · exact hs hk

/-! ## A sentence is read whole -/

/-- What may stand behind an atom in a sentence: nothing, or an operator and what is not a brace. -/
def Follows (rest : List Token) : Prop :=
  rest = [] ∨ ∃ o next more, rest = o :: next :: more ∧
    (o.kind = .command ∨ o.kind = .superscript) ∧ next.kind ≠ .argStart

theorem Follows.head {rest : List Token} (h : Follows rest) :
    ∀ t ∈ rest.head?, ¬ isFactor t := by
  rcases h with rfl | ⟨o, next, more, rfl, hk, _⟩
  · simp
  · intro t ht
    cases ht
    rcases hk with hk | hk <;> simp [isFactor, hk]

theorem Derives.follows {s : Symbol} {o : Token} {op : BinaryOp} {e : Expr}
    (ho : g.IsBinary o op) (h : g.Derives s ts e) : Follows (o :: ts) := by
  obtain ⟨t, rest, rfl, hk⟩ := h.head
  exact .inr ⟨o, t, rest, rfl, ho.1, hk⟩

theorem firstOutcome_atoms (before : List Atom) {after : List Atom} {a : Atom} {p : Parsed}
    (ht : ts ≠ []) (hl : g.atoms = before ++ a :: after)
    (hb : ∀ b ∈ before, g.Refuses (.atom b) ts) (ha : g.outcome (.atom a) ts = .ok p) :
    g.firstOutcome .atom g.atoms ts = .ok p := by
  rw [hl, firstOutcome_append ht hb, firstOutcome_of_ok ht ha]

theorem refuses_chain {p : Parsed} (h : g.firstOutcome .atom g.atoms ts = .ok p)
    (hrest : p.rest ts = []) : g.Refuses .chain ts := by
  unfold Refuses
  rw [outcome_chain]
  split_ifs with hl
  · refine ⟨.insufficientTokens .chain 0 2, ?_⟩
    simp only [h, bind, Except.bind, hrest, List.length_nil]
  · exact ⟨_, rfl⟩

theorem passes_of_firstOutcome {left : Parsed} (h : g.firstOutcome .atom g.atoms ts = .ok left)
    (hrest : left.rest ts ≠ []) :
    g.Passes (.atom .parenthesized) ts ∧ g.Passes (.atom .bracketBinary) ts := by
  have ht : ts ≠ [] := by
    rintro rfl
    cases h
  obtain ⟨t, rest, rfl⟩ := List.exists_cons_of_ne_nil ht
  have hl : g.atoms = .parenthesized :: .bracketBinary :: g.atoms.drop 2 := rfl
  rw [hl, firstOutcome_cons ht] at h
  by_cases hk : t.kind = .parenLeft
  · have hb : g.Refuses (.atom .bracketBinary) (t :: rest) :=
      refuses_bracketBinary fun _ => not_isBinary (by simp [hk]) (by simp [hk])
    refine ⟨?_, .inl hb⟩
    split at h
    · rename_i reason hp
      exact .inl ⟨reason, hp⟩
    · exact .inr ⟨left, h, hrest⟩
  · have hp : g.Refuses (.atom .parenthesized) (t :: rest) := refuses_parenthesized hk
    refine ⟨.inl hp, ?_⟩
    obtain ⟨reason, hp⟩ := hp
    rw [hp] at h
    simp only [firstOutcome_cons ht] at h
    split at h
    · rename_i reason hb
      exact .inl ⟨reason, hb⟩
    · exact .inr ⟨left, h, hrest⟩

theorem rules_eq (g : Grammar) :
    g.rules = [Rule.atom .parenthesized, .atom .bracketBinary] ++
      Rule.chain :: (g.atoms.drop 2).map .atom := by
  cases hg : g.implicitProducts <;> simp [rules, atoms, hg]

theorem fullOutcome_of_chain {p : Parsed} (h : g.outcome .chain ts = .ok p)
    (hrest : p.rest ts = []) : g.fullOutcome ts = .ok p.expr := by
  obtain ⟨left, o, op, next, more, right, hleft, hl, _⟩ := exists_of_chain h
  obtain ⟨hp, hb⟩ := passes_of_firstOutcome hleft (hl ▸ List.cons_ne_nil o (next :: more))
  cases ts with
  | nil => cases hleft
  | cons t rest =>
    rw [fullOutcome_cons, rules_eq]
    have hbefore : ∀ b ∈ [Rule.atom .parenthesized, .atom .bracketBinary],
        g.Passes b (t :: rest) := by
      simp [hp, hb]
    obtain ⟨trailing, ht⟩ := completeOutcome_append (.noRuleMatched t) none
      (.chain :: (g.atoms.drop 2).map .atom) hbefore
    rw [ht, completeOutcome_of_ok h hrest]

theorem firstOutcome_rules (ht : ts ≠ []) (h : g.Refuses .chain ts) :
    g.firstOutcome id g.rules ts = g.firstOutcome .atom g.atoms ts := by
  have hl : [Rule.atom .parenthesized, .atom .bracketBinary] ++ (g.atoms.drop 2).map Rule.atom =
      g.atoms.map .atom := rfl
  rw [rules_eq, firstOutcome_insert ht h, hl, firstOutcome_map]
  rfl

theorem fullOutcome_of_atom {p : Parsed} (h : g.firstOutcome .atom g.atoms ts = .ok p)
    (hrest : p.rest ts = []) : g.fullOutcome ts = .ok p.expr := by
  cases ts with
  | nil => cases h
  | cons t rest =>
    have hfirst : g.firstOutcome id g.rules (t :: rest) = .ok p :=
      (firstOutcome_rules (List.cons_ne_nil t rest) (refuses_chain h hrest)).trans h
    rw [fullOutcome_cons]
    exact completeOutcome_of_firstOutcome hfirst hrest

/-! Each production in turn. What stands behind an atom neither lengthens it nor gives it to a rule
that is tried before its own. -/

def Recognizes (g : Grammar) : Symbol → List Token → Expr → Prop
  | .atom, ts, e => ∀ rest, Follows rest →
      g.firstOutcome .atom g.atoms (ts ++ rest) = .ok ⟨e, ts.length⟩
  | .chain, ts, e => g.outcome .chain ts = .ok ⟨e, ts.length⟩
  | .expression, ts, e => g.fullOutcome ts = .ok e

/-- An atom that is read in front of any tokens whatever. -/
def ReadsBefore (g : Grammar) (ts : List Token) (e : Expr) : Prop :=
  ∀ rest, g.firstOutcome .atom g.atoms (ts ++ rest) = .ok ⟨e, ts.length⟩

theorem ReadsBefore.recognizes {e : Expr} (h : g.ReadsBefore ts e) : g.Recognizes .atom ts e :=
  fun rest _ => h rest

theorem outcome_group {opening closing : Token} {e : Expr} (ho : opening.kind = .parenLeft)
    (hc : closing.kind = .parenRight) (h : g.fullOutcome ts = .ok e) (rest : List Token) :
    g.outcome (.atom .parenthesized) (opening :: (ts ++ [closing]) ++ rest) =
      .ok ⟨.group e, ts.length + 2⟩ := by
  have hn : closing.kind ≠ .parenLeft := by simp [hc]
  have hs : parentheses (opening :: (ts ++ [closing]) ++ rest) = .ok ⟨ts, rest⟩ := by
    have hb := (derives_of_fullOutcome h).balanced 0 (closing :: rest)
    simp only [closeScope, if_neg hn, if_pos hc, Option.map_some, List.append_nil] at hb
    simp [parentheses, balancedScope, ho, hb]
  have hw : ((opening :: (ts ++ [closing]) ++ rest).drop 1).take ts.length = ts := by simp
  have hl : 2 ≤ (opening :: (ts ++ [closing]) ++ rest).length := by
    simp only [List.length_cons, List.length_append, List.length_nil]
    omega
  rw [outcome_parenthesized, if_pos hl, hs]
  show g.fullOutcome _ >>= _ = _
  rw [hw, h]
  rfl

theorem readsBefore_group {opening closing : Token} {e : Expr} (ho : opening.kind = .parenLeft)
    (hc : closing.kind = .parenRight) (h : g.fullOutcome ts = .ok e) :
    g.ReadsBefore (opening :: (ts ++ [closing])) (.group e) := by
  intro rest
  apply firstOutcome_atoms [] (by simp) rfl (by simp)
  rw [outcome_group ho hc h]
  simp

theorem readsBefore_bracketBinary {o : Token} {op : BinaryOp} {xs ys : List Token} {a b : String}
    (ho : g.IsBinary o op) (hx : Braced xs a) (hy : Braced ys b) :
    g.ReadsBefore (o :: (xs ++ ys)) (.binary op (.arg a) (.arg b)) := by
  intro rest
  have hp : o.kind ≠ .parenLeft := by rcases ho.1 with hk | hk <;> simp [hk]
  refine firstOutcome_atoms [.parenthesized] (by simp) rfl ?_ ?_
  · simpa using refuses_parenthesized hp
  · rw [outcome_bracketBinary, bracketBinary_of_braced ho hx hy]
    simp [hx.length, hy.length]
    rfl

theorem refuses_before_superscript {v : Token} (hv : v.kind = .var) (rest : List Token) :
    ∀ b ∈ [Atom.parenthesized, .bracketBinary], g.Refuses (.atom b) (v :: rest) := by
  have hp : g.Refuses (.atom .parenthesized) (v :: rest) := refuses_parenthesized (by simp [hv])
  have hb : g.Refuses (.atom .bracketBinary) (v :: rest) :=
    refuses_bracketBinary fun _ => not_isBinary (by simp [hv]) (by simp [hv])
  simpa using ⟨hp, hb⟩

theorem refuses_before_subscript {v mark : Token} (hv : v.kind = .var)
    (hm : mark.kind = .subscript) (rest : List Token) :
    ∀ b ∈ [Atom.parenthesized, .bracketBinary, .superscript],
      g.Refuses (.atom b) (v :: mark :: rest) := by
  have hbefore := refuses_before_superscript (g := g) hv (mark :: rest)
  have hs : g.Refuses (.atom .superscript) (v :: mark :: rest) := by
    apply refuses_superscript
    rintro ⟨base, mark', opening, more, he, _, hm', _⟩
    cases he
    cases hm.symm.trans hm'
  simp only [List.forall_mem_cons] at hbefore ⊢
  exact ⟨hbefore.1, hbefore.2.1, hs, List.forall_mem_nil _⟩

theorem readsBefore_superscript {v mark : Token} {xs : List Token} {a : String}
    (hv : v.kind = .var) (hm : mark.kind = .superscript) (hx : Braced xs a) :
    g.ReadsBefore (v :: mark :: xs) (.binary .pow (.var v.text) (.arg a)) := by
  intro rest
  refine firstOutcome_atoms [.parenthesized, .bracketBinary] (by simp) rfl
    (refuses_before_superscript hv (mark :: xs ++ rest)) ?_
  rw [outcome_superscript, List.length_cons, List.length_cons, hx.length]
  exact script_of_braced hv hm hx

theorem readsBefore_subscript {v mark : Token} {xs : List Token} {a : String}
    (hv : v.kind = .var) (hm : mark.kind = .subscript) (hx : Braced xs a) :
    g.ReadsBefore (v :: mark :: xs) (.var (v.text ++ a)) := by
  intro rest
  refine firstOutcome_atoms [.parenthesized, .bracketBinary, .superscript] (by simp) rfl
    (refuses_before_subscript hv hm (xs ++ rest)) ?_
  rw [outcome_subscript, List.length_cons, List.length_cons, hx.length]
  exact script_of_braced hv hm hx

theorem refuses_before_unary {u : Token} {op : UnaryOp} (hu : g.IsUnary u op) (rest : List Token) :
    ∀ b ∈ [Atom.parenthesized, .bracketBinary, .superscript, .subscript],
      g.Refuses (.atom b) (u :: rest) := by
  have hv : u.kind ≠ .var := by simp [hu.1]
  have hp : g.Refuses (.atom .parenthesized) (u :: rest) := refuses_parenthesized (by simp [hu.1])
  have hb : g.Refuses (.atom .bracketBinary) (u :: rest) := by
    apply refuses_bracketBinary
    intro op' hop
    have := hop.2.symm.trans hu.2
    cases this
  have hs : g.Refuses (.atom .superscript) (u :: rest) := refuses_superscript (not_scriptHead hv)
  have hd : g.Refuses (.atom .subscript) (u :: rest) := refuses_subscript (not_scriptHead hv)
  simpa using ⟨hp, hb, hs, hd⟩

theorem outcome_unaryBraced {u : Token} {op : UnaryOp} {xs : List Token} {a : String}
    (hu : g.IsUnary u op) (hx : Braced xs a) (rest : List Token) :
    g.outcome (.atom .unaryCommand) (u :: xs ++ rest) = .ok ⟨.unary op (.arg a), 4⟩ := by
  obtain ⟨split, hs, _, hl, ha⟩ := hx.exists_split rest
  cases hx with
  | @mk opening raw closing ho hr hc =>
    rw [List.cons_append, List.cons_append, outcome_unaryCommand]
    refine bind_eq_ok.mpr ⟨op, lift_eq_ok.mpr (unaryOp_eq_ok.mpr hu), ?_⟩
    rw [if_pos ho]
    refine bind_eq_ok.mpr ⟨split, lift_eq_ok.mpr hs, ?_⟩
    refine bind_eq_ok.mpr ⟨_, lift_eq_ok.mpr ha, ?_⟩
    rw [hl]
    rfl

theorem outcome_unaryAtom {u next : Token} {more : List Token} {op : UnaryOp}
    (hu : g.IsUnary u op) (hk : next.kind ≠ .argStart) :
    g.outcome (.atom .unaryCommand) (u :: next :: more) = do
      let operand ← g.firstOutcome .atom g.atoms (next :: more)
      return ⟨.unary op operand.expr, operand.taken + 1⟩ := by
  have hop : (liftM (g.unaryOp u) : Except Failure UnaryOp) = .ok op :=
    lift_eq_ok.mpr (unaryOp_eq_ok.mpr hu)
  rw [outcome_unaryCommand, hop]
  exact if_neg hk

theorem readsBefore_unaryBraced {u : Token} {op : UnaryOp} {xs : List Token} {a : String}
    (hu : g.IsUnary u op) (hx : Braced xs a) :
    g.ReadsBefore (u :: xs) (.unary op (.arg a)) := by
  intro rest
  refine firstOutcome_atoms [.parenthesized, .bracketBinary, .superscript, .subscript]
    (by simp) rfl (refuses_before_unary hu (xs ++ rest)) ?_
  rw [outcome_unaryBraced hu hx, List.length_cons, hx.length]

theorem recognizes_unaryAtom {u : Token} {op : UnaryOp} {e : Expr} (hu : g.IsUnary u op)
    (hd : g.Derives .atom ts e) (h : g.Recognizes .atom ts e) :
    g.Recognizes .atom (u :: ts) (.unary op e) := by
  intro rest hrest
  refine firstOutcome_atoms [.parenthesized, .bracketBinary, .superscript, .subscript]
    (by simp) rfl (refuses_before_unary hu (ts ++ rest)) ?_
  have ha := h rest hrest
  obtain ⟨t, more, rfl, hk⟩ := hd.head
  exact (outcome_unaryAtom hu hk).trans (bind_eq_ok.mpr ⟨_, ha, rfl⟩)

theorem refuses_before_product {t : Token} {rest : List Token}
    (ht : t.kind = .number ∨ t.kind = .var) (hs : g.Refuses (.atom .superscript) (t :: rest))
    (hd : g.Refuses (.atom .subscript) (t :: rest)) :
    ∀ b ∈ [Atom.parenthesized, .bracketBinary, .superscript, .subscript, .unaryCommand],
      g.Refuses (.atom b) (t :: rest) := by
  have hp : g.Refuses (.atom .parenthesized) (t :: rest) :=
    refuses_parenthesized (by rcases ht with hk | hk <;> simp [hk])
  have hb : g.Refuses (.atom .bracketBinary) (t :: rest) :=
    refuses_bracketBinary fun _ => by
      rcases ht with hk | hk <;> exact not_isBinary (by simp [hk]) (by simp [hk])
  have hu : g.Refuses (.atom .unaryCommand) (t :: rest) := by
    apply refuses_unaryCommand
    intro op hop
    have hc := hop.1
    rcases ht with hk | hk <;> rw [hk] at hc <;> cases hc
  simpa using ⟨hp, hb, hs, hd, hu⟩

theorem recognizes_product {e : Expr} (hg : g.implicitProducts = true) (h : Product ts e) :
    g.Recognizes .atom ts e := by
  intro rest hrest
  obtain ⟨t, next, more, rfl, ht, hn⟩ := h.head
  have hl : g.atoms =
      [Atom.parenthesized, .bracketBinary, .superscript, .subscript, .unaryCommand] ++
        Atom.implicitProduct :: [Atom.number, .var] := by simp [atoms, hg]
  have hm : ∀ marker, (marker = .superscript ∨ marker = .subscript) →
      ¬ ScriptHead marker (t :: (next :: more ++ rest)) := by
    rintro marker hmark ⟨base, mark, opening, tail, he, _, hk, _⟩
    simp only [List.cons_append, List.cons.injEq] at he
    rw [he.2.1, hk] at hn
    rcases hmark with rfl | rfl <;> rcases hn with hn | hn <;> cases hn
  refine firstOutcome_atoms _ (List.cons_ne_nil _ _) hl
    (refuses_before_product ht (refuses_superscript (hm _ (.inl rfl)))
      (refuses_subscript (hm _ (.inr rfl)))) ?_
  rw [outcome_implicitProduct, lift_eq_ok]
  exact h.implicitProduct_append hrest.head

theorem outcome_number_cons {t : Token} {x : Float} (hk : t.kind = .number)
    (hx : Decimal.read? t.text = some x) (rest : List Token) :
    g.outcome (.atom .number) (t :: rest) = .ok ⟨.number x, 1⟩ := by
  rw [outcome_number, lift_eq_ok]
  exact firstLeaf_cons (numberLeaf_eq_ok.mpr ⟨hk, x, hx, rfl⟩)

theorem outcome_var_cons {t : Token} (hk : t.kind = .var) (rest : List Token) :
    g.outcome (.atom .var) (t :: rest) = .ok ⟨.var t.text, 1⟩ := by
  rw [outcome_var, lift_eq_ok]
  exact firstLeaf_cons (varLeaf_eq_ok.mpr ⟨hk, rfl⟩)

theorem refuses_on_factor {t : Token} {rest : List Token} {a : Atom}
    (ht : t.kind = .number ∨ t.kind = .var) (hs : g.Refuses (.atom .superscript) (t :: rest))
    (hd : g.Refuses (.atom .subscript) (t :: rest)) (hr : ∀ u ∈ rest.head?, ¬ isFactor u)
    (hn : a ≠ .number) (hv : a ≠ .var) : g.Refuses (.atom a) (t :: rest) := by
  by_cases hp : a = .implicitProduct
  · subst hp
    apply refuses_implicitProduct
    have hrun : ([t] ++ rest).takeWhile isFactor = [t] :=
      takeWhile_append_of_stop (by simp [isFactor_iff.mpr ht]) hr
    show (([t] ++ rest).takeWhile isFactor).length < 2
    rw [hrun]
    exact Nat.lt_succ_self 1
  · exact refuses_before_product ht hs hd a (by cases a <;> simp_all)

theorem firstOutcome_factor {t : Token} {rest : List Token} {e : Expr} (h : Factor t e)
    (hs : g.Refuses (.atom .superscript) (t :: rest))
    (hd : g.Refuses (.atom .subscript) (t :: rest)) (hr : ∀ u ∈ rest.head?, ¬ isFactor u) :
    g.firstOutcome .atom g.atoms (t :: rest) = .ok ⟨e, 1⟩ := by
  have hbefore : ∀ a : Atom, a ≠ .number → a ≠ .var → g.Refuses (.atom a) (t :: rest) :=
    fun _ hn hv => refuses_on_factor h.kind hs hd hr hn hv
  cases h with
  | number hk hx =>
    apply firstOutcome_atoms _ (List.cons_ne_nil _ _) rfl
    · intro b hb
      refine hbefore b ?_ ?_
      · rintro rfl
        simp at hb
      · rintro rfl
        simp at hb
    · exact outcome_number_cons hk hx rest
  | var hk =>
    have hl : g.atoms =
        ([Atom.parenthesized, .bracketBinary, .superscript, .subscript, .unaryCommand] ++
          (if g.implicitProducts then [Atom.implicitProduct] else []) ++ [Atom.number]) ++
            Atom.var :: [] := by
      simp [atoms]
    refine firstOutcome_atoms _ (List.cons_ne_nil _ _) hl ?_ ?_
    · intro b hb
      by_cases hn : b = .number
      · rw [hn]
        exact refuses_number (by simp [hk])
      · refine hbefore b hn ?_
        rintro rfl
        simp at hb
    · exact outcome_var_cons hk rest

theorem recognizes_factor {t : Token} {e : Expr} (h : Factor t e) :
    g.Recognizes .atom [t] e := by
  intro rest hrest
  have hm : ∀ marker, ¬ ScriptHead marker (t :: rest) := by
    rintro marker ⟨base, mark, opening, more, he, _, _, ho⟩
    rcases hrest with rfl | ⟨o, next, tail, rfl, _, hn⟩
    · cases he
    · simp only [List.cons.injEq] at he
      exact hn (by rw [he.2.2.1, ho])
  exact firstOutcome_factor h (refuses_superscript (hm .superscript))
    (refuses_subscript (hm .subscript)) hrest.head

theorem recognizes_atom_whole {e : Expr} (h : g.Recognizes .atom ts e) :
    g.firstOutcome .atom g.atoms ts = .ok ⟨e, ts.length⟩ := by
  have hw := h [] (.inl rfl)
  rwa [List.append_nil] at hw

theorem outcome_chain_of_left {left right : List Token} {o : Token} {op : BinaryOp} {x : Expr}
    (hl : left ≠ []) (hr : right ≠ [])
    (h : g.firstOutcome .atom g.atoms (left ++ o :: right) = .ok ⟨x, left.length⟩)
    (ho : g.IsBinary o op) :
    g.outcome .chain (left ++ o :: right) = do
      let r ← g.firstOutcome id g.operands right
      return ⟨.binary op x r.expr, left.length + 1 + r.taken⟩ := by
  obtain ⟨t, more, rfl⟩ := List.exists_cons_of_ne_nil hl
  obtain ⟨next, tail, rfl⟩ := List.exists_cons_of_ne_nil hr
  have hlen : 3 ≤ (t :: more ++ o :: next :: tail).length := by
    simp only [List.length_append, List.length_cons]
    omega
  have hafter : (t :: more ++ o :: next :: tail).drop ((t :: more).length + 1) = next :: tail := by
    rw [← List.drop_drop, List.drop_left]
    rfl
  have hop : (liftM (g.binaryOp o) : Except Failure BinaryOp) = .ok op :=
    lift_eq_ok.mpr (binaryOp_eq_ok.mpr ho)
  rw [outcome_chain, if_pos hlen, h]
  simp only [bind, Except.bind, Parsed.rest, List.drop_left, hafter, hop]

theorem recognizes_chain {left right : List Token} {o : Token} {op : BinaryOp} {s : Symbol}
    {x y : Expr} (hl : g.Derives .atom left x) (h : g.Recognizes .atom left x)
    (ho : g.IsBinary o op) (hr : g.Derives s right y)
    (hright : g.firstOutcome id g.operands right = .ok ⟨y, right.length⟩) :
    g.Recognizes .chain (left ++ o :: right) (.binary op x y) := by
  have hleft := h (o :: right) (hr.follows ho)
  show g.outcome .chain _ = _
  rw [outcome_chain_of_left hl.ne_nil hr.ne_nil hleft ho]
  refine bind_eq_ok.mpr ⟨_, hright, ?_⟩
  simp [pure, Except.pure]
  omega

theorem recognizes_of_derives {s : Symbol} {e : Expr} (h : g.Derives s ts e) :
    g.Recognizes s ts e := by
  induction h with
  | group ho hc _ ih => exact (readsBefore_group ho hc ih).recognizes
  | bracketBinary ho hx hy => exact (readsBefore_bracketBinary ho hx hy).recognizes
  | superscript hv hm hx => exact (readsBefore_superscript hv hm hx).recognizes
  | subscript hv hm hx => exact (readsBefore_subscript hv hm hx).recognizes
  | unaryBraced hu hx => exact (readsBefore_unaryBraced hu hx).recognizes
  | unaryAtom hu hd ih => exact recognizes_unaryAtom hu hd ih
  | product hg hp => exact recognizes_product hg hp
  | factor hf => exact recognizes_factor hf
  | chainOn hl ho hr ihl ihr =>
    apply recognizes_chain hl ihl ho hr
    obtain ⟨t, more, rfl, _⟩ := hr.head
    exact firstOutcome_of_ok (List.cons_ne_nil t more) ihr
  | @chainEnd left right o op x y hl ho hr ihl ihr =>
    apply recognizes_chain hl ihl ho hr
    obtain ⟨t, more, rfl, _⟩ := hr.head
    have hw := recognizes_atom_whole ihr
    have hchain := refuses_chain hw (by simp [Parsed.rest])
    refine (firstOutcome_of_refuses (List.cons_ne_nil t more) hchain).trans ?_
    rw [firstOutcome_map]
    exact hw
  | ofChain _ ih => exact fullOutcome_of_chain ih (by simp [Parsed.rest])
  | ofAtom _ ih => exact fullOutcome_of_atom (recognizes_atom_whole ih) (by simp [Parsed.rest])

theorem parseComplete_eq_ok {e : Expr} :
    g.parseComplete ts = .ok e ↔ g.Derives .expression ts e := by
  rw [parseComplete_eq_fullOutcome]
  exact ⟨derives_of_fullOutcome, recognizes_of_derives⟩

theorem Derives.unique {e e' : Expr} (h : g.Derives .expression ts e)
    (h' : g.Derives .expression ts e') : e = e' := by
  have he := (parseComplete_eq_ok.mpr h).symm.trans (parseComplete_eq_ok.mpr h')
  cases he
  rfl

/-- The parser accepts the sentences of the grammar and yields their trees. It never ends early on a
sentence, and no sentence has two trees. -/
theorem parseComplete_iff_derives (g : Grammar) (ts : List Token) :
    (∀ e, g.parseComplete ts = .ok e ↔ g.Derives .expression ts e) ∧
      (∀ found e, g.parseComplete ts = .error (.unsupportedScript found) →
        ¬ g.Derives .expression ts e) ∧
      ∀ e e', g.Derives .expression ts e → g.Derives .expression ts e' → e = e' := by
  refine ⟨fun e => parseComplete_eq_ok, ?_, ?_⟩
  · intro found e hf hd
    rw [parseComplete_eq_ok.mpr hd] at hf
    cases hf
  · intro e e' hd hd'
    have h := (parseComplete_eq_ok.mpr hd).symm.trans (parseComplete_eq_ok.mpr hd')
    cases h
    rfl

theorem parseComplete_iff_derives_sum :
    parseComplete ⟨Command.meaning Command.standard, false⟩
      [⟨.var, "x", 0, 1⟩, ⟨.command, "+", 1, 2⟩, ⟨.var, "y", 2, 3⟩] =
        .ok (.binary .add (.var "x") (.var "y")) := by
  have hd : Derives ⟨Command.meaning Command.standard, false⟩ .chain
      ([⟨.var, "x", 0, 1⟩] ++ ⟨.command, "+", 1, 2⟩ :: [⟨.var, "y", 2, 3⟩])
      (.binary .add (.var "x") (.var "y")) :=
    .chainEnd (.factor (.var rfl)) ⟨.inl rfl, by decide⟩ (.factor (.var rfl))
  exact ((parseComplete_iff_derives _ _).1 _).mpr (.ofChain hd)

end MathMarkup.Grammar
