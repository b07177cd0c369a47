import MathMarkup.Proofs.Dependence

/-!
# The longest chain

An atom or a chain at the front of some tokens may be read on when more tokens stand behind it: its
last variable may be the base of a script, or the left operand of one link more. Without implicit
products it is never cut short by them. The rules that are tried first take at least as many tokens,
unless a script without a literal ends the whole parse, and so a chain that was read is the longest.
-/

namespace MathMarkup.Grammar

variable {g : Grammar} {ts us : List Token} {n : Nat} {ρ : Type} {rule : ρ → Rule} {r : ρ}

/-- At least `n` tokens were taken, or the whole parse has ended. -/
def Reaches (n : Nat) : Outcome → Prop
  | .ok p => n ≤ p.taken
  | .error (.mismatch _) => False
  | .error (.unsupportedScript _) => True

theorem Reaches.bind {m : Nat} {found : Outcome} {f : Parsed → Outcome} (h : Reaches n found)
    (hf : ∀ p : Parsed, n ≤ p.taken → Reaches m (f p)) : Reaches m (found >>= f) := by
  rcases found with (_ | _) | p
  · exact h.elim
  · trivial
  · exact hf p h

/-! ## Rules in their order -/

theorem Reaches.firstOutcome_cons (ht : ts ≠ []) (h : Reaches n (g.outcome (rule r) ts))
    (rules : List ρ) : Reaches n (g.firstOutcome rule (r :: rules) ts) := by
  rw [Grammar.firstOutcome_cons ht]
  rcases ho : g.outcome (rule r) ts with (_ | _) | p
  · rw [ho] at h
    exact h.elim
  · trivial
  · rwa [ho] at h

theorem Reaches.firstOutcome_append {before : List ρ} (ht : ts ≠ [])
    (hb : ∀ b ∈ before, g.Refuses (rule b) ts ∨ Reaches n (g.outcome (rule b) ts))
    (h : Reaches n (g.outcome (rule r) ts)) (rules : List ρ) :
    Reaches n (g.firstOutcome rule (before ++ r :: rules) ts) := by
  induction before with
  | nil => exact h.firstOutcome_cons ht rules
  | cons b before ih =>
    rcases hb b List.mem_cons_self with hr | hr
    · rw [List.cons_append, firstOutcome_of_refuses ht hr]
      exact ih fun c hc => hb c (List.mem_cons_of_mem b hc)
    · exact hr.firstOutcome_cons ht _

theorem refuses_or_reaches_one (r : Rule) (ts : List Token) :
    g.Refuses r ts ∨ Reaches 1 (g.outcome r ts) := by
  rcases ho : g.outcome r ts with (reason | _) | p
  · exact .inl ⟨reason, ho⟩
  · exact .inr trivial
  · obtain ⟨used, rest, _, hne, ht, _⟩ := outcome_alone ho
    have hone : 1 ≤ p.taken := ht ▸ List.length_pos_iff.mpr hne
    exact .inr hone

/-- A chain begins with the atom that is read first, so it reaches further if it is not refused. -/
theorem refuses_or_reaches_of_atom (h : Reaches n (g.firstOutcome .atom g.atoms ts)) :
    g.Refuses .chain ts ∨ Reaches n (g.outcome .chain ts) := by
  rcases ho : g.outcome .chain ts with (reason | _) | p
  · exact .inl ⟨reason, ho⟩
  · exact .inr trivial
  · obtain ⟨left, _, _, _, _, right, hleft, _, _, _, rfl⟩ := exists_of_chain ho
    rw [hleft] at h
    have hle : n ≤ left.taken := h
    have hfar : n ≤ left.taken + 1 + right.taken := by omega
    exact .inr hfar

/-! ## Sentences in front of any tokens -/

def Stretches (g : Grammar) : Symbol → List Token → Prop
  | .atom, ts => ∀ rest, Reaches ts.length (g.firstOutcome .atom g.atoms (ts ++ rest))
  | .chain, ts => ∀ rest, Reaches ts.length (g.outcome .chain (ts ++ rest))
  | .expression, ts => ∀ rest, Reaches ts.length (g.firstOutcome id g.operands (ts ++ rest))

theorem ReadsBefore.stretches {e : Expr} (h : g.ReadsBefore ts e) : g.Stretches .atom ts := by
  intro rest
  rw [h rest]
  exact Nat.le_refl ts.length

theorem stretches_factor {t : Token} {e : Expr} (h : Factor t e) : g.Stretches .atom [t] := by
  intro rest
  obtain ⟨a, ha, hread⟩ : ∃ a ∈ g.atoms, g.outcome (.atom a) (t :: rest) = .ok ⟨e, 1⟩ := by
    cases h with
    | number hk hx => exact ⟨.number, by simp [atoms], outcome_number_cons hk hx rest⟩
    | var hk => exact ⟨.var, by simp [atoms], outcome_var_cons hk rest⟩
  obtain ⟨before, after, hl⟩ := List.append_of_mem ha
  have hone : Reaches 1 (g.outcome (.atom a) (t :: rest)) := hread ▸ Nat.le_refl 1
  -- Any atom that is tried earlier and does not refuse takes the one token too.
  rw [hl]
  exact hone.firstOutcome_append (List.cons_ne_nil t rest)
    (fun b _ => refuses_or_reaches_one (.atom b) _) after

theorem stretches_unaryAtom {u : Token} {op : UnaryOp} {e : Expr} (hu : g.IsUnary u op)
    (hd : g.Derives .atom ts e) (h : g.Stretches .atom ts) : g.Stretches .atom (u :: ts) := by
  intro rest
  have hbefore := refuses_before_unary hu (ts ++ rest)
  have hoperand := h rest
  obtain ⟨t, more, rfl, hk⟩ := hd.head
  have hunary : Reaches (u :: t :: more).length
      (g.outcome (.atom .unaryCommand) (u :: (t :: more ++ rest))) := by
    rw [List.cons_append, outcome_unaryAtom hu hk]
    exact hoperand.bind fun p hp => Nat.succ_le_succ hp
  exact hunary.firstOutcome_append (List.cons_ne_nil _ _) (fun b hb => .inl (hbefore b hb)) _

theorem stretches_operand_of_chain {e : Expr} (hd : g.Derives .chain ts e)
    (h : g.Stretches .chain ts) : g.Stretches .expression ts := by
  intro rest
  exact (h rest).firstOutcome_cons (List.append_ne_nil_of_left_ne_nil hd.ne_nil rest) _

theorem stretches_operand_of_atom {e : Expr} (hd : g.Derives .atom ts e)
    (h : g.Stretches .atom ts) : g.Stretches .expression ts := by
  intro rest
  have ht : ts ++ rest ≠ [] := List.append_ne_nil_of_left_ne_nil hd.ne_nil rest
  rcases refuses_or_reaches_of_atom (h rest) with hr | hr
  · rw [operands, firstOutcome_of_refuses ht hr, firstOutcome_map]
    exact h rest
  · exact hr.firstOutcome_cons ht _

theorem stretches_chain {left right : List Token} {o : Token} {op : BinaryOp} {s : Symbol}
    {x y : Expr} (hl : g.Derives .atom left x) (ho : g.IsBinary o op) (hr : g.Derives s right y)
    (h : g.Stretches .expression right) : g.Stretches .chain (left ++ o :: right) := by
  intro rest
  have hright := h rest
  obtain ⟨t, more, rfl, hk⟩ := hr.head
  have hfollows : Follows (o :: (t :: more ++ rest)) := .inr ⟨o, t, more ++ rest, rfl, ho.1, hk⟩
  -- The left atom is followed by an operator in the longer list as well.
  have hleft := recognizes_of_derives hl _ hfollows
  have hne : t :: more ++ rest ≠ [] := List.cons_ne_nil t (more ++ rest)
  rw [List.append_assoc, List.cons_append (a := o), outcome_chain_of_left hl.ne_nil hne hleft ho]
  refine hright.bind fun p hp => ?_
  show (left ++ o :: (t :: more)).length ≤ left.length + 1 + p.taken
  rw [List.length_append, List.length_cons]
  omega

theorem Derives.stretches {s : Symbol} {e : Expr} (hg : g.implicitProducts = false)
    (h : g.Derives s ts e) : g.Stretches s ts := by
  induction h with
  | group ho hc hd _ => exact (readsBefore_group ho hc (recognizes_of_derives hd)).stretches
  | bracketBinary ho hx hy => exact (readsBefore_bracketBinary ho hx hy).stretches
  | superscript hv hm hx => exact (readsBefore_superscript hv hm hx).stretches
  | subscript hv hm hx => exact (readsBefore_subscript hv hm hx).stretches
  | unaryBraced hu hx => exact (readsBefore_unaryBraced hu hx).stretches
  | unaryAtom hu hd ih => exact stretches_unaryAtom hu hd ih
  | product hp _ => exact absurd (hp.symm.trans hg) Bool.noConfusion
  | factor hf => exact stretches_factor hf
  | chainOn hl ho hr _ ih => exact stretches_chain hl ho hr (stretches_operand_of_chain hr ih)
  | chainEnd hl ho hr _ ih => exact stretches_chain hl ho hr (stretches_operand_of_atom hr ih)
  | ofChain hd ih => exact stretches_operand_of_chain hd ih
  | ofAtom hd ih => exact stretches_operand_of_atom hd ih

/-- Without implicit products the rule for chains takes the longest chain at the front of the
tokens: what it takes is read whole, and no longer part of the tokens from the front on is. -/
theorem chain_is_longest {meaning : String → Option Command} {ts : List Token} {p : Parsed}
    (h : apply ⟨meaning, false⟩ .chain ts = .ok p) :
    (∃ q, apply ⟨meaning, false⟩ .chain (ts.take p.taken) = .ok q ∧
      q.rest (ts.take p.taken) = []) ∧
    ∀ us, us <+: ts → p.taken < us.length →
      ¬ ∃ q, apply ⟨meaning, false⟩ .chain us = .ok q ∧ q.rest us = [] := by
  rw [apply_eq_outcome] at h
  constructor
  · obtain ⟨used, rest, rfl, _, ht, halone⟩ := outcome_alone h
    rw [ht, List.take_left, apply_eq_outcome]
    exact ⟨p, halone, by rw [Parsed.rest, ht, List.drop_length]⟩
  · rintro us ⟨rest, rfl⟩ hl ⟨q, hq, hrest⟩
    rw [apply_eq_outcome] at hq
    obtain ⟨used, more, rfl, ht, hd⟩ := outcome_reads offers_chain hq
    rw [Parsed.rest, ht, List.drop_left] at hrest
    subst hrest
    rw [List.append_nil] at h hl
    have hreach : Reaches used.length (.ok p) := h ▸ Derives.stretches rfl hd rest
    exact Nat.not_le_of_lt hl hreach

theorem chain_is_longest_script :
    let g : Grammar := ⟨Command.meaning Command.standard, false⟩
    let ts : List Token := [⟨.var, "x", 0, 1⟩, ⟨.command, "+", 1, 2⟩, ⟨.var, "y", 2, 3⟩,
      ⟨.superscript, "^", 3, 4⟩, ⟨.argStart, "\x7b", 4, 5⟩, ⟨.arg, "2", 5, 6⟩,
      ⟨.argEnd, "\x7d", 6, 7⟩, ⟨.command, "+", 7, 8⟩, ⟨.parenLeft, "(", 8, 9⟩]
    let p : Parsed := ⟨.binary .add (.var "x") (.binary .pow (.var "y") (.arg "2")), 7⟩
    g.apply .chain ts = .ok p ∧
      (∃ q, g.apply .chain (ts.take 7) = .ok q ∧ q.rest (ts.take 7) = []) ∧
      ts.take 8 <+: ts ∧ p.taken < (ts.take 8).length ∧
      ¬ ∃ q, g.apply .chain (ts.take 8) = .ok q ∧ q.rest (ts.take 8) = [] := by
  intro g ts p
  have hchain : g.apply .chain ts = .ok p :=
    (apply_eq_outcome _ _).trans (by with_unfolding_all rfl)
  have hlong : p.taken < (ts.take 8).length := by decide
  obtain ⟨hwhole, hlongest⟩ := chain_is_longest hchain
  exact ⟨hchain, hwhole, List.take_prefix 8 ts, hlong,
    hlongest (ts.take 8) (List.take_prefix 8 ts) hlong⟩

end MathMarkup.Grammar
