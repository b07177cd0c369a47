import MathMarkup.Proofs.Braces
import MathMarkup.Proofs.Failures
import MathMarkup.Proofs.Recognition

/-!
# Scripts without a literal

A script ends the parse only if two tokens stand behind its opening brace that are not a literal and
the closing brace. In a text that cannot be unless the braces are empty. At the front of the tokens
such a script always ends the parse. Empty braces are one token too few for that if nothing stands
behind them: then no rule sees a script, and its base is read as a variable.
-/

namespace MathMarkup.Grammar

/-- What ends a parse is a script that is written out among the tokens. In a text its braces are
empty. -/
theorem unsupportedScript_cause (g : Grammar) (ts : List Token) (found : Token)
    (h : g.Fails ts (.unsupportedScript found)) :
    (∃ i base mark opening next, ts[i]? = some base ∧ ts[i + 1]? = some mark ∧
      ts[i + 2]? = some opening ∧ ts[i + 3]? = some found ∧ ts[i + 4]? = some next ∧
      base.kind = .var ∧ (mark.kind = .superscript ∨ mark.kind = .subscript) ∧
      opening.kind = .argStart ∧ ¬(found.kind = .arg ∧ next.kind = .argEnd) ∧
      ∀ input, ts = lex input → found.kind = .argEnd ∧
        ∃ before after, input = before ++ "\x7b\x7d" ++ after ∧
          before.utf8ByteSize = opening.start) ∧
    (Failure.unsupportedScript found).message =
      s!"unsupported construct: script argument that isn't a braced literal at offset {found.start}" := by
  obtain ⟨base, mark, opening, next, hi, hb, hm, ho, hraw⟩ := h.trueOf
  obtain ⟨front, back, rfl⟩ := hi
  refine ⟨⟨front.length, base, mark, opening, next, ?_, ?_, ?_, ?_, ?_, hb, hm, ho, hraw, ?_⟩, rfl⟩
  · simp
  · simp
  · simp
  · simp
  · simp
  · intro input hlex
    have hi : [opening, found, next] <:+: lex input :=
      hlex ▸ ⟨front ++ [base, mark], back, by simp⟩
    obtain ⟨hclose, hstart⟩ := closes_of_infix_lex hi ho hraw
    have hopening : opening ∈ lex input := hi.subset (by simp)
    have hfound : found ∈ lex input := hi.subset (by simp)
    exact ⟨hclose, exists_append_of_empty hopening hfound ho hclose hstart⟩

theorem unsupportedScript_cause_group :
    let g : Grammar := ⟨Command.meaning Command.standard, false⟩
    let text : String := "(y+x_\x7b\x7dz)"
    let found : Token := ⟨.argEnd, "\x7d", 6, 7⟩
    g.parse (lex text) = .error (.unsupportedScript found) ∧
      ∃ i opening next, (lex text)[i + 2]? = some opening ∧ (lex text)[i + 3]? = some found ∧
        (lex text)[i + 4]? = some next ∧ opening.kind = .argStart ∧ found.kind = .argEnd ∧
        ∃ before after, text = before ++ "\x7b\x7d" ++ after ∧
          before.utf8ByteSize = opening.start := by
  intro g text found
  have hlex : lex text = [⟨.parenLeft, "(", 0, 1⟩, ⟨.var, "y", 1, 2⟩, ⟨.command, "+", 2, 3⟩,
      ⟨.var, "x", 3, 4⟩, ⟨.subscript, "_", 4, 5⟩, ⟨.argStart, "\x7b", 5, 6⟩, found,
      ⟨.var, "z", 7, 8⟩, ⟨.parenRight, ")", 8, 9⟩] := by
    rw [Scanner.lex_eq_tokens]
    decide
  have hparse : g.parse (lex text) = .error (.unsupportedScript found) := by
    rw [hlex, parse_eq_firstOutcome]
    with_unfolding_all rfl
  obtain ⟨⟨i, _, _, opening, next, _, _, hopen, hfound, hnext, _, _, hkind, _, htext⟩, _⟩ :=
    unsupportedScript_cause g (lex text) found (.inr (.inl hparse))
  exact ⟨hparse, i, opening, next, hopen, hfound, hnext, hkind, htext text rfl⟩

/-! ## A script at the front -/

variable {g : Grammar} {base mark opening raw next found : Token} {ts rest : List Token}

theorem firstOutcome_of_unsupportedScript {ρ : Type} {rule : ρ → Rule} {r : ρ} {before : List ρ}
    (ht : ts ≠ []) (hb : ∀ b ∈ before, g.Refuses (rule b) ts)
    (h : g.outcome (rule r) ts = .error (.unsupportedScript found)) (after : List ρ) :
    g.firstOutcome rule (before ++ r :: after) ts = .error (.unsupportedScript found) := by
  rw [firstOutcome_append ht hb, firstOutcome_cons ht, h]

theorem firstOutcome_atoms_nonliteral (hb : base.kind = .var)
    (hm : mark.kind = .superscript ∨ mark.kind = .subscript) (ho : opening.kind = .argStart)
    (hraw : ¬(raw.kind = .arg ∧ next.kind = .argEnd)) (rest : List Token) :
    g.firstOutcome .atom g.atoms (base :: mark :: opening :: raw :: next :: rest) =
      .error (.unsupportedScript raw) := by
  rcases hm with hm | hm
  · have hs : g.outcome (.atom .superscript) (base :: mark :: opening :: raw :: next :: rest) =
        .error (.unsupportedScript raw) := by
      rw [outcome_superscript]
      exact (script_cons hb hm ho).trans (if_neg hraw)
    exact firstOutcome_of_unsupportedScript (List.cons_ne_nil _ _)
      (refuses_before_superscript hb _) hs (g.atoms.drop 3)
  · have hs : g.outcome (.atom .subscript) (base :: mark :: opening :: raw :: next :: rest) =
        .error (.unsupportedScript raw) := by
      rw [outcome_subscript]
      exact (script_cons hb hm ho).trans (if_neg hraw)
    exact firstOutcome_of_unsupportedScript (List.cons_ne_nil _ _)
      (refuses_before_subscript hb hm _) hs (g.atoms.drop 4)

theorem outcome_chain_of_unsupportedScript (hl : 3 ≤ ts.length)
    (h : g.firstOutcome .atom g.atoms ts = .error (.unsupportedScript found)) :
    g.outcome .chain ts = .error (.unsupportedScript found) := by
  rw [outcome_chain, if_pos hl, h]
  rfl

/-- The chain is tried before the scripts, and meets the script as its left atom. -/
theorem firstOutcome_rules_nonliteral (hb : base.kind = .var)
    (hm : mark.kind = .superscript ∨ mark.kind = .subscript) (ho : opening.kind = .argStart)
    (hraw : ¬(raw.kind = .arg ∧ next.kind = .argEnd)) (rest : List Token) :
    g.firstOutcome id g.rules (base :: mark :: opening :: raw :: next :: rest) =
      .error (.unsupportedScript raw) := by
  have hchain : g.outcome .chain (base :: mark :: opening :: raw :: next :: rest) =
      .error (.unsupportedScript raw) :=
    outcome_chain_of_unsupportedScript (by simp)
      (firstOutcome_atoms_nonliteral hb hm ho hraw rest)
  have hbefore := refuses_before_superscript (g := g) hb
    (mark :: opening :: raw :: next :: rest)
  rw [rules_eq]
  exact firstOutcome_of_unsupportedScript (List.cons_ne_nil _ _) (by simpa using hbefore) hchain _

/-! ## A script that is too short -/

theorem outcome_ne_unsupportedScript (hl : ts.length < 5) (r : Rule) :
    g.outcome r ts ≠ .error (.unsupportedScript found) := by
  intro h
  obtain ⟨base, mark, opening, next, hi, _⟩ := outcome_failsOnly r ts _ h
  have hlen := hi.length_le
  simp only [List.length_cons] at hlen
  omega

theorem outcome_ne_ok_of_argStart {r : Rule} (hr : g.Offers r) (ho : opening.kind = .argStart)
    (p : Parsed) : g.outcome r (opening :: rest) ≠ .ok p := by
  intro h
  obtain ⟨used, behind, hcut, _, hd⟩ := outcome_reads hr h
  obtain ⟨t, more, rfl, hk⟩ := hd.head
  cases hcut
  exact hk ho

/-- A variable, a marker and an opening brace, with at most one token behind them. -/
structure ShortScript (base mark opening : Token) (rest : List Token) : Prop where
  base : base.kind = .var
  mark : mark.kind = .superscript ∨ mark.kind = .subscript
  opening : opening.kind = .argStart
  rest : rest.length < 2

namespace ShortScript

theorem length_lt (h : ShortScript base mark opening rest) :
    (base :: mark :: opening :: rest).length < 5 := by
  have hr := h.rest
  simp only [List.length_cons]
  omega

theorem refuses_superscript (h : ShortScript base mark opening rest) :
    g.Refuses (.atom .superscript) (base :: mark :: opening :: rest) := by
  unfold Refuses
  rw [outcome_superscript]
  exact script_of_short h.length_lt

theorem refuses_subscript (h : ShortScript base mark opening rest) :
    g.Refuses (.atom .subscript) (base :: mark :: opening :: rest) := by
  unfold Refuses
  rw [outcome_subscript]
  exact script_of_short h.length_lt

theorem head_not_factor (h : ShortScript base mark opening rest) :
    ∀ u ∈ (mark :: opening :: rest).head?, ¬ isFactor u := by
  intro u hu
  cases hu
  rcases h.mark with hm | hm <;> simp [isFactor, hm]

theorem firstOutcome_atoms (h : ShortScript base mark opening rest) :
    g.firstOutcome .atom g.atoms (base :: mark :: opening :: rest) = .ok ⟨.var base.text, 1⟩ :=
  firstOutcome_factor (.var h.base) h.refuses_superscript h.refuses_subscript h.head_not_factor

theorem refuses_chain (h : ShortScript base mark opening rest) :
    g.Refuses .chain (base :: mark :: opening :: rest) := by
  rcases hc : g.outcome .chain (base :: mark :: opening :: rest) with (reason | found) | p
  · exact ⟨reason, hc⟩
  · exact absurd hc (outcome_ne_unsupportedScript h.length_lt .chain)
  · obtain ⟨left, o, op, next, more, right, hleft, hrest, _, hright, _⟩ := exists_of_chain hc
    cases h.firstOutcome_atoms.symm.trans hleft
    cases hrest
    -- Even where the marker is an operator, no operand begins with the brace behind it.
    obtain ⟨r, hr, hok⟩ := exists_of_firstOutcome hright
    exact absurd hok (outcome_ne_ok_of_argStart (offers_of_mem_operands hr) h.opening right)

theorem firstOutcome_rules (h : ShortScript base mark opening rest) :
    g.firstOutcome id g.rules (base :: mark :: opening :: rest) = .ok ⟨.var base.text, 1⟩ :=
  (Grammar.firstOutcome_rules (List.cons_ne_nil _ _) h.refuses_chain).trans h.firstOutcome_atoms

theorem passes (h : ShortScript base mark opening rest) (r : Rule) :
    g.Passes r (base :: mark :: opening :: rest) := by
  cases r with
  | chain => exact .inl h.refuses_chain
  | atom a =>
    by_cases hv : a = .var
    · rw [hv]
      exact .inr ⟨_, outcome_var_cons h.base _, List.cons_ne_nil _ _⟩
    · by_cases hn : a = .number
      · rw [hn]
        exact .inl (refuses_number (by simp [h.base]))
      · exact .inl (refuses_on_factor (.inr h.base) h.refuses_superscript h.refuses_subscript
          h.head_not_factor hn hv)

theorem fullOutcome (h : ShortScript base mark opening rest) :
    g.fullOutcome (base :: mark :: opening :: rest) = .error (.mismatch (.trailingTokens mark)) :=
  fullOutcome_of_passes (fun r _ => h.passes r) h.firstOutcome_rules rfl

end ShortScript

/-- Empty braces behind a marker end the parse exactly if a token stands behind them. If none does,
reading a beginning takes the variable alone, and reading all tokens reports the marker. -/
theorem emptyScript_ends_parse_iff (g : Grammar) (base mark opening closing : Token)
    (rest : List Token) (hb : base.kind = .var)
    (hm : mark.kind = .superscript ∨ mark.kind = .subscript) (ho : opening.kind = .argStart)
    (hc : closing.kind = .argEnd) :
    (g.parse (base :: mark :: opening :: closing :: rest) = .error (.unsupportedScript closing) ↔
      rest ≠ []) ∧
    (g.parseComplete (base :: mark :: opening :: closing :: rest) =
      .error (.unsupportedScript closing) ↔ rest ≠ []) ∧
    (rest = [] →
      g.parse (base :: mark :: opening :: closing :: rest) = .ok ⟨.var base.text, 1⟩ ∧
      g.parseComplete (base :: mark :: opening :: closing :: rest) =
        .error (.mismatch (.trailingTokens mark))) := by
  rw [parse_eq_firstOutcome, parseComplete_eq_fullOutcome]
  cases rest with
  | nil =>
    have hs : ShortScript base mark opening [closing] := ⟨hb, hm, ho, Nat.one_lt_two⟩
    rw [hs.firstOutcome_rules, hs.fullOutcome]
    simp
  | cons next rest =>
    have hparse : g.firstOutcome id g.rules (base :: mark :: opening :: closing :: next :: rest) =
        .error (.unsupportedScript closing) :=
      firstOutcome_rules_nonliteral hb hm ho (by simp [hc]) rest
    rw [hparse, fullOutcome_of_error hparse]
    simp

theorem emptyScript_ends_parse_iff_power :
    let g : Grammar := ⟨Command.meaning Command.standard, false⟩
    let base : Token := ⟨.var, "x", 0, 1⟩
    let mark : Token := ⟨.superscript, "^", 1, 2⟩
    let opening : Token := ⟨.argStart, "\x7b", 2, 3⟩
    let closing : Token := ⟨.argEnd, "\x7d", 3, 4⟩
    let plus : Token := ⟨.command, "+", 4, 5⟩
    (base.kind = .var ∧ mark.kind = .superscript ∧ opening.kind = .argStart ∧
        closing.kind = .argEnd) ∧
      (lex "x^\x7b\x7d+" = [base, mark, opening, closing, plus] ∧
        g.parse [base, mark, opening, closing, plus] = .error (.unsupportedScript closing) ∧
        g.parseComplete [base, mark, opening, closing, plus] =
          .error (.unsupportedScript closing)) ∧
      (g.parse [base, mark, opening, closing] = .ok ⟨.var "x", 1⟩ ∧
        g.parseComplete [base, mark, opening, closing] =
          .error (.mismatch (.trailingTokens mark))) := by
  intro g base mark opening closing plus
  have hlex : lex "x^\x7b\x7d+" = [base, mark, opening, closing, plus] := by
    rw [Scanner.lex_eq_tokens]
    decide
  obtain ⟨hparse, hfull, _⟩ :=
    emptyScript_ends_parse_iff g base mark opening closing [plus] rfl (.inl rfl) rfl rfl
  obtain ⟨_, _, halone⟩ :=
    emptyScript_ends_parse_iff g base mark opening closing [] rfl (.inl rfl) rfl rfl
  exact ⟨⟨rfl, rfl, rfl, rfl⟩, ⟨hlex, hparse.mpr (List.cons_ne_nil plus []),
    hfull.mpr (List.cons_ne_nil plus [])⟩, halone rfl⟩

/-- Where a text ends with the empty braces of a script, the script is not reported. -/
theorem emptyScript_alone_not_unsupported :
    let g : Grammar := ⟨Command.meaning Command.standard, false⟩
    let ts : List Token := [⟨.var, "x", 0, 1⟩, ⟨.superscript, "^", 1, 2⟩,
      ⟨.argStart, "\x7b", 2, 3⟩, ⟨.argEnd, "\x7d", 3, 4⟩]
    lex "x^\x7b\x7d" = ts ∧ (∀ found, g.parse ts ≠ .error (.unsupportedScript found)) ∧
      ∀ found, g.parseComplete ts ≠ .error (.unsupportedScript found) := by
  intro g ts
  have hs : ShortScript ⟨.var, "x", 0, 1⟩ ⟨.superscript, "^", 1, 2⟩ ⟨.argStart, "\x7b", 2, 3⟩
      [⟨.argEnd, "\x7d", 3, 4⟩] := ⟨rfl, .inl rfl, rfl, Nat.one_lt_two⟩
  have hlex : lex "x^\x7b\x7d" = ts := by
    rw [Scanner.lex_eq_tokens]
    decide
  rw [parse_eq_firstOutcome, parseComplete_eq_fullOutcome, hs.firstOutcome_rules, hs.fullOutcome]
  exact ⟨hlex, by simp, by simp⟩

end MathMarkup.Grammar
