import MathMarkup.Proofs.Braces
import MathMarkup.Proofs.Failures
import MathMarkup.Proofs.Matching

/-!
# What braces of a text hold

Between braces the scanner yields at most one token, an argument that fills them. So among the tokens
of a text the search for a closing brace never comes to a second opening one, and it only fails where
the text ends inside of the braces. An operator with its braced arguments then takes both of them
whole, or leaves them to other rules.
-/

namespace MathMarkup.Grammar

/-- Behind an opening brace the closing one follows, or an argument that fills the braces does. -/
inductive Holds (opening : Token) : List Token → Split → Prop
  | nothing {closing : Token} {rest : List Token} : closing.kind = .argEnd →
      closing.start = opening.stop → Holds opening (closing :: rest) ⟨[], rest⟩
  | argument {raw closing : Token} {rest : List Token} : raw.kind = .arg →
      raw.start = opening.stop → closing.kind = .argEnd → closing.start = raw.stop →
      Holds opening (raw :: closing :: rest) ⟨[raw], rest⟩

def Unterminated (rest : List Token) : Prop := rest = [] ∨ ∃ raw, raw.kind = .arg ∧ rest = [raw]

variable {g : Grammar} {t opening : Token} {ts rest : List Token} {split : Split}

/-! ## Braces -/

theorem holds_or_unterminated (hc : (opening :: rest).IsChain Token.Adjoins)
    (ho : opening.kind = .argStart) : (∃ split, Holds opening rest split) ∨ Unterminated rest := by
  cases rest with
  | nil => exact .inr (.inl rfl)
  | cons t rest =>
    obtain ⟨hfirst, htail⟩ := List.isChain_cons_cons.mp hc
    obtain ⟨hraw | hclose, hstart⟩ := hfirst.opening ho
    · cases rest with
      | nil => exact .inr (.inr ⟨t, hraw, rfl⟩)
      | cons u rest =>
        obtain ⟨hclose, hstop⟩ := (List.isChain_cons_cons.mp htail).1.argument hraw
        exact .inl ⟨_, .argument hraw hstart hclose hstop⟩
    · exact .inl ⟨_, .nothing hclose hstart⟩

theorem Holds.braces (h : Holds opening rest split) (ho : opening.kind = .argStart) :
    braces (opening :: rest) = .ok split := by
  cases h with
  | nothing hc _ =>
    simp [Grammar.braces, balancedScope, closeScope, ho, hc]
  | argument hr _ hc _ =>
    simp [Grammar.braces, balancedScope, closeScope, closeScope.keep, ho, hr, hc]

theorem Unterminated.braces (h : Unterminated rest) (ho : opening.kind = .argStart) :
    braces (opening :: rest) = .error (.unclosedScope opening) := by
  rcases h with rfl | ⟨raw, hr, rfl⟩
  · simp [Grammar.braces, balancedScope, closeScope, ho]
  · simp [Grammar.braces, balancedScope, closeScope, ho, hr]

theorem braces_eq_ok (hc : (opening :: rest).IsChain Token.Adjoins) (ho : opening.kind = .argStart) :
    braces (opening :: rest) = .ok split ↔ Holds opening rest split := by
  constructor
  · intro h
    rcases holds_or_unterminated hc ho with ⟨split', hs⟩ | hu
    · rw [hs.braces ho] at h
      cases h
      exact hs
    · rw [hu.braces ho] at h
      cases h
  · intro h
    exact h.braces ho

theorem braces_eq_error {reason : Mismatch} (hc : (opening :: rest).IsChain Token.Adjoins)
    (ho : opening.kind = .argStart) :
    braces (opening :: rest) = .error reason ↔
      reason = .unclosedScope opening ∧ Unterminated rest := by
  constructor
  · intro h
    rcases holds_or_unterminated hc ho with ⟨split, hs⟩ | hu
    · rw [hs.braces ho] at h
      cases h
    · rw [hu.braces ho] at h
      cases h
      exact ⟨rfl, hu⟩
  · rintro ⟨rfl, hu⟩
    exact hu.braces ho

theorem length_inside_le_of_braces (hc : ts.IsChain Token.Adjoins) (h : braces ts = .ok split) :
    split.inside.length ≤ 1 := by
  obtain ⟨opening, closing, ho, _, hts⟩ := balancedScope_append h
  generalize split.inside ++ closing :: split.remainder = rest at hts
  subst hts
  cases (braces_eq_ok hc ho).mp h with
  | nothing _ _ => exact Nat.zero_le 1
  | argument _ _ _ _ => exact Nat.le_refl 1

/-! ## Operators with braced arguments -/

def NotTrailing (reason : Mismatch) : Prop := ∀ next, reason ≠ .trailingTokens next

theorem binaryOp_notTrailing (g : Grammar) (t : Token) : FailsOnly NotTrailing (g.binaryOp t) := by
  unfold binaryOp
  split
  · split_ifs
    · exact failsOnly_ok _
    · exact failsOnly_error (by simp [NotTrailing])
  · exact failsOnly_error (by simp [NotTrailing])

theorem braces_notTrailing (ts : List Token) : FailsOnly NotTrailing (braces ts) := by
  intro reason h
  cases uncut_of_error h <;> simp [NotTrailing]

theorem bracedLeaf_notTrailing (h : ts.length ≤ 1) : FailsOnly NotTrailing (bracedLeaf ts) := by
  rcases ts with _ | ⟨raw, _ | ⟨next, rest⟩⟩
  · exact failsOnly_error (by simp [NotTrailing])
  · by_cases hk : raw.kind = .arg
    · rw [bracedLeaf_eq_ok.mpr ⟨raw, rfl, hk, rfl⟩]
      exact failsOnly_ok _
    · have hleaf : bracedLeaf [raw] = .error (.unexpectedToken .arg raw) := by
        simp [bracedLeaf, argLeaf, hk]
      rw [hleaf]
      exact failsOnly_error (by simp [NotTrailing])
  · simp at h

theorem bracketBinary_notTrailing (g : Grammar) (hc : ts.IsChain Token.Adjoins) :
    FailsOnly NotTrailing (g.bracketBinary ts) := by
  cases ts with
  | nil => exact failsOnly_error (by simp [NotTrailing])
  | cons head rest =>
    refine (binaryOp_notTrailing g head).bind fun op _ => ?_
    refine (braces_notTrailing rest).bind fun first hf => ?_
    refine (braces_notTrailing first.remainder).bind fun second hs => ?_
    have hbehind : first.remainder.IsChain Token.Adjoins :=
      List.IsChain.infix hc.tail (infixes_of_balancedScope hf).2
    refine (bracedLeaf_notTrailing (length_inside_le_of_braces hc.tail hf)).bind fun left _ => ?_
    refine (bracedLeaf_notTrailing (length_inside_le_of_braces hbehind hs)).bind fun right _ => ?_
    exact failsOnly_ok _

/-! ## Texts -/

theorem argument_is_opened {input : String} {before after : List Token} {raw : Token}
    (h : lex input = before ++ raw :: after) (hr : raw.kind = .arg) :
    ∃ opening ∈ before.getLast?, opening.kind = .argStart ∧ raw.start = opening.stop := by
  rcases List.eq_nil_or_concat before with rfl | ⟨front, opening, rfl⟩
  · have hhead : raw ∈ (lex input).head? := by
      rw [h]
      rfl
    exact absurd hr (Scanner.kind_ne_arg_of_mem_head? hhead)
  · have hpair : [opening, raw] <:+: lex input := ⟨front, after, by simp [h]⟩
    have hchain : [opening, raw].IsChain Token.Adjoins := List.IsChain.infix (isChain_lex input) hpair
    have hadjoins : opening.Adjoins raw := (List.isChain_cons_cons.mp hchain).1
    have ho := hadjoins.opened hr
    exact ⟨opening, by simp, ho, (hadjoins.opening ho).2⟩

/-- Among the tokens of a text braces hold nothing or one argument that fills them, unless the tokens
end inside of them; an argument stands nowhere else; and an operator never finds tokens left over in
its braces, but takes the two arguments as they are. -/
theorem braces_hold_argument (input : String) :
    (∀ opening rest, opening :: rest <:+: lex input → opening.kind = .argStart →
      (∀ split, braces (opening :: rest) = .ok split ↔ Holds opening rest split) ∧
      ∀ reason, braces (opening :: rest) = .error reason ↔
        reason = .unclosedScope opening ∧ Unterminated rest) ∧
    (∀ before raw after, lex input = before ++ raw :: after → raw.kind = .arg →
      ∃ opening ∈ before.getLast?, opening.kind = .argStart ∧ raw.start = opening.stop) ∧
    ∀ (g : Grammar) (ts : List Token), ts <:+: lex input →
      (∀ next, g.apply (.atom .bracketBinary) ts ≠ .error (.mismatch (.trailingTokens next))) ∧
      ∀ p, g.apply (.atom .bracketBinary) ts = .ok p →
        ∃ o op xs a ys b rest, ts = o :: (xs ++ ys) ++ rest ∧ g.IsBinary o op ∧ Braced xs a ∧
          Braced ys b ∧ p = ⟨.binary op (.arg a) (.arg b), 7⟩ := by
  refine ⟨?_, fun _ _ _ => argument_is_opened, ?_⟩
  · intro opening rest hi ho
    have hc : (opening :: rest).IsChain Token.Adjoins := List.IsChain.infix (isChain_lex input) hi
    exact ⟨fun split => braces_eq_ok hc ho, fun reason => braces_eq_error hc ho⟩
  · intro g ts hi
    have hc : ts.IsChain Token.Adjoins := List.IsChain.infix (isChain_lex input) hi
    rw [apply_eq_outcome, outcome_bracketBinary]
    refine ⟨?_, fun p hp => bracketBinary_eq_ok (lift_eq_ok.mp hp)⟩
    intro next h
    cases hb : g.bracketBinary ts with
    | ok p =>
      rw [hb] at h
      cases h
    | error reason =>
      rw [hb] at h
      cases h
      exact bracketBinary_notTrailing g hc _ hb next rfl

theorem braces_hold_argument_quotient :
    let g : Grammar := ⟨Command.meaning Command.standard, false⟩
    let text : String := "\\frac\x7b1\x7d\x7b2\x7d\x7b3"
    let head : Token := ⟨.command, "\\frac", 0, 5⟩
    let first : Token := ⟨.argStart, "\x7b", 5, 6⟩
    let one : Token := ⟨.arg, "1", 6, 7⟩
    let rest : List Token := [⟨.argEnd, "\x7d", 7, 8⟩, ⟨.argStart, "\x7b", 8, 9⟩,
      ⟨.arg, "2", 9, 10⟩, ⟨.argEnd, "\x7d", 10, 11⟩]
    let last : Token := ⟨.argStart, "\x7b", 11, 12⟩
    let three : Token := ⟨.arg, "3", 12, 13⟩
    let p : Parsed := ⟨.binary .divide (.arg "1") (.arg "2"), 7⟩
    lex text = head :: first :: one :: (rest ++ [last, three]) ∧
      (∃ split, Holds first (one :: (rest ++ [last, three])) split ∧
        braces (first :: one :: (rest ++ [last, three])) = .ok split) ∧
      braces [last, three] = .error (.unclosedScope last) ∧
      (∃ opening ∈ [head, first].getLast?, opening.kind = .argStart ∧ one.start = opening.stop) ∧
      g.apply (.atom .bracketBinary) (lex text) = .ok p ∧
      (∀ next, g.apply (.atom .bracketBinary) (lex text) ≠
        .error (.mismatch (.trailingTokens next))) ∧
      ∃ o op xs a ys b rest, lex text = o :: (xs ++ ys) ++ rest ∧ g.IsBinary o op ∧ Braced xs a ∧
        Braced ys b ∧ p = ⟨.binary op (.arg a) (.arg b), 7⟩ := by
  intro g text head first one rest last three p
  have hlex : lex text = head :: first :: one :: (rest ++ [last, three]) := by
    rw [Scanner.lex_eq_tokens]
    decide
  have hp : g.apply (.atom .bracketBinary) (lex text) = .ok p := by
    rw [hlex]
    exact (apply_eq_outcome _ _).trans (by with_unfolding_all rfl)
  obtain ⟨hbraces, hopened, hreads⟩ := braces_hold_argument text
  have hfirst : first :: one :: (rest ++ [last, three]) <:+: lex text :=
    ⟨[head], [], by rw [hlex]; rfl⟩
  have hlast : [last, three] <:+: lex text :=
    ⟨head :: first :: one :: rest, [], by rw [hlex]; rfl⟩
  have hholds : Holds first (one :: (rest ++ [last, three])) ⟨[one], rest.tail ++ [last, three]⟩ :=
    .argument rfl rfl rfl rfl
  obtain ⟨hnever, htakes⟩ := hreads g _ (List.infix_refl _)
  exact ⟨hlex, ⟨_, hholds, ((hbraces _ _ hfirst rfl).1 _).mpr hholds⟩,
    ((hbraces _ _ hlast rfl).2 _).mpr ⟨rfl, .inr ⟨three, rfl, rfl⟩⟩,
    hopened [head, first] one _ hlex rfl, hp, hnever, htakes p hp⟩

end MathMarkup.Grammar
