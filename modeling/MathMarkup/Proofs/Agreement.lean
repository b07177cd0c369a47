import MathMarkup.Proofs.Memory

/-!
# Reading all tokens and reading a beginning

The same rules in the same order read a beginning of the tokens or all of them. The first search
stops at the first rule that succeeds; the second goes on past a rule that leaves tokens over, and
keeps the first token that was left. So the two fail together, and what the second one can report
beyond that is a token that the first one left over, or a script that ends the whole parse.
-/

namespace MathMarkup.Grammar

variable {g : Grammar} {ts : List Token} {rules : List Rule} {otherwise : Mismatch} {ρ : Type}
  {rule : ρ → Rule} {rs : List ρ}

/-- What a search for all tokens can yield after a rule has left some over, `next` the first. -/
def AfterLeftOver (next : Token) (found : Except Failure Expr) : Prop :=
  (∃ e, found = .ok e) ∨ (∃ t, found = .error (.unsupportedScript t)) ∨
    found = .error (.mismatch (.trailingTokens next))

/-! ## The two searches over one list of rules -/

theorem completeOutcome_of_trailing (next : Token) (rules : List Rule) :
    AfterLeftOver next (g.completeOutcome ts otherwise (some next) rules) := by
  induction rules with
  | nil => exact .inr (.inr rfl)
  | cons r rules ih =>
    rw [completeOutcome_cons]
    rcases g.outcome r ts with (_ | t) | p
    · exact ih
    · exact .inr (.inl ⟨t, rfl⟩)
    · cases hrest : p.rest ts with
      | nil => exact .inl ⟨p.expr, by simp only [hrest]⟩
      | cons u more =>
        -- Only the first token that was left over is kept.
        simpa only [hrest, Option.some_or] using ih

theorem completeOutcome_of_left {p : Parsed} {next : Token} {more : List Token}
    (h : g.firstOutcome id rules ts = .ok p) (hrest : p.rest ts = next :: more) :
    AfterLeftOver next (g.completeOutcome ts otherwise none rules) := by
  have ht : ts ≠ [] := by
    rintro rfl
    cases h
  induction rules with
  | nil =>
    obtain ⟨first, rest, rfl⟩ := List.exists_cons_of_ne_nil ht
    cases h
  | cons r rules ih =>
    rw [firstOutcome_cons ht] at h
    rw [completeOutcome_cons]
    split at h
    · rename_i reason hr
      rw [id_eq] at hr
      rw [hr]
      exact ih h
    · rw [id_eq] at h
      simp only [h, hrest, Option.none_or]
      exact completeOutcome_of_trailing next rules

theorem completeOutcome_of_error {first : Token} {rest : List Token} {failure : Failure}
    (h : g.firstOutcome id rules (first :: rest) = .error failure) :
    g.completeOutcome (first :: rest) (.noRuleMatched first) none rules = .error failure := by
  induction rules with
  | nil =>
    cases h
    rfl
  | cons r rules ih =>
    rw [firstOutcome_cons (List.cons_ne_nil first rest)] at h
    rw [completeOutcome_cons]
    split at h
    · rename_i reason hr
      rw [id_eq] at hr
      rw [hr]
      exact ih h
    · rename_i hr
      rw [id_eq] at h
      cases failure with
      | mismatch reason => exact absurd h (hr reason)
      | unsupportedScript t => rw [h]

theorem firstOutcome_error_cases {failure : Failure}
    (h : g.firstOutcome rule rs ts = .error failure) :
    (ts = [] ∧ failure = .mismatch .emptyInput) ∨
      (∃ first rest, ts = first :: rest ∧ failure = .mismatch (.noRuleMatched first)) ∨
      ∃ found r, r ∈ rs ∧ g.outcome (rule r) ts = .error (.unsupportedScript found) ∧
        failure = .unsupportedScript found := by
  cases ts with
  | nil =>
    cases h
    exact .inl ⟨rfl, rfl⟩
  | cons first rest =>
    induction rs with
    | nil =>
      cases h
      exact .inr (.inl ⟨first, rest, rfl, rfl⟩)
    | cons r rs ih =>
      rw [firstOutcome_cons (List.cons_ne_nil first rest)] at h
      split at h
      · rcases ih h with hnil | hfirst | ⟨t, s, hs, ho, hf⟩
        · exact .inl hnil
        · exact .inr (.inl hfirst)
        · exact .inr (.inr ⟨t, s, List.mem_cons_of_mem r hs, ho, hf⟩)
      · rename_i hr
        cases failure with
        | mismatch reason => exact absurd h (hr reason)
        | unsupportedScript t => exact .inr (.inr ⟨t, r, List.mem_cons_self, h, rfl⟩)

theorem exists_of_unsupportedScript {trailing : Option Token} {found : Token}
    (h : g.completeOutcome ts otherwise trailing rules = .error (.unsupportedScript found)) :
    ∃ r ∈ rules, g.outcome r ts = .error (.unsupportedScript found) := by
  induction rules generalizing trailing with
  | nil => cases h
  | cons r rules ih =>
    have later : ∀ {tr : Option Token},
        g.completeOutcome ts otherwise tr rules = .error (.unsupportedScript found) →
        ∃ s ∈ r :: rules, g.outcome s ts = .error (.unsupportedScript found) := by
      intro tr hl
      obtain ⟨s, hs, ho⟩ := ih hl
      exact ⟨s, List.mem_cons_of_mem r hs, ho⟩
    rw [completeOutcome_cons] at h
    rcases ho : g.outcome r ts with (reason | t) | p
    · rw [ho] at h
      exact later h
    · rw [ho] at h
      cases h
      exact ⟨r, List.mem_cons_self, ho⟩
    · rw [ho] at h
      cases hrest : p.rest ts with
      | nil => simp [hrest] at h
      | cons next more =>
        simp only [hrest] at h
        exact later h

/-! ## Whole parses -/

theorem fullOutcome_of_error {failure : Failure}
    (h : g.firstOutcome id g.rules ts = .error failure) : g.fullOutcome ts = .error failure := by
  cases ts with
  | nil =>
    cases h
    rfl
  | cons first rest => exact completeOutcome_of_error h

theorem fullOutcome_of_whole {p : Parsed} (h : g.firstOutcome id g.rules ts = .ok p)
    (hrest : p.rest ts = []) : g.fullOutcome ts = .ok p.expr := by
  cases ts with
  | nil => cases h
  | cons first rest => exact completeOutcome_of_firstOutcome h hrest

theorem fullOutcome_of_left {p : Parsed} {next : Token} {more : List Token}
    (h : g.firstOutcome id g.rules ts = .ok p) (hrest : p.rest ts = next :: more) :
    AfterLeftOver next (g.fullOutcome ts) := by
  cases ts with
  | nil => cases h
  | cons first rest => exact completeOutcome_of_left h hrest

theorem exists_of_fullOutcome_unsupportedScript {found : Token}
    (h : g.fullOutcome ts = .error (.unsupportedScript found)) :
    ∃ r ∈ g.rules, g.outcome r ts = .error (.unsupportedScript found) := by
  cases ts with
  | nil => cases h
  | cons first rest => exact exists_of_unsupportedScript h

theorem fullOutcome_of_passes {p : Parsed} {next : Token} {more : List Token}
    (hpass : ∀ r ∈ g.rules, g.Passes r ts) (h : g.firstOutcome id g.rules ts = .ok p)
    (hrest : p.rest ts = next :: more) :
    g.fullOutcome ts = .error (.mismatch (.trailingTokens next)) := by
  rcases fullOutcome_of_left h hrest with ⟨e, he⟩ | ⟨found, hs⟩ | hn
  · obtain ⟨r, hr, q, hq, hall, _⟩ := exists_of_fullOutcome he
    rcases hpass r hr with ⟨reason, ho⟩ | ⟨q', ho, hleft⟩
    · cases ho.symm.trans hq
    · cases ho.symm.trans hq
      exact absurd hall hleft
  · obtain ⟨r, hr, hend⟩ := exists_of_fullOutcome_unsupportedScript hs
    rcases hpass r hr with ⟨reason, ho⟩ | ⟨q, ho, _⟩
    · cases ho.symm.trans hend
    · cases ho.symm.trans hend
  · exact hn

theorem fullOutcome_error_cases {failure : Failure} (h : g.fullOutcome ts = .error failure) :
    g.firstOutcome id g.rules ts = .error failure ∨
      (∃ p next more, g.firstOutcome id g.rules ts = .ok p ∧ p.rest ts = next :: more ∧
        failure = .mismatch (.trailingTokens next)) ∨
      ∃ found r, r ∈ g.rules ∧ g.outcome r ts = .error (.unsupportedScript found) ∧
        failure = .unsupportedScript found := by
  cases hp : g.firstOutcome id g.rules ts with
  | error reason =>
    rw [fullOutcome_of_error hp] at h
    cases h
    exact .inl rfl
  | ok p =>
    cases hrest : p.rest ts with
    | nil =>
      rw [fullOutcome_of_whole hp hrest] at h
      cases h
    | cons next more =>
      rcases fullOutcome_of_left hp hrest with ⟨e, he⟩ | ⟨t, ht⟩ | hn
      · rw [he] at h
        cases h
      · obtain ⟨r, hr, ho⟩ := exists_of_fullOutcome_unsupportedScript ht
        rw [ht] at h
        cases h
        exact .inr (.inr ⟨t, r, hr, ho, rfl⟩)
      · rw [hn] at h
        cases h
        exact .inr (.inl ⟨p, next, more, rfl, hrest, rfl⟩)

/-- Reading a beginning and reading all tokens agree. Where the first reads all, so does the second,
with the same tree. Where the first leaves tokens over, the second reads all by another rule, ends at
a script, or names the first token left over. They fail together and alike. Apart from that token,
all that the second ever reports is that there are no tokens, that no rule matched at the first one,
or a script that ends the parse. -/
theorem parseComplete_agrees (g : Grammar) (ts : List Token) :
    (∀ p, g.parse ts = .ok p → p.rest ts = [] → g.parseComplete ts = .ok p.expr) ∧
    (∀ p next more, g.parse ts = .ok p → p.rest ts = next :: more →
      (∃ e, g.parseComplete ts = .ok e) ∨
        (∃ found, g.parseComplete ts = .error (.unsupportedScript found)) ∨
        g.parseComplete ts = .error (.mismatch (.trailingTokens next))) ∧
    (∀ failure, g.parse ts = .error failure → g.parseComplete ts = .error failure) ∧
    (∀ e, g.parseComplete ts = .ok e → ∃ p, g.parse ts = .ok p) ∧
    (g.parseComplete ts = .error (.mismatch .emptyInput) ↔ ts = []) ∧
    ∀ failure, g.parseComplete ts = .error failure →
      failure = .mismatch .emptyInput ∨
        (∃ p next more, g.parse ts = .ok p ∧ p.rest ts = next :: more ∧
          failure = .mismatch (.trailingTokens next)) ∨
        (∃ first rest, ts = first :: rest ∧ failure = .mismatch (.noRuleMatched first)) ∨
        ∃ found, failure = .unsupportedScript found := by
  rw [parse_eq_firstOutcome, parseComplete_eq_fullOutcome]
  refine ⟨fun p hp hrest => fullOutcome_of_whole hp hrest,
    fun p next more hp hrest => fullOutcome_of_left hp hrest,
    fun failure hf => fullOutcome_of_error hf, ?_, ?_, ?_⟩
  · intro e he
    cases hp : g.firstOutcome id g.rules ts with
    | ok p => exact ⟨p, rfl⟩
    | error failure =>
      rw [fullOutcome_of_error hp] at he
      cases he
  · constructor
    · intro he
      rcases fullOutcome_error_cases he with hp | ⟨_, _, _, _, _, ⟨⟩⟩ | ⟨_, _, _, _, ⟨⟩⟩
      rcases firstOutcome_error_cases hp with ⟨rfl, _⟩ | ⟨_, _, _, ⟨⟩⟩ | ⟨_, _, _, _, ⟨⟩⟩
      rfl
    · rintro rfl
      rfl
  · intro failure hf
    rcases fullOutcome_error_cases hf with hp | hleft | ⟨found, _, _, _, hs⟩
    · rcases firstOutcome_error_cases hp with ⟨_, rfl⟩ | hfirst | ⟨found, _, _, _, hs⟩
      · exact .inl rfl
      · exact .inr (.inr (.inl hfirst))
      · exact .inr (.inr (.inr ⟨found, hs⟩))
    · exact .inr (.inl hleft)
    · exact .inr (.inr (.inr ⟨found, hs⟩))

theorem parseComplete_agrees_group :
    let g : Grammar := ⟨Command.meaning Command.standard, false⟩
    let group : List Token := [⟨.parenLeft, "(", 0, 1⟩, ⟨.var, "x", 1, 2⟩, ⟨.parenRight, ")", 2, 3⟩]
    let plus : Token := ⟨.command, "+", 3, 4⟩
    let y : Token := ⟨.var, "y", 4, 5⟩
    let p : Parsed := ⟨.group (.var "x"), 3⟩
    (g.parse group = .ok p ∧ p.rest group = [] ∧ g.parseComplete group = .ok p.expr) ∧
      (g.parse (group ++ [plus]) = .ok p ∧ p.rest (group ++ [plus]) = [plus] ∧
        g.parseComplete (group ++ [plus]) = .error (.mismatch (.trailingTokens plus))) ∧
      (g.parseComplete (group ++ [plus, y]) = .ok (.binary .add p.expr (.var "y")) ∧
        ∃ q, g.parse (group ++ [plus, y]) = .ok q) ∧
      (g.parse [plus, y] = .error (.mismatch (.noRuleMatched plus)) ∧
        g.parseComplete [plus, y] = .error (.mismatch (.noRuleMatched plus)) ∧
        ∃ first rest, [plus, y] = first :: rest ∧ plus = first) := by
  intro g group plus y p
  have hgroup : g.parse group = .ok p := (parse_eq_firstOutcome _).trans (by with_unfolding_all rfl)
  have hleft : g.parse (group ++ [plus]) = .ok p :=
    (parse_eq_firstOutcome _).trans (by with_unfolding_all rfl)
  have hsum : g.parseComplete (group ++ [plus, y]) = .ok (.binary .add p.expr (.var "y")) :=
    (parseComplete_eq_fullOutcome _).trans (by with_unfolding_all rfl)
  have hnone : g.parse [plus, y] = .error (.mismatch (.noRuleMatched plus)) :=
    (parse_eq_firstOutcome _).trans (by with_unfolding_all rfl)
  have hfail := (parseComplete_agrees g [plus, y]).2.2.1 _ hnone
  refine ⟨⟨hgroup, rfl, (parseComplete_agrees g group).1 p hgroup rfl⟩, ⟨hleft, rfl, ?_⟩,
    ⟨hsum, (parseComplete_agrees g _).2.2.2.1 _ hsum⟩, hnone, hfail, ?_⟩
  · -- Of the outcomes that the leftover operator allows, a tree and a script are not the case.
    have hfull : g.fullOutcome (group ++ [plus]) = .error (.mismatch (.trailingTokens plus)) := by
      with_unfolding_all rfl
    rcases (parseComplete_agrees g _).2.1 p plus [] hleft rfl with ⟨e, he⟩ | ⟨t, ht⟩ | hn
    · rw [parseComplete_eq_fullOutcome, hfull] at he
      cases he
    · rw [parseComplete_eq_fullOutcome, hfull] at ht
      cases ht
    · exact hn
  · rcases (parseComplete_agrees g _).2.2.2.2.2 _ hfail with
      ⟨⟨⟩⟩ | ⟨_, _, _, _, _, ⟨⟩⟩ | ⟨first, rest, hs, ⟨⟩⟩ | ⟨_, ⟨⟩⟩
    exact ⟨plus, rest, hs, rfl⟩

end MathMarkup.Grammar
