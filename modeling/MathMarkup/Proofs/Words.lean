import MathMarkup.Proofs.MaximalMunch

/-!
# Words of a text

A word is a token without its place in the text. Which words a scanner yields depends only on the
text ahead of it, so the words of a text can be read off piece by piece: each piece that is a whole
token yields its word, and then come the words of the text behind it.
-/

namespace MathMarkup

structure Word where
  kind : Token.Kind
  text : String
  deriving DecidableEq, Repr

def Token.word (t : Token) : Word := ⟨t.kind, t.text⟩

def words (cs : List Char) : List Word := (lex (String.ofList cs)).map Token.word

theorem map_word_lex (text : String) : (lex text).map Token.word = words text.toList := by
  rw [words, String.ofList_toList]

open Token (kindOf? runsOn isNumeral)

namespace Scanner

variable {s s' : Scanner} {t : Token}

def ahead (s : Scanner) : List Char × Bool := (s.rest, s.inArgument)

def bareStep (r : Option Token × Scanner) : Option Word × List Char × Bool :=
  (r.1.map Token.word, r.2.ahead)

theorem bareStep_seek (s s' : Scanner) (here here' : Nat) (cs : List Char) :
    bareStep (s.seek here cs) = bareStep (s'.seek here' cs) := by
  induction cs generalizing here here' with
  | nil => rfl
  | cons c cs ih =>
    simp only [seek]
    split
    · exact ih _ _
    · rfl

theorem bareStep_next (h : s.ahead = s'.ahead) : bareStep s.next = bareStep s'.next := by
  obtain ⟨hr, ha⟩ := Prod.mk.inj h
  have hb : s.braced = s'.braced := by rw [braced, braced, hr, ha]
  unfold next
  rw [← hb, ← hr]
  split
  · exact s.bareStep_seek s' _ _ _
  · rfl

theorem map_word_of_next (h : s.next = (some t, s')) :
    s.tokens.map Token.word = t.word :: s'.tokens.map Token.word := by
  rw [tokens_eq, h]
  rfl

theorem words_of_next (h : bareStep s.next = bareStep s'.next) :
    s.tokens.map Token.word = s'.tokens.map Token.word := by
  induction hn : s.rest.length using Nat.strongRecOn generalizing s s' with
  | ind n ih =>
    obtain ⟨o, r, hs⟩ : ∃ o r, s.next = (o, r) := ⟨_, _, rfl⟩
    obtain ⟨o', r', hs'⟩ : ∃ o r, s'.next = (o, r) := ⟨_, _, rfl⟩
    rw [hs, hs'] at h
    obtain ⟨hw, hr⟩ := Prod.mk.inj h
    rw [tokens_eq s, tokens_eq s', hs, hs']
    cases o with
    | none =>
      have ho : o' = none := Option.map_eq_none_iff.mp hw.symm
      rw [ho]
      rfl
    | some t =>
      obtain ⟨t', rfl, ht⟩ := Option.map_eq_some_iff.mp hw.symm
      have hlt := next_rest_length_lt hs
      have hrest := ih r.rest.length (by omega) (bareStep_next hr) rfl
      simp only [Option.map_some, Option.getD_some, List.map_cons, ht, hrest]

theorem words_of_outside (h : s.inArgument = false) :
    s.tokens.map Token.word = words s.rest := by
  apply words_of_next
  apply bareStep_next
  simp only [ahead, start, h, String.toList_ofList]

theorem next_start (cs : List Char) :
    (start (String.ofList cs)).next = (start (String.ofList cs)).seek 0 cs := by
  simp [next, start, braced]

end Scanner

open Scanner

variable {kind : Token.Kind} {c : Char} {cs body after raw : List Char}

@[simp] theorem words_nil : words [] = [] := by
  rw [words, lex, tokens_eq, next_start]
  rfl

theorem words_skip (hc : kindOf? c = none) : words (c :: cs) = words cs := by
  apply words_of_next
  rw [next_start, next_start, seek, hc]
  exact bareStep_seek _ _ _ _ _

theorem exists_next_cons (hc : kindOf? c = some kind) (hb : ∀ d ∈ body, runsOn c d)
    (ha : ∀ d ∈ after.head?, ¬ runsOn c d) :
    ∃ t s, (start (String.ofList (c :: (body ++ after)))).next = (some t, s) ∧
      t.word = ⟨kind, String.ofList (c :: body)⟩ ∧
      s.rest = (if c = '\\' ∧ after.head? = some ' ' then after.tail else after) ∧
      s.inArgument = decide (kind = .argStart) := by
  refine ⟨_, _, by rw [next_start, seek, hc], ?_, ?_, rfl⟩
  · simp only [take, Token.word, takeWhile_append_of_stop hb ha]
  · simp only [take, dropWhile_append_of_stop hb ha]

/-- A whole token, in front of what it does not run on over. -/
theorem words_cons (hc : kindOf? c = some kind) (hk : kind ≠ .argStart)
    (hb : ∀ d ∈ body, runsOn c d) (ha : ∀ d ∈ after.head?, ¬ runsOn c d) :
    words (c :: (body ++ after)) = ⟨kind, String.ofList (c :: body)⟩ :: words after := by
  obtain ⟨t, s, hs, ht, hr, hi⟩ := exists_next_cons hc hb ha
  have hout : s.inArgument = false := by simp [hi, hk]
  have hrest : words s.rest = words after := by
    rw [hr]
    split
    · next hsp =>
      -- The space that is read with a command would be passed over anyway.
      obtain ⟨ds, rfl⟩ := List.head?_eq_some_iff.mp hsp.2
      exact (words_skip (by decide)).symm
    · rfl
  rw [words, lex, map_word_of_next hs, ht, words_of_outside hout, hrest]

theorem not_runsOn_of_symbol (hn : isNumeral c = false) (hb : c ≠ '\\') (after : List Char) :
    ∀ d ∈ after.head?, ¬ runsOn c d := by
  intro d _
  rw [Token.runsOn_eq_false hn hb]
  exact Bool.false_ne_true

theorem words_symbol (hc : kindOf? c = some kind) (hk : kind ≠ .argStart)
    (hn : isNumeral c = false) (hb : c ≠ '\\') :
    words (c :: cs) = ⟨kind, String.singleton c⟩ :: words cs := by
  have hbody : ∀ d ∈ ([] : List Char), runsOn c d := by simp
  have h := words_cons hc hk hbody (not_runsOn_of_symbol hn hb cs)
  rwa [← String.singleton_eq_ofList] at h

theorem words_letter (h : c.isLower) (cs : List Char) :
    words (c :: cs) = ⟨.var, String.singleton c⟩ :: words cs := by
  have hn := Token.not_numeral_of_isLower h
  have hkind : kindOf? c = some .var := by simp [kindOf?, hn, h]
  refine words_symbol hkind (by decide) hn ?_
  rintro rfl
  cases h

theorem words_numeral (hcs : cs ≠ []) (h : ∀ d ∈ cs, isNumeral d)
    (ha : ∀ d ∈ after.head?, ¬ isNumeral d) :
    words (cs ++ after) = ⟨.number, String.ofList cs⟩ :: words after := by
  obtain ⟨c, body, rfl⟩ := List.exists_cons_of_ne_nil hcs
  have hc : isNumeral c := h c List.mem_cons_self
  have hkind : kindOf? c = some .number := by simp [kindOf?, hc]
  refine words_cons hkind (by decide) ?_ ?_
  · intro d hd
    rw [Token.runsOn_of_isNumeral hc]
    exact h d (List.mem_cons_of_mem c hd)
  · intro d hd
    rw [Token.runsOn_of_isNumeral hc]
    exact ha d hd

theorem words_command {name : List Char} (hn : name.all (runsOn '\\')) (cs : List Char) :
    words ('\\' :: (name ++ ' ' :: cs)) = ⟨.command, String.ofList ('\\' :: name)⟩ :: words cs := by
  have hspace : ∀ d ∈ (' ' :: cs).head?, ¬ runsOn '\\' d := by
    intro d hd
    cases hd
    decide
  have hkind : kindOf? '\\' = some .command := by decide
  have hskip : words (' ' :: cs) = words cs := words_skip (by decide)
  rw [words_cons hkind (by decide) (List.all_eq_true.mp hn) hspace, hskip]

theorem map_word_of_inArgument {s : Scanner} (ha : s.inArgument = true)
    (hs : s.rest = raw ++ after) (hr : raw ≠ []) (hc : '\x7d' ∉ raw)
    (hend : ∀ d ∈ after.head?, d = '\x7d') :
    s.tokens.map Token.word = ⟨.arg, String.ofList raw⟩ :: words after := by
  have hraw : ∀ d ∈ raw, decide (d ≠ '\x7d') := by
    intro d hd
    refine decide_eq_true fun he => hc ?_
    rwa [← he]
  have hbraced : s.braced = raw := by
    rw [braced, if_pos ha, hs]
    exact takeWhile_append_of_stop hraw fun d hd => by simp [hend d hd]
  have hnext : s.next = (some ⟨.arg, String.ofList raw, s.pos, s.pos + byteLength raw⟩,
      { s with rest := after, pos := s.pos + byteLength raw, inArgument := false }) := by
    rw [next, hbraced, if_neg hr, hs, List.drop_left]
  rw [map_word_of_next hnext, words_of_outside rfl]
  rfl

theorem map_word_of_empty {s : Scanner} (ha : s.inArgument = true)
    (hend : ∀ d ∈ s.rest.head?, d = '\x7d') : s.tokens.map Token.word = words s.rest := by
  apply words_of_next
  have hbraced : s.braced = [] := by
    rw [braced, if_pos ha]
    cases hs : s.rest with
    | nil => rfl
    | cons d cs =>
      rw [hs] at hend
      simp [hend d rfl]
  rw [next_start, next, if_pos hbraced]
  exact bareStep_seek _ _ _ _ _

theorem words_brace (hc : '\x7d' ∉ raw) (hend : ∀ d ∈ after.head?, d = '\x7d') :
    words ('\x7b' :: (raw ++ after)) = ⟨.argStart, "\x7b"⟩ ::
      (if raw = [] then words after else ⟨.arg, String.ofList raw⟩ :: words after) := by
  have hkind : kindOf? '\x7b' = some .argStart := by decide
  have hbody : ∀ d ∈ ([] : List Char), runsOn '\x7b' d := by simp
  obtain ⟨t, s, hs, ht, hrest, hin⟩ := exists_next_cons hkind hbody
    (not_runsOn_of_symbol (by decide) (by decide) (raw ++ after))
  rw [if_neg (by simp)] at hrest
  rw [List.nil_append] at hs
  rw [words, lex, map_word_of_next hs, ht]
  split_ifs with hr
  · rw [hr, List.nil_append] at hrest
    rw [map_word_of_empty hin (hrest ▸ hend), hrest]
  · rw [map_word_of_inArgument hin hrest hr hc hend]

theorem words_braces (hr : raw ≠ []) (hc : '\x7d' ∉ raw) :
    words ('\x7b' :: (raw ++ '\x7d' :: cs)) =
      ⟨.argStart, "\x7b"⟩ :: ⟨.arg, String.ofList raw⟩ :: ⟨.argEnd, "\x7d"⟩ :: words cs := by
  have hclose : words ('\x7d' :: cs) = ⟨.argEnd, "\x7d"⟩ :: words cs :=
    words_symbol (by decide) (by decide) (by decide) (by decide)
  rw [words_brace hc (by simp), if_neg hr, hclose]

end MathMarkup
