import MathMarkup.Proofs.Appending
import MathMarkup.Proofs.Parenthesized

/-!
# Literals in braces and outside

A braced argument is a number exactly if its text, without the blanks around it, is a number token
by itself: digits with at most one point among them and at least one digit. Both are read to the
same value, so a quotient of two literals does not depend on whether it is written with braces or
with an operator between them.
-/

namespace MathMarkup

open Token (kindOf? runsOn isNumeral)

variable {raw : String} {value : Float} {cs : List Char} {c : Char}

/-! ## Reading digits and points -/

namespace Decimal

theorem toLower_of_isNumeral (h : isNumeral c) : c.toLower = c := by
  have hle : c.toNat ≤ 57 := by
    simp only [isNumeral, Bool.or_eq_true, decide_eq_true_eq, Char.isDigit_iff_toNat] at h
    rcases h with ⟨_, hle⟩ | rfl
    · exact hle
    · decide
  have hupper : ¬ (c.val ≥ 'A'.val ∧ c.val ≤ 'Z'.val) := by
    rintro ⟨hge, _⟩
    have hge : 65 ≤ c.toNat := UInt32.le_iff_toNat_le.mp hge
    omega
  exact dif_neg hupper

theorem named?_of_isNumeral (h : ∀ c ∈ cs, isNumeral c) : named? cs = none := by
  have hlower : cs.map Char.toLower = cs := by
    conv_rhs => rw [← List.map_id cs]
    exact List.map_congr_left fun c hc => toLower_of_isNumeral (h c hc)
  have hword : ∀ word : String, word.toList.all isNumeral = false → String.ofList cs ≠ word := by
    rintro _ hw rfl
    rw [String.toList_ofList, List.all_eq_true.mpr h] at hw
    cases hw
  simp [named?, hlower, hword "inf" (by decide), hword "infinity" (by decide),
    hword "nan" (by decide)]

theorem isSome_read?_iff (h : ∀ c ∈ cs, isNumeral c) :
    (read? (String.ofList cs)).isSome ↔ cs.count '.' ≤ 1 ∧ ∃ c ∈ cs, c.isDigit := by
  rw [← isSome_scientific?_iff h]
  cases hs : scientific? cs with
  | none => simp [read?, splitSign_of_isNumeral h, hs, named?_of_isNumeral h]
  | some s => simp [read?, splitSign_of_isNumeral h, hs]

end Decimal

theorem not_isBlank_of_isNumeral (h : isNumeral c) : ¬ Text.isBlank c := by
  intro hb
  have hkind : kindOf? c = some .number := if_pos h
  rw [kindOf?_of_isBlank hb] at hkind
  cases hkind

theorem trim_of_isNumeral (h : ∀ c ∈ raw.toList, isNumeral c) : Text.trim raw = raw := by
  have hdrop : ∀ ds : List Char, (∀ c ∈ ds, isNumeral c) → ds.dropWhile Text.isBlank = ds :=
    fun ds hds => dropWhile_of_stop fun c hc =>
      not_isBlank_of_isNumeral (hds c (List.mem_of_mem_head? hc))
  rw [Text.trim, Text.dropBlankEnd, hdrop _ h, hdrop _ fun c hc => h c (List.mem_reverse.mp hc),
    List.reverse_reverse, String.ofList_toList]

theorem argument?_eq_some :
    argument? raw = some value ↔
      (∀ c ∈ (Text.trim raw).toList, isNumeral c) ∧ Decimal.read? (Text.trim raw) = some value := by
  have hall : (Text.trim raw).toList.all (fun c => c.isDigit || c = '.') =
      (Text.trim raw).toList.all isNumeral := rfl
  unfold argument?
  simp only [hall, String.ofList_toList]
  constructor
  · intro h
    split_ifs at h with hd
    rw [Bool.and_eq_true, List.all_eq_true] at hd
    exact ⟨hd.1, h⟩
  · rintro ⟨hn, hv⟩
    have hsome : (Decimal.read? (String.ofList (Text.trim raw).toList)).isSome := by
      rw [String.ofList_toList, hv]
      rfl
    obtain ⟨_, hdigit⟩ := (Decimal.isSome_read?_iff hn).mp hsome
    rw [if_pos, hv]
    rw [Bool.and_eq_true, List.all_eq_true, List.any_eq_true]
    exact ⟨hn, hdigit⟩

theorem argument?_of_isNumeral (h : ∀ c ∈ raw.toList, isNumeral c) :
    argument? raw = Decimal.read? raw := by
  apply Option.ext
  intro value
  have hiff : argument? raw = some value ↔ _ := argument?_eq_some
  rw [trim_of_isNumeral h] at hiff
  exact hiff.trans (and_iff_right h)

theorem isSome_argument?_iff :
    (argument? raw).isSome ↔ (∀ c ∈ (Text.trim raw).toList, isNumeral c) ∧
      (Text.trim raw).toList.count '.' ≤ 1 ∧ ∃ c ∈ (Text.trim raw).toList, c.isDigit := by
  rw [Option.isSome_iff_exists]
  simp only [argument?_eq_some, exists_and_left]
  refine and_congr_right fun hn => ?_
  rw [← Decimal.isSome_read?_iff hn, String.ofList_toList, Option.isSome_iff_exists]

/-! ## Number tokens -/

def wholeNumber (text : String) : Token := ⟨.number, text, 0, byteLength text.toList⟩

theorem lex_eq_wholeNumber {text : String} :
    lex text = [wholeNumber text] ↔ text ≠ "" ∧ ∀ c ∈ text.toList, isNumeral c := by
  constructor
  · intro h
    have hmem : wholeNumber text ∈ lex text := by simp [h]
    obtain ⟨hne, hshape⟩ : Token.HasShape .number text.toList := hasShape_of_mem_lex hmem rfl
    refine ⟨fun he => hne (by simp [he]), fun c hc => ?_⟩
    simpa [isNumeral] using hshape c hc
  · rintro ⟨hne, hn⟩
    obtain ⟨c, cs, hcs⟩ := List.exists_cons_of_ne_nil (l := text.toList) (by simpa using hne)
    rw [hcs] at hn
    have hc := hn c List.mem_cons_self
    have hall : ∀ d ∈ cs, runsOn c d := fun d hd => by
      rw [Token.runsOn_of_isNumeral hc]
      exact hn d (List.mem_cons_of_mem c hd)
    have hkind : kindOf? c = some .number := if_pos hc
    have hlex : lex text = Scanner.tokensFrom 0 false text.toList := rfl
    rw [hlex, wholeNumber, hcs, Scanner.tokensFrom_take hkind, List.takeWhile_eq_self_iff.mpr hall,
      List.dropWhile_eq_nil_iff.mpr hall, Scanner.tokensFrom_nil, ← hcs, String.ofList_toList,
      Nat.zero_add]

theorem apply_number_eq_ok {g : Grammar} {t : Token} (hk : t.kind = .number) :
    g.apply (.atom .number) [t] = .ok ⟨.number value, 1⟩ ↔ Decimal.read? t.text = some value := by
  rw [Grammar.apply_eq_outcome, Grammar.outcome_number, Grammar.lift_eq_ok]
  constructor
  · intro h
    obtain ⟨u, rest, hts, hleaf, _⟩ := Grammar.firstLeaf_eq_ok h
    cases hts
    obtain ⟨_, x, hx, hvalue⟩ := Grammar.numberLeaf_eq_ok.mp hleaf
    cases hvalue
    exact hx
  · intro h
    exact Grammar.firstLeaf_cons (Grammar.numberLeaf_eq_ok.mpr ⟨hk, value, h, rfl⟩)

theorem ne_empty_of_isSome_read? {text : String} (hn : ∀ c ∈ text.toList, isNumeral c)
    (h : (Decimal.read? text).isSome) : text ≠ "" := by
  rw [← String.ofList_toList (s := text), Decimal.isSome_read?_iff hn] at h
  obtain ⟨_, c, hc, _⟩ := h
  rintro rfl
  cases hc

theorem argument?_iff_number (g : Grammar) :
    argument? raw = some value ↔ lex (Text.trim raw) = [wholeNumber (Text.trim raw)] ∧
      g.apply (.atom .number) [wholeNumber (Text.trim raw)] = .ok ⟨.number value, 1⟩ := by
  rw [argument?_eq_some, lex_eq_wholeNumber, apply_number_eq_ok rfl]
  constructor
  · rintro ⟨hn, hv⟩
    exact ⟨⟨ne_empty_of_isSome_read? hn (by simp [hv]), hn⟩, hv⟩
  · rintro ⟨⟨_, hn⟩, hv⟩
    exact ⟨hn, hv⟩

/-! ## Quotients -/

/-- A text of digits and points, which need not be a number. -/
structure Literal where
  text : String
  shape : ∀ c ∈ text.toList, isNumeral c
  nonempty : text ≠ ""

namespace Literal

def bracedQuotient (a b : Literal) : String :=
  "\\frac\x7b" ++ a.text ++ "\x7d\x7b" ++ b.text ++ "\x7d"

def quotient (a b : Literal) : String := a.text ++ BinaryOp.divide.markup ++ b.text

end Literal

def Constant (text : String) (x : Float) : Prop :=
  ∃ f, compile text = .ok f ∧ f.params = [] ∧ f.call [] = .ok x

def Refused (text : String) : Prop := ∃ reason, compile text = .error reason

/-- A text stands for the quotient of two literals, and compiles only if both are numbers. -/
structure DividesLiterals (a b : Literal) (text : String) : Prop where
  constant : ∀ x y, argument? a.text = some x → argument? b.text = some y → Constant text (x / y)
  numbers : ∀ f, compile text = .ok f → (argument? a.text).isSome ∧ (argument? b.text).isSome

variable {a b : Literal} {text : String} {e : Expr} {x y : Float}

theorem DividesLiterals.agree {text' : String} (h : DividesLiterals a b text)
    (h' : DividesLiterals a b text') :
    (∃ x y, argument? a.text = some x ∧ argument? b.text = some y ∧ Constant text (x / y) ∧
        Constant text' (x / y)) ∨
      (¬((argument? a.text).isSome ∧ (argument? b.text).isSome) ∧ Refused text ∧
        Refused text') := by
  by_cases hread : (argument? a.text).isSome ∧ (argument? b.text).isSome
  · obtain ⟨x, hx⟩ := Option.isSome_iff_exists.mp hread.1
    obtain ⟨y, hy⟩ := Option.isSome_iff_exists.mp hread.2
    exact .inl ⟨x, y, hx, hy, h.constant x y hx hy, h'.constant x y hx hy⟩
  · have hrefused : ∀ s, DividesLiterals a b s → Refused s := by
      intro s hs
      cases hc : compile s with
      | error reason => exact ⟨reason, hc⟩
      | ok f => exact absurd (hs.numbers f hc) hread
    exact .inr ⟨hread, hrefused _ h, hrefused _ h'⟩

theorem constant_of_value (hp : parse text = .ok e)
    (ha : ∀ raw, .arg raw ∈ e.leaves → (argument? raw).isSome) (hv : e.Value [] x) :
    Constant text x := by
  obtain ⟨f, hf⟩ := Expr.exists_compile ha
  refine ⟨f, compile_eq_ok.mpr ⟨e, hp, hf⟩, ?_, (Function.call_eq_ok hf).mpr hv⟩
  rw [Function.params_of_compile hf]
  exact List.eq_nil_of_length_eq_zero hv.length.symm

namespace Literal

theorem ne_nil (a : Literal) : a.text.toList ≠ [] := by
  simpa using a.nonempty

theorem close_not_mem (a : Literal) : '\x7d' ∉ a.text.toList := by
  intro hm
  have hn := a.shape _ hm
  revert hn
  decide

theorem argument?_text (a : Literal) : argument? a.text = Decimal.read? a.text :=
  argument?_of_isNumeral a.shape

/-! ### Braces -/

theorem map_word_lex_bracedQuotient (a b : Literal) :
    (lex (bracedQuotient a b)).map Token.word =
      ⟨.command, "\\frac"⟩ ::
        ([⟨.argStart, "\x7b"⟩, ⟨.arg, a.text⟩, ⟨.argEnd, "\x7d"⟩] ++
          [⟨.argStart, "\x7b"⟩, ⟨.arg, b.text⟩, ⟨.argEnd, "\x7d"⟩]) := by
  have htext : (bracedQuotient a b).toList = '\\' :: (['f', 'r', 'a', 'c'] ++
      '\x7b' :: (a.text.toList ++ '\x7d' :: '\x7b' :: (b.text.toList ++ '\x7d' :: []))) := by
    simp [bracedQuotient]
  have hname : ['f', 'r', 'a', 'c'].all (runsOn '\\') := by decide
  have hkind : kindOf? '\\' = some .command := by decide
  have hstop : ∀ cs : List Char, ∀ c ∈ ('\x7b' :: cs).head?, ¬ runsOn '\\' c := by
    intro cs c hc
    cases hc
    decide
  rw [map_word_lex, htext, words_cons hkind (by decide) (List.all_eq_true.mp hname) (hstop _),
    words_braces a.ne_nil a.close_not_mem, words_braces b.ne_nil b.close_not_mem, words_nil]
  simp

theorem parse_bracedQuotient (a b : Literal) :
    parse (bracedQuotient a b) = .ok (.binary .divide (.arg a.text) (.arg b.text)) := by
  obtain ⟨o, ts, hts, ho, hargs⟩ := List.map_eq_cons_iff.mp (map_word_lex_bracedQuotient a b)
  obtain ⟨xs, ys, rfl, hxs, hys⟩ := List.map_eq_append_iff.mp hargs
  have hfind : Command.standardTrie.find? "\\frac" = some (.binary .divide) := by decide
  have hop : (Grammar.standard false).IsBinary o .divide := by
    have htext : o.text = "\\frac" := congrArg Word.text ho
    rw [← htext] at hfind
    exact ⟨.inl (congrArg Word.kind ho), hfind⟩
  have hd := Grammar.Derives.bracketBinary hop (braced_of_words hxs) (braced_of_words hys)
  rw [← hts] at hd
  exact Grammar.parseComplete_eq_ok.mpr (.ofAtom hd)

theorem isSome_argument?_of_value {op : BinaryOp} {raw raw' : String} {args : List Float}
    (h : (Expr.binary op (.arg raw) (.arg raw')).Value args x) :
    (argument? raw).isSome ∧ (argument? raw').isSome := by
  cases h with
  | binary hl hr =>
    cases hl with
    | arg hx =>
      cases hr with
      | arg hy => exact ⟨by simp [hx], by simp [hy]⟩

theorem dividesLiterals_bracedQuotient (a b : Literal) :
    DividesLiterals a b (bracedQuotient a b) where
  constant x y hx hy := by
    have hargs : ∀ raw, Expr.arg raw ∈ (Expr.binary .divide (.arg a.text) (.arg b.text)).leaves →
        (argument? raw).isSome := by
      simp [Expr.leaves, hx, hy]
    exact constant_of_value (parse_bracedQuotient a b) hargs (.binary (.arg hx) (.arg hy))
  numbers f hf := by
    obtain ⟨e, he, hc⟩ := compile_eq_ok.mp hf
    cases (parse_bracedQuotient a b).symm.trans he
    have hl : ([] : List Float).length = f.params.length := by
      rw [Function.params_of_compile hc]
      rfl
    exact isSome_argument?_of_value (Function.value_of_compile hc hl)

/-! ### An operator between the operands -/

theorem exists_tokens_quotient (a b : Literal) :
    ∃ t o u, lex (quotient a b) = [t, o, u] ∧ t.kind = .number ∧ t.text = a.text ∧
      o.word = BinaryOp.divide.word ∧ u.kind = .number ∧ u.text = b.text := by
  have htext : (quotient a b).toList =
      a.text.toList ++ (BinaryOp.divide.markup.toList ++ (b.text.toList ++ [])) := by
    simp [quotient]
  have hend : ∀ c ∈ ([] : List Char).head?, ¬ isNumeral c := by simp
  have hwords : (lex (quotient a b)).map Token.word =
      [⟨.number, a.text⟩, BinaryOp.divide.word, ⟨.number, b.text⟩] := by
    rw [map_word_lex, htext, words_numeral a.ne_nil a.shape (BinaryOp.divide.head_markup _),
      BinaryOp.words_markup, words_numeral b.ne_nil b.shape hend, words_nil, String.ofList_toList,
      String.ofList_toList]
  obtain ⟨t, ts, hlex, ht, hts⟩ := List.map_eq_cons_iff.mp hwords
  obtain ⟨o, us, rfl, ho, hus⟩ := List.map_eq_cons_iff.mp hts
  obtain ⟨u, rfl, hu⟩ := List.map_eq_singleton_iff.mp hus
  exact ⟨t, o, u, hlex, congrArg Word.kind ht, congrArg Word.text ht, ho, congrArg Word.kind hu,
    congrArg Word.text hu⟩

theorem exists_read?_of_leafSequence {t : Token} {ts : List Token} {es : List Expr}
    (ht : t.kind = .number) (h : Grammar.leafSequence (t :: ts) = some es) :
    (Decimal.read? t.text).isSome ∧ ∃ us, Grammar.leafSequence ts = some us := by
  rw [Grammar.leafSequence, ht] at h
  obtain ⟨x, hx, h⟩ := Option.bind_eq_some_iff.mp h
  obtain ⟨us, hus, _⟩ := Option.bind_eq_some_iff.mp h
  exact ⟨by rw [hx]; rfl, us, hus⟩

theorem dividesLiterals_quotient (a b : Literal) : DividesLiterals a b (quotient a b) := by
  obtain ⟨t, o, u, hlex, ht, hta, ho, hu, hub⟩ := exists_tokens_quotient a b
  constructor
  · intro x y hx hy
    rw [argument?_text, ← hta] at hx
    rw [argument?_text, ← hub] at hy
    have hd : (Grammar.standard false).Derives .chain ([t] ++ o :: [u])
        (.binary .divide (.number x) (.number y)) :=
      .chainEnd (.factor (.number ht hx)) (BinaryOp.isBinary_of_word ho) (.factor (.number hu hy))
    have hp : parse (quotient a b) = .ok (.binary .divide (.number x) (.number y)) := by
      rw [parse, hlex]
      exact Grammar.parseComplete_eq_ok.mpr (.ofChain hd)
    refine constant_of_value hp ?_ (.binary .number .number)
    simp [Expr.leaves]
  · intro f hf
    obtain ⟨e, he, _⟩ := compile_eq_ok.mp hf
    have hleaves := (Grammar.parseComplete_eq_ok.mp he).leafSequence_eq
    have hbare : o.kind ∉ [Token.Kind.number, .var, .arg] := by
      have hk : o.kind = .command := congrArg Word.kind ho
      simp [hk]
    rw [hlex] at hleaves
    obtain ⟨hx, us, hus⟩ := exists_read?_of_leafSequence ht hleaves
    rw [Grammar.leafSequence_bare hbare] at hus
    obtain ⟨hy, _⟩ := exists_read?_of_leafSequence hu hus
    rw [argument?_text, argument?_text, ← hta, ← hub]
    exact ⟨hx, hy⟩

end Literal

/-- An argument is a number exactly if it is a number token without the blanks around it, and has
the value of that token. So two literals have the same quotient in braces and outside, or none if
one of them is no number. -/
theorem literals_read_alike :
    (∀ (g : Grammar) (raw : String) (value : Float), argument? raw = some value ↔
      lex (Text.trim raw) = [wholeNumber (Text.trim raw)] ∧
        g.apply (.atom .number) [wholeNumber (Text.trim raw)] = .ok ⟨.number value, 1⟩) ∧
    (∀ raw : String, (∃ value, argument? raw = some value) ↔
      (∀ c ∈ (Text.trim raw).toList, c.isDigit ∨ c = '.') ∧ (Text.trim raw).toList.count '.' ≤ 1 ∧
        ∃ c ∈ (Text.trim raw).toList, c.isDigit) ∧
    ∀ a b : Literal,
      (∃ x y, argument? a.text = some x ∧ argument? b.text = some y ∧
        Constant (a.bracedQuotient b) (x / y) ∧ Constant (a.quotient b) (x / y)) ∨
      (¬((argument? a.text).isSome ∧ (argument? b.text).isSome) ∧
        Refused (a.bracedQuotient b) ∧ Refused (a.quotient b)) := by
  refine ⟨fun g raw value => argument?_iff_number g, fun raw => ?_, fun a b => ?_⟩
  · rw [← Option.isSome_iff_exists, isSome_argument?_iff]
    simp [isNumeral]
  · exact (a.dividesLiterals_bracedQuotient b).agree (a.dividesLiterals_quotient b)

end MathMarkup
