import MathMarkup.Markup
import MathMarkup.Proofs.Placement

/-!
# Layout does not count

The tokens of a text, put together again with a space behind each command and each number, make up
a text with the same words: wherever two tokens meet that could run into one, the space keeps them
apart. Since what is read depends on the words alone, the two texts stand for the same expression,
or fail in the same way.
-/

namespace MathMarkup

open Token (kindOf? runsOn isNumeral)

def Word.spaced (w : Word) : List Char :=
  if w.kind = .command ∨ w.kind = .number then w.text.toList ++ [' '] else w.text.toList

/-- The tokens of a text in one row, with a space behind each command and each number. -/
def relayout (text : String) : String :=
  String.ofList ((lex text).flatMap fun t => t.word.spaced)

variable {kind : Token.Kind} {c : Char} {cs body : List Char}

theorem runsOn_space (c : Char) : runsOn c ' ' = false := by
  unfold runsOn
  split_ifs
  · decide
  · simp [Token.endsCommand]

theorem isNumeral_eq_false (hc : kindOf? c = some kind) (hk : kind ≠ .number) :
    isNumeral c = false := by
  apply Bool.eq_false_iff.mpr
  intro hn
  have hnumber : kindOf? c = some .number := if_pos hn
  exact hk (Option.some.inj (hc.symm.trans hnumber))

theorem words_spaced_append (hc : kindOf? c = some kind) (hk : kind ≠ .argStart)
    (hb : ∀ d ∈ body, runsOn c d) (rest : List Char) :
    words (Word.spaced ⟨kind, String.ofList (c :: body)⟩ ++ rest) =
      ⟨kind, String.ofList (c :: body)⟩ :: words rest := by
  by_cases hs : kind = .command ∨ kind = .number
  · have hspace : ∀ d ∈ (' ' :: rest).head?, ¬ runsOn c d := by
      intro d hd
      cases hd
      simp [runsOn_space]
    have hskip : words (' ' :: rest) = words rest := words_skip (by decide)
    rw [Word.spaced, if_pos hs, String.toList_ofList, List.append_assoc, List.cons_append,
      List.singleton_append, words_cons hc hk hb hspace, hskip]
  · obtain ⟨hcommand, hnumber⟩ := not_or.mp hs
    have hn := isNumeral_eq_false hc hnumber
    have hback : c ≠ '\\' := by
      rintro rfl
      exact hcommand (by simpa [kindOf?, isNumeral] using hc.symm)
    obtain rfl := (Token.forall_runsOn_iff_nil hn hback).mp hb
    rw [Word.spaced, if_neg hs, String.toList_ofList, List.cons_append, List.nil_append,
      words_symbol hc hk hn hback, String.singleton_eq_ofList]

theorem words_spaced_brace {raw after : List Char} (hraw : '\x7d' ∉ raw)
    (hafter : ∀ d ∈ after.head?, d = '\x7d')
    (ih : words ((words after).flatMap Word.spaced) = words after) :
    words ((words ('\x7b' :: (raw ++ after))).flatMap Word.spaced) =
      words ('\x7b' :: (raw ++ after)) := by
  have hrest : ∀ d ∈ ((words after).flatMap Word.spaced).head?, d = '\x7d' := by
    cases after with
    | nil => simp
    | cons c after =>
      obtain rfl := hafter c rfl
      have hclose : words ('\x7d' :: after) = ⟨.argEnd, "\x7d"⟩ :: words after :=
        words_symbol (by decide) (by decide) (by decide) (by decide)
      simp [hclose, Word.spaced]
  have htext : (words ('\x7b' :: (raw ++ after))).flatMap Word.spaced =
      '\x7b' :: (raw ++ (words after).flatMap Word.spaced) := by
    rw [words_brace hraw hafter]
    split_ifs with hr
    · simp [hr, Word.spaced]
    · simp [Word.spaced]
  rw [htext, words_brace hraw hrest, words_brace hraw hafter, ih]

theorem words_flatMap_spaced (cs : List Char) :
    words ((words cs).flatMap Word.spaced) = words cs := by
  induction hn : cs.length using Nat.strongRecOn generalizing cs with
  | ind n ih =>
    cases cs with
    | nil => simp
    | cons c cs =>
      have shorter : ∀ ds : List Char, ds.length ≤ cs.length →
          words ((words ds).flatMap Word.spaced) = words ds := by
        intro ds hds
        rw [List.length_cons] at hn
        exact ih ds.length (by omega) ds rfl
      cases hc : kindOf? c with
      | none =>
        rw [words_skip hc]
        exact shorter cs (Nat.le_refl _)
      | some kind =>
        by_cases hk : kind = .argStart
        · obtain rfl := Token.eq_of_kindOf?_argStart (hk ▸ hc)
          have hraw : '\x7d' ∉ cs.takeWhile (· ≠ '\x7d') := fun hm => by
            simpa using of_mem_takeWhile hm
          have hafter : ∀ d ∈ (cs.dropWhile (· ≠ '\x7d')).head?, d = '\x7d' := fun d hd => by
            simpa using not_of_mem_head?_dropWhile hd
          have hbrace := words_spaced_brace hraw hafter
            (shorter _ (List.dropWhile_sublist _).length_le)
          rwa [List.takeWhile_append_dropWhile] at hbrace
        · have hcut : c :: cs = c :: (cs.takeWhile (runsOn c) ++ cs.dropWhile (runsOn c)) := by
            rw [List.takeWhile_append_dropWhile]
          have hb : ∀ d ∈ cs.takeWhile (runsOn c), runsOn c d := fun d hd => of_mem_takeWhile hd
          have ha : ∀ d ∈ (cs.dropWhile (runsOn c)).head?, ¬ runsOn c d :=
            fun d hd => not_of_mem_head?_dropWhile hd
          rw [hcut, words_cons hc hk hb ha, List.flatMap_cons, words_spaced_append hc hk hb,
            shorter _ (List.dropWhile_sublist _).length_le]

/-- A text and its tokens put together again have the same words, and stand for the same expression
or fail in the same way, up to the places of the tokens in the failure. -/
theorem parse_relayout (text : String) :
    (lex (relayout text)).map Token.word = (lex text).map Token.word ∧
      (parse (relayout text)).mapError Grammar.Failure.unplaced =
        (parse text).mapError Grammar.Failure.unplaced := by
  have hwords : (lex (relayout text)).map Token.word = (lex text).map Token.word := by
    have htext : (lex text).flatMap (fun t => t.word.spaced) =
        (words text.toList).flatMap Word.spaced := by
      rw [← map_word_lex, List.flatMap_map]
    rw [map_word_lex, map_word_lex, relayout, String.toList_ofList, htext, words_flatMap_spaced]
  exact ⟨hwords, Grammar.parseComplete_of_map_word _ hwords⟩

end MathMarkup
