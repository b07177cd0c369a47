import MathMarkup.Proofs.Leaves
import MathMarkup.Proofs.Numerals
import MathMarkup.Proofs.Words

/-!
# Parenthesized markup

A term is written with each operation in parentheses of its own. The scanner yields the words that
the term is made of, in front of any text that goes on with no numeral character, and any tokens
with these words are an atom of the grammar whose tree is the term again. So what a written term
compiles to is the function whose value is the value of the term.
-/

namespace MathMarkup

/-- Digits with at most one point among them and at least one digit. -/
structure Numeral where
  text : String
  shape : ∀ c ∈ text.toList, Token.isNumeral c
  points : text.toList.count '.' ≤ 1
  digit : ∃ c ∈ text.toList, c.isDigit

theorem Numeral.isSome_read? (n : Numeral) : (Decimal.read? n.text).isSome := by
  have h := Decimal.isSome_read?_of_isNumeral n.shape n.points n.digit
  rwa [String.ofList_toList] at h

def Numeral.value (n : Numeral) : Float := (Decimal.read? n.text).get n.isSome_read?

structure Variable where
  letter : Char
  index : Option String
  lower : letter.isLower
  closed : ∀ a ∈ index, a ≠ "" ∧ '\x7d' ∉ a.toList

def Variable.name (v : Variable) : String := String.singleton v.letter ++ v.index.getD ""

inductive Term
  | numeral (n : Numeral)
  | var (v : Variable)
  | binary (op : BinaryOp) (left right : Term)
  | unary (op : UnaryOp) (operand : Term)

/-! ## Markup and meaning -/

def Variable.markup (v : Variable) : String :=
  match v.index with
  | none => String.singleton v.letter
  | some a => String.singleton v.letter ++ "_\x7b" ++ a ++ "\x7d"

def BinaryOp.markup : BinaryOp → String
  | add => "+"
  | multiply => "\\cdot "
  | pow => "^"
  | divide => "\\div "

def UnaryOp.markup : UnaryOp → String
  | sqrt => "\\sqrt "
  | negative => "-"

namespace Term

def markup : Term → String
  | numeral n => n.text
  | var v => v.markup
  | binary op left right => "(" ++ left.markup ++ op.markup ++ right.markup ++ ")"
  | unary op operand => "(" ++ op.markup ++ operand.markup ++ ")"

def names : Term → List String
  | numeral _ => []
  | var v => [v.name]
  | binary _ left right => left.names ++ right.names
  | unary _ operand => operand.names

/-- The value when the variable that stands at place `i` from the left takes the number `arg i`. -/
def value : Term → (Nat → Float) → Float
  | numeral n, _ => n.value
  | var _, arg => arg 0
  | binary op left right, arg =>
    op.apply (left.value arg) (right.value fun i => arg (left.names.length + i))
  | unary op operand, arg => op.apply (operand.value arg)

def tree : Term → Expr
  | numeral n => .number n.value
  | var v => .var v.name
  | binary op left right => .group (.binary op left.tree right.tree)
  | unary op operand => .group (.unary op operand.tree)

end Term

/-! ## Words of a term -/

def Variable.words (v : Variable) : List Word :=
  match v.index with
  | none => [⟨.var, String.singleton v.letter⟩]
  | some a => [⟨.var, String.singleton v.letter⟩, ⟨.subscript, "_"⟩, ⟨.argStart, "\x7b"⟩, ⟨.arg, a⟩,
      ⟨.argEnd, "\x7d"⟩]

def BinaryOp.word : BinaryOp → Word
  | add => ⟨.command, "+"⟩
  | multiply => ⟨.command, "\\cdot"⟩
  | pow => ⟨.superscript, "^"⟩
  | divide => ⟨.command, "\\div"⟩

def UnaryOp.word : UnaryOp → Word
  | sqrt => ⟨.command, "\\sqrt"⟩
  | negative => ⟨.command, "-"⟩

def Term.words : Term → List Word
  | numeral n => [⟨.number, n.text⟩]
  | var v => v.words
  | binary op left right =>
    ⟨.parenLeft, "("⟩ :: ((left.words ++ op.word :: right.words) ++ [⟨.parenRight, ")"⟩])
  | unary op operand => ⟨.parenLeft, "("⟩ :: ((op.word :: operand.words) ++ [⟨.parenRight, ")"⟩])

open Token (isNumeral)

variable {rest : List Char}

theorem Numeral.words_markup (n : Numeral) (h : ∀ c ∈ rest.head?, ¬ isNumeral c) :
    words (n.text.toList ++ rest) = ⟨.number, n.text⟩ :: words rest := by
  obtain ⟨c, hc, _⟩ := n.digit
  rw [words_numeral (List.ne_nil_of_mem hc) n.shape h, String.ofList_toList]

theorem words_open (rest : List Char) : words ('(' :: rest) = ⟨.parenLeft, "("⟩ :: words rest :=
  words_symbol (by decide) (by decide) (by decide) (by decide)

theorem words_close (rest : List Char) : words (')' :: rest) = ⟨.parenRight, ")"⟩ :: words rest :=
  words_symbol (by decide) (by decide) (by decide) (by decide)

theorem Variable.words_markup (v : Variable) (rest : List Char) :
    MathMarkup.words (v.markup.toList ++ rest) = v.words ++ MathMarkup.words rest := by
  rcases v with ⟨letter, index, lower, closed⟩
  cases index with
  | none => simpa [markup, words] using words_letter lower rest
  | some a =>
    obtain ⟨hne, hc⟩ := closed a rfl
    have hraw : a.toList ≠ [] := by simpa using hne
    have hmark : MathMarkup.words ('_' :: '\x7b' :: (a.toList ++ '\x7d' :: rest)) =
        ⟨.subscript, "_"⟩ :: MathMarkup.words ('\x7b' :: (a.toList ++ '\x7d' :: rest)) :=
      words_symbol (by decide) (by decide) (by decide) (by decide)
    simp [markup, words, words_letter lower, hmark, words_braces hraw hc]

theorem BinaryOp.words_markup (op : BinaryOp) (rest : List Char) :
    words (op.markup.toList ++ rest) = op.word :: words rest := by
  cases op with
  | add => exact words_symbol (by decide) (by decide) (by decide) (by decide)
  | multiply =>
    have hname : ['c', 'd', 'o', 't'].all (Token.runsOn '\\') := by decide
    simpa [markup, word] using words_command hname rest
  | pow => exact words_symbol (by decide) (by decide) (by decide) (by decide)
  | divide =>
    have hname : ['d', 'i', 'v'].all (Token.runsOn '\\') := by decide
    simpa [markup, word] using words_command hname rest

theorem UnaryOp.words_markup (op : UnaryOp) (rest : List Char) :
    words (op.markup.toList ++ rest) = op.word :: words rest := by
  cases op with
  | sqrt =>
    have hname : ['s', 'q', 'r', 't'].all (Token.runsOn '\\') := by decide
    simpa [markup, word] using words_command hname rest
  | negative => exact words_symbol (by decide) (by decide) (by decide) (by decide)

theorem BinaryOp.head_markup (op : BinaryOp) (rest : List Char) :
    ∀ c ∈ (op.markup.toList ++ rest).head?, ¬ isNumeral c := by
  cases op <;> simp [markup] <;> decide

theorem head_close (rest : List Char) : ∀ c ∈ (')' :: rest).head?, ¬ isNumeral c := by
  intro c hc
  cases hc
  decide

theorem Term.words_markup (t : Term) (h : ∀ c ∈ rest.head?, ¬ isNumeral c) :
    MathMarkup.words (t.markup.toList ++ rest) = t.words ++ MathMarkup.words rest := by
  -- A left operand is followed by a sign and any other operand by a parenthesis, and neither of
  -- them lengthens a numeral at the end of the operand.
  induction t generalizing rest with
  | numeral n => exact n.words_markup h
  | var v => exact v.words_markup rest
  | binary op l r ihl ihr =>
    have htext : (binary op l r).markup.toList ++ rest =
        '(' :: (l.markup.toList ++ (op.markup.toList ++ (r.markup.toList ++ ')' :: rest))) := by
      simp [markup]
    rw [htext, words_open, ihl (op.head_markup _), op.words_markup, ihr (head_close rest),
      words_close]
    simp [words]
  | unary op x ih =>
    have htext : (unary op x).markup.toList ++ rest =
        '(' :: (op.markup.toList ++ (x.markup.toList ++ ')' :: rest)) := by
      simp [markup]
    rw [htext, words_open, op.words_markup, ih (head_close rest), words_close]
    simp [words]

theorem Term.map_word_lex (t : Term) : (lex t.markup).map Token.word = t.words := by
  have hend : ∀ c ∈ ([] : List Char).head?, ¬ isNumeral c := by simp
  have h := t.words_markup hend
  rwa [List.append_nil, words_nil, List.append_nil, ← MathMarkup.map_word_lex] at h

/-! ## Reading the words -/

variable {ts : List Token} {o : Token} {implicitProducts : Bool}

theorem BinaryOp.kind_word (op : BinaryOp) :
    op.word.kind = .command ∨ op.word.kind = .superscript := by
  cases op <;> decide

theorem BinaryOp.find?_word (op : BinaryOp) :
    Command.standardTrie.find? op.word.text = some (.binary op) := by
  cases op <;> decide

theorem UnaryOp.find?_word (op : UnaryOp) :
    Command.standardTrie.find? op.word.text = some (.unary op) := by
  cases op <;> decide

theorem BinaryOp.isBinary_of_word {op : BinaryOp} (h : o.word = op.word) :
    (Grammar.standard implicitProducts).IsBinary o op := by
  have hk := op.kind_word
  have hm := op.find?_word
  rw [← h] at hk hm
  exact ⟨hk, hm⟩

theorem UnaryOp.isUnary_of_word {op : UnaryOp} (h : o.word = op.word) :
    (Grammar.standard implicitProducts).IsUnary o op := by
  have hk : op.word.kind = .command := by cases op <;> rfl
  have hm := op.find?_word
  rw [← h] at hk hm
  exact ⟨hk, hm⟩

theorem exists_group_of_words {ws : List Word}
    (h : ts.map Token.word = ⟨.parenLeft, "("⟩ :: (ws ++ [⟨.parenRight, ")"⟩])) :
    ∃ opening us closing, ts = opening :: (us ++ [closing]) ∧ opening.kind = .parenLeft ∧
      us.map Token.word = ws ∧ closing.kind = .parenRight := by
  obtain ⟨opening, vs, rfl, ho, hvs⟩ := List.map_eq_cons_iff.mp h
  obtain ⟨us, cs, rfl, hus, hcs⟩ := List.map_eq_append_iff.mp hvs
  obtain ⟨closing, rfl, hc⟩ := List.map_eq_singleton_iff.mp hcs
  exact ⟨opening, us, closing, rfl, congrArg Word.kind ho, hus, congrArg Word.kind hc⟩

theorem braced_of_words {a : String}
    (h : ts.map Token.word = [⟨.argStart, "\x7b"⟩, ⟨.arg, a⟩, ⟨.argEnd, "\x7d"⟩]) :
    Grammar.Braced ts a := by
  obtain ⟨opening, ts, rfl, ho, h⟩ := List.map_eq_cons_iff.mp h
  obtain ⟨raw, ts, rfl, hr, h⟩ := List.map_eq_cons_iff.mp h
  obtain ⟨closing, rfl, hc⟩ := List.map_eq_singleton_iff.mp h
  rw [← show raw.text = a from congrArg Word.text hr]
  exact .mk (congrArg Word.kind ho) (congrArg Word.kind hr) (congrArg Word.kind hc)

theorem Variable.derives (v : Variable) (h : ts.map Token.word = v.words) :
    (Grammar.standard implicitProducts).Derives .atom ts (.var v.name) := by
  rcases v with ⟨letter, index, lower, closed⟩
  cases index with
  | none =>
    obtain ⟨u, rfl, hu⟩ := List.map_eq_singleton_iff.mp h
    have hname : u.text = String.singleton letter ++ "" := by
      rw [String.append_empty]
      exact congrArg Word.text hu
    rw [name, Option.getD_none, ← hname]
    exact .factor (.var (congrArg Word.kind hu))
  | some a =>
    obtain ⟨u, ts, rfl, hu, h⟩ := List.map_eq_cons_iff.mp h
    obtain ⟨mark, xs, rfl, hm, hx⟩ := List.map_eq_cons_iff.mp h
    have hletter : u.text = String.singleton letter := congrArg Word.text hu
    rw [name, Option.getD_some, ← hletter]
    exact .subscript (congrArg Word.kind hu) (congrArg Word.kind hm) (braced_of_words hx)

theorem Term.derives (t : Term) (h : ts.map Token.word = t.words) :
    (Grammar.standard implicitProducts).Derives .atom ts t.tree := by
  induction t generalizing ts with
  | numeral n =>
    obtain ⟨u, rfl, hu⟩ := List.map_eq_singleton_iff.mp h
    have hx : Decimal.read? u.text = some n.value := by
      rw [show u.text = n.text from congrArg Word.text hu, Numeral.value, Option.some_get]
    exact .factor (.number (congrArg Word.kind hu) hx)
  | var v => exact v.derives h
  | binary op l r ihl ihr =>
    obtain ⟨opening, us, closing, rfl, ho, hus, hc⟩ := exists_group_of_words h
    obtain ⟨left, vs, rfl, hleft, hvs⟩ := List.map_eq_append_iff.mp hus
    obtain ⟨o, right, rfl, hop, hright⟩ := List.map_eq_cons_iff.mp hvs
    exact .group ho hc (.ofChain (.chainEnd (ihl hleft) (op.isBinary_of_word hop) (ihr hright)))
  | unary op x ih =>
    obtain ⟨opening, us, closing, rfl, ho, hus, hc⟩ := exists_group_of_words h
    obtain ⟨u, vs, rfl, hop, hvs⟩ := List.map_eq_cons_iff.mp hus
    exact .group ho hc (.ofAtom (.unaryAtom (op.isUnary_of_word hop) (ih hvs)))

/-! ## The compiled function -/

namespace Term

theorem vars_tree (t : Term) : t.tree.vars = t.names := by
  induction t with
  | numeral n => rfl
  | var v => rfl
  | binary op l r ihl ihr => simp only [tree, names, Expr.vars, ihl, ihr]
  | unary op x ih => exact ih

theorem arg_not_mem_tree (t : Term) (raw : String) : Expr.arg raw ∉ t.tree.leaves := by
  induction t with
  | numeral n => simp [tree, Expr.leaves]
  | var v => simp [tree, Expr.leaves]
  | binary op l r ihl ihr => simp [tree, Expr.leaves, ihl, ihr]
  | unary op x ih => exact ih

theorem value_tree (t : Term) (arg : Nat → Float) :
    t.tree.Value ((List.range t.names.length).map arg) (t.value arg) := by
  induction t generalizing arg with
  | numeral n => exact .number
  | var v => exact .var
  | binary op l r ihl ihr =>
    rw [names, List.length_append, List.range_add, List.map_append, List.map_map]
    exact .group (.binary (ihl arg) (ihr _))
  | unary op x ih => exact .group (.unary (ih arg))

end Term

theorem map_getD_range {n : Nat} {args : List Float} (h : args.length = n) :
    (List.range n).map (fun i => args.getD i 0) = args := by
  subst h
  apply List.ext_getElem
  · simp
  · intro i h₁ h₂
    simp [h₂]

/-- A term in its parentheses compiles, its parameters are the names of its variables, and a call
yields its value with the arguments in the places of the variables. -/
theorem compile_markup (t : Term) :
    ∃ f, compile t.markup = .ok f ∧ f.params = t.names ∧
      ∀ args, args.length = t.names.length →
        f.call args = .ok (t.value fun i => args.getD i 0) := by
  have hparse : parse t.markup = .ok t.tree :=
    Grammar.parseComplete_eq_ok.mpr (.ofAtom (t.derives t.map_word_lex))
  obtain ⟨f, hf⟩ := Expr.exists_compile fun raw hr => absurd hr (t.arg_not_mem_tree raw)
  refine ⟨f, compile_eq_ok.mpr ⟨t.tree, hparse, hf⟩, ?_, ?_⟩
  · rw [Function.params_of_compile hf, t.vars_tree]
  · intro args hl
    rw [Function.call_eq_ok hf]
    have hv := t.value_tree fun i => args.getD i 0
    rwa [map_getD_range hl] at hv

theorem compile_markup_product :
    let x : Variable := ⟨'x', some "1", rfl, by decide⟩
    let y : Variable := ⟨'y', none, rfl, by decide⟩
    let t : Term := .binary .multiply (.var x) (.unary .negative (.var y))
    t.markup = "(x_\x7b1\x7d\\cdot (-y))" ∧ ∃ f, compile t.markup = .ok f ∧
      f.params = ["x1", "y"] ∧ f.call [2, 3] = .ok (2 * -3) := by
  intro x y t
  obtain ⟨f, hf, hp, hv⟩ := compile_markup t
  exact ⟨by decide, f, hf, hp.trans (by decide), hv [2, 3] rfl⟩

end MathMarkup
