import MathMarkup.Text
import MathMarkup.Token

/-!
# Scanner

A scanner walks over the markup and yields one token at a time. It never fails: characters that open
no token are passed over, and a token still open where the text ends is yielded as it stands. Inside
braces everything up to the closing brace is one raw argument. Every yielded token shortens what is
left to read, so scanning ends.
-/

namespace MathMarkup

/-- `pos` is the byte offset of `rest` in `input`, and `inArgument` holds just after an opening brace.
`mark` is the offset at which the last number, backslash command or braced text began. -/
structure Scanner where
  input : List Char
  rest : List Char
  pos : Nat
  mark : Nat
  inArgument : Bool
  deriving DecidableEq, Repr

namespace Scanner

def start (input : String) : Scanner :=
  ⟨input.toList, input.toList, 0, 0, false⟩

/-- Reads the token that the character `c` opens at offset `here`, with `cs` after it. A space that
separates a command from what follows is read with it. -/
def take (s : Scanner) (kind : Token.Kind) (here : Nat) (c : Char) (cs : List Char) :
    Token × Scanner :=
  let body := c :: cs.takeWhile (Token.runsOn c)
  let after := cs.dropWhile (Token.runsOn c)
  let stop := here + byteLength body
  let spaced := c = '\\' ∧ after.head? = some ' '
  (⟨kind, String.ofList body, here, stop⟩,
    { s with
      rest := if spaced then after.tail else after
      pos := if spaced then stop + 1 else stop
      mark := if c = '\\' ∨ kind = .number then here else if kind = .argStart then stop else s.mark
      inArgument := kind = .argStart })

def seek (s : Scanner) (here : Nat) : List Char → Option Token × Scanner
  | [] => (none, { s with rest := [], pos := here, inArgument := false })
  | c :: cs =>
    match Token.kindOf? c with
    | none => s.seek (here + c.utf8Size) cs
    | some kind => let (t, s') := s.take kind here c cs; (some t, s')

def braced (s : Scanner) : List Char :=
  if s.inArgument then s.rest.takeWhile (· ≠ '\x7d') else []

/-- The next token and the scanner after it. An empty pair of braces holds no argument. -/
def next (s : Scanner) : Option Token × Scanner :=
  if s.braced = [] then s.seek s.pos s.rest
  else
    let stop := s.pos + byteLength s.braced
    (some ⟨.arg, String.ofList s.braced, s.pos, stop⟩,
      { s with rest := s.rest.drop s.braced.length, pos := stop, inArgument := false })

theorem braced_length_le (s : Scanner) : s.braced.length ≤ s.rest.length := by
  unfold braced
  split
  · exact (List.takeWhile_sublist _).length_le
  · exact Nat.zero_le _

theorem take_rest_length_le (s : Scanner) (kind : Token.Kind) (here : Nat) (c : Char)
    (cs : List Char) : (s.take kind here c cs).2.rest.length ≤ cs.length := by
  have h := (List.dropWhile_sublist (Token.runsOn c) (l := cs)).length_le
  simp only [take]
  split
  · rw [List.length_tail]
    omega
  · exact h

theorem seek_rest_length_lt {s s' : Scanner} {t : Token} {cs : List Char} {here : Nat}
    (h : s.seek here cs = (some t, s')) : s'.rest.length < cs.length := by
  induction cs generalizing here with
  | nil => simp [seek] at h
  | cons c cs ih =>
    simp only [seek] at h
    split at h
    · exact Nat.lt_succ_of_lt (ih h)
    · cases h
      exact Nat.lt_succ_of_le (s.take_rest_length_le _ _ _ _)

theorem next_rest_length_lt {s s' : Scanner} {t : Token} (h : s.next = (some t, s')) :
    s'.rest.length < s.rest.length := by
  unfold next at h
  split at h
  · exact seek_rest_length_lt h
  · rename_i hs
    cases h
    have hb := List.length_pos_iff.mpr hs
    have hr := s.braced_length_le
    simp only [List.length_drop]
    omega

def tokens (s : Scanner) : List Token :=
  match h : s.next with
  | (none, _) => []
  | (some t, s') =>
    have := next_rest_length_lt h
    t :: s'.tokens
termination_by s.rest.length

theorem tokens_eq (s : Scanner) :
    s.tokens = (s.next.1.map fun t => t :: s.next.2.tokens).getD [] := by
  rw [tokens]
  split
  · next h => simp only [h, Option.map_none, Option.getD_none]
  · next h => simp only [h, Option.map_some, Option.getD_some]

/-- An upper bound on the number of tokens still to come, from the offset alone. -/
def sizeBound (s : Scanner) : Nat := byteLength s.input - s.pos + 1

end Scanner

def lex (input : String) : List Token := (Scanner.start input).tokens

end MathMarkup
