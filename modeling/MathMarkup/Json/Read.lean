import MathMarkup.Json
import MathMarkup.Text

/-!
# Reading JSON

A text is read strictly from left to right, and the first fault decides. Every reader leaves less
than it was given, and the brackets that may still open are counted down, so that reading ends. What
an object or an array asks of its parts can be decided while they are read.
-/

namespace MathMarkup.Json

/-- A text breaks the rules of the format, ends too early, or holds something else than is wanted. -/
inductive Fault
  | malformed | truncated | unfit
  deriving DecidableEq, Repr

structure Reading (α : Type) (cs : List Char) where
  value : α
  rest : List Char
  shorter : rest.length < cs.length

abbrev Reader (α : Type) := (cs : List Char) → Except Fault (Reading α cs)

def Reading.widen {α : Type} {cs ds : List Char} (r : Reading α cs) (h : cs.length ≤ ds.length) :
    Reading α ds :=
  ⟨r.value, r.rest, Nat.lt_of_lt_of_le r.shorter h⟩

def Reading.map {α β : Type} {cs : List Char} (f : α → β) (r : Reading α cs) : Reading β cs :=
  ⟨f r.value, r.rest, r.shorter⟩

def isBlank (c : Char) : Bool := c = ' ' || c = '\t' || c = '\n' || c = '\r'

def skip (cs : List Char) : List Char := cs.dropWhile isBlank

theorem skip_length_le (cs : List Char) : (skip cs).length ≤ cs.length :=
  (List.dropWhile_sublist _).length_le

theorem length_le_of_skip_eq {cs rest : List Char} (h : skip cs = rest) : rest.length ≤ cs.length :=
  h ▸ skip_length_le cs

/-! ## Strings -/

def hexValue? (c : Char) : Option Nat :=
  if c.isDigit then some (c.toNat - '0'.toNat)
  else if 'a' ≤ c ∧ c ≤ 'f' then some (c.toNat - 'a'.toNat + 10)
  else if 'A' ≤ c ∧ c ≤ 'F' then some (c.toNat - 'A'.toNat + 10)
  else none

/-- Four hexadecimal digits. What counts for the end of the text is its length in bytes. -/
def codeUnit : Reader Nat
  | a :: b :: c :: d :: rest =>
    match hexValue? a, hexValue? b, hexValue? c, hexValue? d with
    | some w, some x, some y, some z =>
      .ok ⟨((w * 16 + x) * 16 + y) * 16 + z, rest, by simp only [List.length_cons]; omega⟩
    | _, _, _, _ => .error .malformed
  | cs => .error (if byteLength cs < 4 then .truncated else .malformed)

def isHighSurrogate (n : Nat) : Bool := 0xD800 ≤ n && n < 0xDC00

def isLowSurrogate (n : Nat) : Bool := 0xDC00 ≤ n && n < 0xE000

def unicodeEscape (cs : List Char) : Except Fault (Reading Char cs) := do
  let high ← codeUnit cs
  if isLowSurrogate high.value then throw .malformed
  else if isHighSurrogate high.value then
    match h : high.rest with
    | '\\' :: 'u' :: rest =>
      let low ← codeUnit rest
      if isLowSurrogate low.value then
        return ⟨Char.ofNat (0x10000 + (high.value - 0xD800) * 0x400 + (low.value - 0xDC00)), low.rest,
          by
            have hh := high.shorter
            have hl := low.shorter
            simp only [h, List.length_cons] at hh
            omega⟩
      else throw .malformed
    | [] | ['\\'] => throw .truncated
    | _ => throw .malformed
  else return high.map Char.ofNat

def simpleEscape? : Char → Option Char
  | '"' => some '"'
  | '\\' => some '\\'
  | '/' => some '/'
  | 'b' => some '\x08'
  | 'f' => some '\x0c'
  | 'n' => some '\n'
  | 'r' => some '\r'
  | 't' => some '\t'
  | _ => none

def escape : Reader Char
  | [] => .error .truncated
  | c :: cs =>
    if c = 'u' then (unicodeEscape cs).map (·.widen (Nat.le_succ _))
    else match simpleEscape? c with
      | some x => .ok ⟨x, cs, Nat.lt_succ_self _⟩
      | none => .error .malformed

def stringBody (cs : List Char) : Except Fault (Reading (List Char) cs) :=
  match cs with
  | [] => .error .truncated
  | c :: cs =>
    if c = '"' then .ok ⟨[], cs, Nat.lt_succ_self _⟩
    else if c = '\\' then do
      let x ← escape cs
      have := x.shorter
      let body ← stringBody x.rest
      return (body.map (x.value :: ·)).widen (by simp only [List.length_cons]; omega)
    else if c < ' ' then .error .malformed
    else do
      let body ← stringBody cs
      return (body.map (c :: ·)).widen (Nat.le_succ _)
termination_by cs.length
decreasing_by
  · simp only [List.length_cons]; omega
  · simp only [List.length_cons]; omega

def text (cs : List Char) : Except Fault (Reading String cs) := do
  let body ← stringBody cs
  return body.map String.ofList

/-! ## Numbers and words -/

/-- The digits of a number with their place. Once a digit no longer fits into 64 bits, the further
ones count as places before the point and are left out behind it. -/
structure Magnitude where
  significand : Nat
  exponent : Int
  deriving DecidableEq, Repr

namespace Magnitude

def grown (m : Magnitude) (c : Char) : Nat := 10 * m.significand + (c.toNat - '0'.toNat)

def whole (m : Magnitude) (c : Char) : Magnitude :=
  if m.exponent = 0 ∧ m.grown c < UInt64.size then { m with significand := m.grown c }
  else { m with exponent := m.exponent + 1 }

def fraction (m : Magnitude) : List Char → Magnitude
  | [] => m
  | c :: cs =>
    if m.grown c < UInt64.size then fraction ⟨m.grown c, m.exponent - 1⟩ cs else m

def overflows (m : Magnitude) : Bool :=
  m.significand ≠ 0 && 0 ≤ m.exponent &&
    (308 < m.exponent ||
      (m.significand.toUInt64.toFloat * Float.ofScientific 1 false m.exponent.toNat).isInf)

end Magnitude

structure Optional (α : Type) (cs : List Char) where
  value : α
  rest : List Char
  notLonger : rest.length ≤ cs.length

def Reading.optional {α : Type} {c : Char} {cs : List Char} (r : Reading α cs) :
    Optional α (c :: cs) :=
  ⟨r.value, r.rest, Nat.le_of_lt (Nat.lt_succ_of_lt r.shorter)⟩

def missing {α : Type} (value : α) (cs : List Char) : Optional α cs :=
  ⟨value, cs, Nat.le_refl _⟩

theorem dropWhile_length_lt {p : Char → Bool} {cs : List Char} (h : cs.takeWhile p ≠ []) :
    (cs.dropWhile p).length < cs.length := by
  have hl := congrArg List.length (List.takeWhile_append_dropWhile (p := p) (l := cs))
  have hp := List.length_pos_iff.mpr h
  rw [List.length_append] at hl
  omega

def digits (cs : List Char) : Except Fault (Reading (List Char) cs) :=
  if h : cs.takeWhile Char.isDigit = [] then
    .error (if cs = [] then .truncated else .malformed)
  else .ok ⟨cs.takeWhile Char.isDigit, cs.dropWhile Char.isDigit, dropWhile_length_lt h⟩

def fractionPart : (cs : List Char) → Except Fault (Optional (List Char) cs)
  | '.' :: cs => (digits cs).map fun r => (r.map ('.' :: ·)).optional
  | cs => .ok (missing [] cs)

def signedDigits : Reader (List Char)
  | '-' :: cs => (digits cs).map fun r => (r.map ('-' :: ·)).widen (Nat.le_succ _)
  | '+' :: cs => (digits cs).map fun r => (r.map ('+' :: ·)).widen (Nat.le_succ _)
  | cs => digits cs

def exponentPart : (cs : List Char) → Except Fault (Optional (List Char) cs)
  | 'e' :: cs => (signedDigits cs).map fun r => (r.map ('e' :: ·)).optional
  | 'E' :: cs => (signedDigits cs).map fun r => (r.map ('E' :: ·)).optional
  | cs => .ok (missing [] cs)

def power : List Char → Int
  | [] => 0
  | _ :: '-' :: ds => -(Nat.ofDigitChars 10 ds 0)
  | _ :: '+' :: ds => Nat.ofDigitChars 10 ds 0
  | _ :: ds => Nat.ofDigitChars 10 ds 0

def magnitude (whole fraction exponent : List Char) : Magnitude :=
  let m := (whole.foldl Magnitude.whole ⟨0, 0⟩).fraction fraction.tail
  { m with exponent := m.exponent + power exponent }

def unsigned (cs : List Char) : Except Fault (Reading (List Char) cs) := do
  let whole ← digits cs
  -- No digit may follow a leading zero.
  if whole.value.head? = some '0' ∧ whole.value.length ≠ 1 then throw .malformed
  let fraction ← fractionPart whole.rest
  let exponent ← exponentPart fraction.rest
  if (magnitude whole.value fraction.value exponent.value).overflows then throw .malformed
  return ⟨whole.value ++ fraction.value ++ exponent.value, exponent.rest,
    Nat.lt_of_le_of_lt (Nat.le_trans exponent.notLonger fraction.notLonger) whole.shorter⟩

def numeral : Reader (List Char)
  | '-' :: cs => (unsigned cs).map fun r => (r.map ('-' :: ·)).widen (Nat.le_succ _)
  | cs => unsigned cs

def word (w : List Char) (value : Json) (hw : w ≠ []) (cs : List Char) :
    Except Fault (Reading Json cs) :=
  if h : w <+: cs then
    .ok ⟨value, cs.drop w.length, by
      have hp := List.length_pos_iff.mpr hw
      have hl := h.length_le
      rw [List.length_drop]
      omega⟩
  -- A text that ends inside the word is cut short.
  else if cs <+: w then .error .truncated
  else .error .malformed

def scalar : Reader Json
  | [] => .error .truncated
  | c :: cs =>
    if c = '"' then (text cs).map fun r => (r.map Json.string).widen (Nat.le_succ _)
    else if c = 'n' then word "null".toList .null (by decide) (c :: cs)
    else if c = 't' then word "true".toList (.bool true) (by decide) (c :: cs)
    else if c = 'f' then word "false".toList (.bool false) (by decide) (c :: cs)
    else if c = '-' || c.isDigit then
      (numeral (c :: cs)).map fun r => r.map fun literal => .number (String.ofList literal)
    else .error .malformed

/-! ## Arrays and objects -/

def moreItems (item : Reader Json) (cs : List Char) : Except Fault (Reading (List Json) cs) :=
  match h : skip cs with
  | [] => .error .truncated
  | ']' :: rest => .ok ⟨[], rest, by grind [skip_length_le cs]⟩
  | ',' :: rest => do
    have := skip_length_le cs
    let first ← item rest
    have := first.shorter
    let more ← moreItems item first.rest
    return (more.map (first.value :: ·)).widen (by grind)
  | _ => .error .malformed
termination_by cs.length
decreasing_by grind

def items (first item : Reader Json) (cs : List Char) : Except Fault (Reading (List Json) cs) :=
  match h : skip cs with
  | ']' :: rest => .ok ⟨[], rest, by grind [skip_length_le cs]⟩
  | rest => do
    let head ← first rest
    have := head.shorter
    let more ← moreItems item head.rest
    return (more.map (head.value :: ·)).widen (by grind [skip_length_le cs])

/-- How the members of an object are read: whether a name may follow the earlier ones, and how a
value is read after its name. -/
structure MemberRule where
  admits : List String → String → Except Fault Unit
  value : String → Reader Json

def member (rule : MemberRule) (seen : List String) (cs : List Char) :
    Except Fault (Reading (String × Json) cs) :=
  match cs with
  | [] => .error .truncated
  | '"' :: cs => do
    let key ← text cs
    rule.admits seen key.value
    match h : skip key.rest with
    | [] => .error .truncated
    | ':' :: rest =>
      let value ← rule.value key.value rest
      return (value.map (key.value, ·)).widen (by
        have := skip_length_le key.rest
        have := key.shorter
        grind)
    | _ => .error .malformed
  | _ => .error .malformed

def moreMembers (rule : MemberRule) (seen : List String) (cs : List Char) :
    Except Fault (Reading (List (String × Json)) cs) :=
  match h : skip cs with
  | [] => .error .truncated
  | '\x7d' :: rest => .ok ⟨[], rest, by grind [skip_length_le cs]⟩
  | ',' :: rest => do
    have := skip_length_le cs
    have := skip_length_le rest
    let first ← member rule seen (skip rest)
    have := first.shorter
    let more ← moreMembers rule (first.value.1 :: seen) first.rest
    return (more.map (first.value :: ·)).widen (by grind)
  | _ => .error .malformed
termination_by cs.length
decreasing_by grind

def members (rule : MemberRule) (cs : List Char) :
    Except Fault (Reading (List (String × Json)) cs) :=
  match h : skip cs with
  | '\x7d' :: rest => .ok ⟨[], rest, by grind [skip_length_le cs]⟩
  | rest => do
    let first ← member rule [] rest
    have := first.shorter
    let more ← moreMembers rule [first.value.1] first.rest
    return (more.map (first.value :: ·)).widen (by grind [skip_length_le cs])

def MemberRule.uniform (value : Reader Json) : MemberRule := ⟨fun _ _ => .ok (), fun _ => value⟩

/-- A value in which at most `depth` brackets stand open at once. -/
def value : Nat → Reader Json
  | 0, cs => (scalar (skip cs)).map (·.widen (skip_length_le cs))
  | depth + 1, cs =>
    match h : skip cs with
    | '[' :: rest =>
      (items (value depth) (value depth) rest).map fun r =>
        (r.map Json.array).widen (by grind [skip_length_le cs])
    | '\x7b' :: rest =>
      (members (.uniform (value depth)) rest).map fun r =>
        (r.map Json.object).widen (by grind [skip_length_le cs])
    | rest => (scalar rest).map (·.widen (length_le_of_skip_eq h))

end MathMarkup.Json
