/-!
# Reading decimal numbers

A number is written as an optional sign, digits with at most one point among them and at least one
digit, and an optional power of ten. Infinity and the undefined number have names, in any letter
case. The value is the double nearest to what is written.
-/

namespace MathMarkup.Decimal

/-- `digits` with the point left out, times ten to the `exponent`. -/
structure Scientific where
  digits : Nat
  exponent : Int
  deriving DecidableEq, Repr

def splitSign : List Char → Bool × List Char
  | '-' :: cs => (true, cs)
  | '+' :: cs => (false, cs)
  | cs => (false, cs)

def exponent? (cs : List Char) : Option Int :=
  let (negative, ds) := splitSign cs
  if ds.isEmpty || !ds.all Char.isDigit then none
  else if negative then some (-(Nat.ofDigitChars 10 ds 0 : Int))
  else some (Nat.ofDigitChars 10 ds 0)

def scientific? (cs : List Char) : Option Scientific :=
  let whole := cs.takeWhile Char.isDigit
  let afterWhole := cs.dropWhile Char.isDigit
  let pointed := afterWhole.head? = some '.'
  let fraction := if pointed then afterWhole.tail.takeWhile Char.isDigit else []
  let rest := if pointed then afterWhole.tail.dropWhile Char.isDigit else afterWhole
  let significand := Nat.ofDigitChars 10 (whole ++ fraction) 0
  if whole.isEmpty && fraction.isEmpty then none
  else match rest with
    | [] => some ⟨significand, -fraction.length⟩
    | e :: cs =>
      if e = 'e' || e = 'E' then
        (exponent? cs).map fun power => ⟨significand, power - fraction.length⟩
      else none

/-- Values beyond ten to the 400 and below ten to the -330 round without any arithmetic. -/
def Scientific.toFloat (s : Scientific) : Float :=
  if s.digits = 0 then 0
  else if s.exponent > 400 then 1.0 / 0.0
  else if s.exponent + s.digits.log2 / 3 + 2 < -330 then 0
  else Float.ofScientific s.digits (s.exponent < 0) s.exponent.natAbs

def named? (cs : List Char) : Option Float :=
  let name := String.ofList (cs.map Char.toLower)
  if name = "inf" || name = "infinity" then some (1.0 / 0.0)
  else if name = "nan" then some (0.0 / 0.0)
  else none

def read? (text : String) : Option Float :=
  let (negative, cs) := splitSign text.toList
  let magnitude? := match scientific? cs with
    | some s => some s.toFloat
    | none => named? cs
  magnitude?.map fun magnitude => if negative then -magnitude else magnitude

end MathMarkup.Decimal
