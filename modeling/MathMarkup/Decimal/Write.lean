/-!
# Writing decimal numbers

A double is written with the fewest digits that read back as it, never with a power of ten. A whole
number has no point, and a zero keeps its sign.

A positive double is an integer times a power of two, and the reals that round to it form an
interval around it. Of all decimals in that interval the shortest are the multiples of the largest
power of ten that has a multiple there, and of those the one nearest to the double is taken. All
quantities are integers: lengths are counted in units of ten to the -324 divided by `scale`, in which
a quarter of the distance to the next double is whole.
-/

namespace MathMarkup.Decimal

def tenTo (n : Nat) : Nat := Nat.pow 10 n

def twoTo (n : Nat) : Nat := Nat.pow 2 n

/-- The reals that round to `value`, which belong to it up to `low` and `high`. The two ends belong
to it when `closed` holds, and the unit ten to the -324 is `scale` units long. -/
structure Interval where
  scale : Nat
  low : Nat
  value : Nat
  high : Nat
  closed : Bool
  deriving DecidableEq, Repr

namespace Interval

def contains (i : Interval) (x : Nat) : Bool :=
  if i.closed then i.low ≤ x && x ≤ i.high else i.low < x && x < i.high

/-- A multiple of ten to the `power - 324` in the interval, the one nearest to the value. A value
midway between two multiples goes to the upper one. -/
def multiple? (i : Interval) (power : Nat) : Option Nat :=
  let unit := tenTo power * i.scale
  let below := i.value / unit
  match i.contains (below * unit), i.contains ((below + 1) * unit) with
  | true, true => if 2 * i.value < (2 * below + 1) * unit then some below else some (below + 1)
  | true, false => some below
  | false, true => some (below + 1)
  | false, false => none

def shortestFrom (i : Interval) : Nat → Nat × Nat
  | 0 => ((i.multiple? 0).getD (i.value / i.scale), 0)
  | power + 1 =>
    match i.multiple? (power + 1) with
    | some digits => (digits, power + 1)
    | none => i.shortestFrom power

/-- No multiple of a power with more digits than the value lies near it. -/
def shortest (i : Interval) : Nat × Nat :=
  i.shortestFrom (Nat.toDigits 10 (i.value / i.scale)).length

end Interval

/-- The interval of a finite double that is not zero, without its sign. The double below a power of
two is half as far away as the one above. -/
def interval (x : Float) : Interval :=
  let bits := x.toBits.toNat % twoTo 63
  let fraction := bits % twoTo 52
  let biased := bits / twoTo 52
  let significand := if biased = 0 then fraction else fraction + twoTo 52
  let up := biased - 1 - 1076
  let down := 1076 - (biased - 1)
  let unit := tenTo 324 * twoTo up
  { scale := twoTo down
    low := (4 * significand - if fraction = 0 ∧ 1 < biased then 1 else 2) * unit
    value := 4 * significand * unit
    high := (4 * significand + 2) * unit
    closed := significand % 2 = 0 }

def zeros (n : Nat) : String := String.ofList (List.replicate n '0')

/-- The decimal `digits` times ten to the `power - 324`. -/
def positional (digits power : Nat) : String :=
  if 324 ≤ power then toString digits ++ zeros (power - 324)
  else
    let places := 324 - power
    let fraction := toString (digits % tenTo places)
    toString (digits / tenTo places) ++ "." ++ zeros (places - fraction.length) ++ fraction

def writeMagnitude (x : Float) : String :=
  if x.isInf then "inf"
  else if x == 0 then "0"
  else
    let (digits, power) := (interval x).shortest
    positional digits power

def write (x : Float) : String :=
  if x.isNaN then "NaN"
  else (if x.toBits.toNat < twoTo 63 then "" else "-") ++ writeMagnitude x

end MathMarkup.Decimal
