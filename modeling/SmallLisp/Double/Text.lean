import SmallLisp.Double.Binary64

/-!
# Doubles as text

The digits that a double is written with are found first; then it is written with them, and read
from text.
-/

/-!
## The shortest decimal that reads back

Of all decimals that round to a given double, the one with the fewest digits; of several with that
many digits, the closest. A decimal reads back exactly if it lies in the interval of reals around
the double, whose ends belong to it when the mantissa is even.
-/

namespace SmallLisp.Double

/-- A positive decimal `digits · 10 ^ exponent`. -/
structure Decimal where
  digits : Nat
  exponent : Int
deriving Repr, DecidableEq

/-- The reals that round to one positive double, in units of `1 / den`: the double itself is
`value`, its neighbourhood goes from `low` to `high`. -/
structure Interval where
  low : Nat
  value : Nat
  high : Nat
  den : Nat
  closed : Bool

/-- The interval around `mantissa · 2 ^ exponent`. Below a power of two the doubles stand twice as
close, so there the lower half is a quarter. -/
def Interval.around (mantissa : Nat) (exponent : Int) : Interval :=
  let below := if mantissa = Nat.pow 2 52 ∧ -1074 < exponent then 1 else 2
  let closed := mantissa % 2 == 0
  match exponent - 2 with
  | .ofNat k =>
      { low := (4 * mantissa - below) * Nat.pow 2 k, value := 4 * mantissa * Nat.pow 2 k
        high := (4 * mantissa + 2) * Nat.pow 2 k, den := 1, closed }
  | .negSucc k =>
      { low := 4 * mantissa - below, value := 4 * mantissa, high := 4 * mantissa + 2
        den := Nat.pow 2 (k + 1), closed }

/-- The same interval in units of `10 ^ exponent`. -/
def Interval.inUnits (i : Interval) : Int → Interval
  | .ofNat k => { i with den := i.den * Nat.pow 10 k }
  | .negSucc k =>
      let p := Nat.pow 10 (k + 1)
      { i with low := i.low * p, value := i.value * p, high := i.high * p }

/-- Whether the whole number `d` lies in the interval. -/
def Interval.holds (i : Interval) (d : Nat) : Bool :=
  let x := d * i.den
  if i.closed then decide (i.low ≤ x ∧ x ≤ i.high) else decide (i.low < x ∧ x < i.high)

/-- The whole number of the interval closest to its value, if one of the two neighbours of the
value lies in it; halfway between both, the larger. -/
def Interval.pick? (i : Interval) : Option Nat :=
  let d := i.value / i.den
  let nearUp := decide (i.den ≤ 2 * (i.value % i.den))
  match i.holds d, i.holds (d + 1) with
  | true, true => some (if nearUp then d + 1 else d)
  | true, false => some d
  | false, true => some (d + 1)
  | false, false => none

/-- Try the grids `10 ^ exponent`, `10 ^ (exponent - 1)`, … for the first with a hit. -/
def Interval.search (i : Interval) : Nat → Int → Decimal
  | 0, exponent => ⟨(i.inUnits exponent).value / (i.inUnits exponent).den, exponent⟩
  | fuel + 1, exponent =>
      match (i.inUnits exponent).pick? with
      | some d => ⟨d, exponent⟩
      | none => i.search fuel (exponent - 1)

/-- Drop trailing zeros into the exponent; a double has at most 17 digits to drop. -/
def Decimal.strip : Nat → Decimal → Decimal
  | 0, d => d
  | fuel + 1, d =>
      if d.digits ≠ 0 ∧ d.digits % 10 = 0 then
        Decimal.strip fuel ⟨d.digits / 10, d.exponent + 1⟩
      else d

/-- The shortest decimal that reads back as the positive double `mantissa · 2 ^ exponent`. The
search starts one place above the leading digit, where a rounded-up power of ten is found. -/
def shortest (mantissa : Nat) (exponent : Int) : Decimal :=
  let magnitude := (Int.ofNat mantissa.log2 + exponent) * 30103 / 100000
  Decimal.strip 20 ((Interval.around mantissa exponent).search 20 (magnitude + 1))

/-!
## Doubles as text

`format` writes a double with its shortest digits, positionally from `0.0001` up to below `10 ^ 16`
and with an exponent elsewhere. `ofDecimal?` reads a decimal literal and `ofText?` also the names
of the infinities and of NaN; both round correctly, with exponents read up to a bound.
-/

/-- The layout of written doubles. -/
structure Layout where
  /-- From this decimal exponent of the leading digit on, an exponent is written. -/
  exponentFrom : Int
  /-- Below this decimal exponent of the leading digit, an exponent is written. -/
  exponentBelow : Int
  nan : String
  infinity : String

/-- Plain notation for `0.0001 ≤ |x| < 10 ^ 16`, always with a decimal point in it. -/
def layout : Layout :=
  { exponentFrom := 16, exponentBelow := -4, nan := "NaN", infinity := "inf" }

/-- `n` zeros. -/
def zeros (n : Nat) : String := String.ofList (List.replicate n '0')

/-- Write `digits · 10 ^ exponent` with a decimal point and no exponent. -/
def positional (digits : List Char) (exponent : Int) : String :=
  match exponent with
  | .ofNat k => String.ofList digits ++ zeros k ++ ".0"
  | .negSucc k =>
      let places := k + 1
      if places < digits.length then
        String.ofList (digits.take (digits.length - places)) ++ "." ++
          String.ofList (digits.drop (digits.length - places))
      else "0." ++ zeros (places - digits.length) ++ String.ofList digits

/-- Write a decimal with one digit before the point and the given exponent. -/
def scientific (digits : List Char) (exponent : Int) : String :=
  match digits with
  | [] => "0e" ++ Text.formatInt exponent
  | [d] => String.ofList [d] ++ "e" ++ Text.formatInt exponent
  | d :: ds => String.ofList [d] ++ "." ++ String.ofList ds ++ "e" ++ Text.formatInt exponent

/-- Write a positive decimal. -/
def Decimal.format (d : Decimal) : String :=
  let digits := (Nat.repr d.digits).toList
  let leading := d.exponent + Int.ofNat digits.length - 1
  if layout.exponentFrom ≤ leading ∨ leading < layout.exponentBelow then
    scientific digits leading
  else positional digits d.exponent

/-- The text of a double. -/
def format (x : Float) : String :=
  match decode x with
  | .nan => layout.nan
  | .infinite negative => (if negative then "-" else "") ++ layout.infinity
  | .finite negative mantissa exponent =>
      (if negative then "-" else "") ++
        (if mantissa = 0 then "0.0" else (shortest mantissa exponent).format)

/-- Split off a sign; `true` stands for minus. -/
def splitSign : List Char → Bool × List Char
  | '-' :: cs => (true, cs)
  | '+' :: cs => (false, cs)
  | cs => (false, cs)

/-- Exponents are read digit by digit until they reach this bound. It is far out of the range of
doubles, so it shows only where a run of zeros nearly as long makes up for the exponent. -/
def exponentBound : Nat := Nat.pow 2 16

/-- The value of an exponent: digits after those that take it to `exponentBound` are not counted. -/
def exponentValue (ds : List Char) : Nat :=
  ds.foldl (fun n c => if n < exponentBound then 10 * n + (c.toNat - 48) else n) 0

/-- An exponent mark with its digits, or nothing at all: the exponent's value. -/
def exponent? : List Char → Option Int
  | [] => some 0
  | c :: cs =>
      if c = 'e' ∨ c = 'E' then
        let (negative, ds) := splitSign cs
        if !ds.isEmpty && ds.all Char.isDigit then
          some (Text.signed negative (exponentValue ds))
        else none
      else none

/-- Round `digits · 10 ^ exponent`. Exponents out of the range of doubles are decided without
computing the power: a positive value has at least `10 ^ exponent` and less than
`10 ^ (exponent + count)`, where `count` digits were written. -/
def ofDecimal (negative : Bool) (digits count : Nat) (exponent : Int) : Float :=
  if digits = 0 then ofMagnitude negative 0
  else if 400 < exponent then ofMagnitude negative infinityBits
  else if exponent + Int.ofNat count < -400 then ofMagnitude negative 0
  else
    match exponent with
    | .ofNat k => nearest negative (digits * Nat.pow 10 k) 1
    | .negSucc k => nearest negative digits (Nat.pow 10 (k + 1))

/-- Read `[sign] digits [. digits] [e [sign] digits]`, where digits stand before the point or
after it, or both. -/
def ofDecimal? (text : List Char) : Option Float := do
  let (negative, body) := splitSign text
  let whole := body.takeWhile Char.isDigit
  let rest := body.dropWhile Char.isDigit
  let (fraction, tail) :=
    match rest with
    | '.' :: cs => (cs.takeWhile Char.isDigit, cs.dropWhile Char.isDigit)
    | cs => ([], cs)
  let digits ← Text.natural? 10 (whole ++ fraction)
  let exponent ← exponent? tail
  return ofDecimal negative digits (whole.length + fraction.length)
    (exponent - Int.ofNat fraction.length)

/-- Read a decimal, or an infinity or a NaN by name in either case. -/
def ofText? (text : List Char) : Option Float :=
  let (negative, body) := splitSign text
  let name := String.ofList (body.map Char.toLower)
  if name = "inf" ∨ name = "infinity" then some (ofMagnitude negative infinityBits)
  else if name = "nan" then some (ofMagnitude negative 0x7FF8000000000000)
  else ofDecimal? text

end SmallLisp.Double
