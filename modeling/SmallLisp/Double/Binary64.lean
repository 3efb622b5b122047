import SmallLisp.Text

/-!
# Doubles as exact scaled integers

A finite double is `± mantissa · 2 ^ exponent`. `decode` reads these off the bits, `nearest` goes
the other way: it rounds an exact ratio of naturals to the closest double, a tie to the one with
the even mantissa. Remainder and truncation are exact because they pass through this form, and
integers are converted through it.
-/

namespace SmallLisp.Double

/-- What a double denotes. A finite one is `mantissa · 2 ^ exponent`, negated if `negative`. -/
inductive Decoded where
  | nan
  | infinite (negative : Bool)
  | finite (negative : Bool) (mantissa : Nat) (exponent : Int)
deriving Repr, DecidableEq

/-- Read sign, mantissa and exponent off the bits; the hidden bit is put back. -/
def decode (x : Float) : Decoded :=
  let bits := x.toBits.toNat
  let negative := decide (Nat.pow 2 63 ≤ bits)
  let biased := bits / Nat.pow 2 52 % Nat.pow 2 11
  let fraction := bits % Nat.pow 2 52
  if biased = 2047 then
    if fraction = 0 then .infinite negative else .nan
  else if biased = 0 then .finite negative fraction (-1074)
  else .finite negative (Nat.pow 2 52 + fraction) (Int.ofNat biased - 1075)

/-- Put a sign on the bits of a non-negative double. -/
def ofMagnitude (negative : Bool) (bits : Nat) : Float :=
  Float.ofBits (UInt64.ofNat (if negative then Nat.pow 2 63 + bits else bits))

/-- The bits of positive infinity. -/
def infinityBits : Nat := 2047 * Nat.pow 2 52

/-- Round to the nearest integer, a tie to the even one. -/
def roundDiv (num den : Nat) : Nat :=
  let q := num / den
  let r := num % den
  if den < 2 * r || (2 * r == den && q % 2 == 1) then q + 1 else q

/-- The ratio `num / den` in units of `2 ^ e`, again as a ratio. -/
def rescale (num den : Nat) (e : Int) : Nat × Nat :=
  match e with
  | .ofNat k => (num, den * Nat.pow 2 k)
  | .negSucc k => (num * Nat.pow 2 (k + 1), den)

/-- The bits of the double nearest to `num / den` (with `den` positive). The unit `2 ^ e` is chosen
so that the quotient has 53 bits, or is the smallest unit there is. -/
def nearestBits (num den : Nat) : Nat :=
  if num = 0 then 0
  else
    let low := max (Int.ofNat num.log2 - Int.ofNat den.log2 - 53) (-1074)
    let coarse := rescale num den low
    let e := if Nat.pow 2 53 ≤ coarse.1 / coarse.2 then low + 1 else low
    let fine := rescale num den e
    min ((e + 1074).toNat * Nat.pow 2 52 + roundDiv fine.1 fine.2) infinityBits

/-- The double nearest to `± num / den`. -/
def nearest (negative : Bool) (num den : Nat) : Float :=
  ofMagnitude negative (nearestBits num den)

/-- Whether one of the `count` lowest digits of `n` in base `2 ^ 64` has a bit set among its `width`
low ones. -/
def hasLowBits (width : Nat) : Nat → Nat → Bool
  | 0, _ => false
  | count + 1, n => n % Nat.pow 2 width != 0 || hasLowBits width count (n / Nat.pow 2 64)

/-- The 64 leading bits of a natural number of more than 64 bits, and how many follow. The last of
them also stands for what is cut off: of every lower digit in base `2 ^ 64`, as many low bits as the
leading digit has. -/
def leadingBits (n : Nat) : Nat × Nat :=
  let cut := n.log2 - 63
  let window := n / Nat.pow 2 cut
  if window % 2 = 0 ∧ hasLowBits (n.log2 % 64 + 1) (n.log2 / 64) n then (window + 1, cut)
  else (window, cut)

/-- The magnitude of an integer as a double. Up to 64 bits it is rounded directly; a larger one is
first cut to its leading bits. -/
def ofNat (negative : Bool) (n : Nat) : Float :=
  if n < Nat.pow 2 64 then nearest negative n 1
  else
    let (window, cut) := leadingBits n
    nearest negative (window * Nat.pow 2 cut) 1

/-- An integer as a double. -/
def ofInt (n : Int) : Float := ofNat (decide (n < 0)) n.natAbs

/-- The double nearest to `± mantissa · 2 ^ exponent`. -/
def ofScaled (negative : Bool) (mantissa : Nat) : Int → Float
  | .ofNat k => nearest negative (mantissa * Nat.pow 2 k) 1
  | .negSucc k => nearest negative mantissa (Nat.pow 2 (k + 1))

/-- The integer part of a finite double; nothing for an infinity or a NaN. -/
def truncate? (x : Float) : Option Int :=
  match decode x with
  | .finite negative mantissa exponent =>
      let magnitude : Nat :=
        match exponent with
        | .ofNat k => mantissa * Nat.pow 2 k
        | .negSucc k => mantissa / Nat.pow 2 (k + 1)
      some (Text.signed negative magnitude)
  | _ => none

/-- What is left of `x` after taking away as many whole `y` as fit, toward zero. The result is
exact and has the sign of `x`, also when it is zero. -/
def remainder (x y : Float) : Float :=
  match decode x, decode y with
  | .finite negative m e, .finite _ m' e' =>
      if m' = 0 then Float.ofBits 0x7FF8000000000000
      else
        let unit := min e e'
        let a := m * Nat.pow 2 (e - unit).toNat
        let b := m' * Nat.pow 2 (e' - unit).toNat
        ofScaled negative (a % b) unit
  | .finite .., .infinite _ => x
  | _, _ => Float.ofBits 0x7FF8000000000000

end SmallLisp.Double
