import SmallLisp.Double.Text

/-!
# Numbers

Integers of 64 bits and of any size, and doubles: how they are combined, and how they are written in
programs.
-/

/-!
## Arithmetic on words

Arithmetic on 64-bit integers that notices when it leaves them. A result that is given is exact.
-/

namespace SmallLisp.Word

/-- The sum; nothing if it overflows. -/
def add? (m n : Int64) : Option Int64 :=
  if m.toBitVec.saddOverflow n.toBitVec then none else some (m + n)

/-- The difference; nothing if it overflows. -/
def sub? (m n : Int64) : Option Int64 :=
  if m.toBitVec.ssubOverflow n.toBitVec then none else some (m - n)

/-- The product; nothing if it overflows. -/
def mul? (m n : Int64) : Option Int64 :=
  if m.toBitVec.smulOverflow n.toBitVec then none else some (m * n)

/-- Whether a quotient or remainder is left to other means: the divisor is zero, or the quotient is
one past the greatest word. -/
def hasNoQuotient (m n : Int64) : Bool := n == 0 || (m == Int64.minValue && n == -1)

/-- The quotient, toward zero; nothing if there is none or it overflows. -/
def div? (m n : Int64) : Option Int64 := if hasNoQuotient m n then none else some (m / n)

/-- The remainder of `div?`, where that gives a quotient. -/
def rem? (m n : Int64) : Option Int64 := if hasNoQuotient m n then none else some (m % n)

variable {m n k : Int64}

theorem toInt_of_add? (h : add? m n = some k) : k.toInt = m.toInt + n.toInt := by
  obtain ⟨hfits, ⟨⟩⟩ := Option.ite_none_left_eq_some.1 h
  exact BitVec.toInt_add_of_not_saddOverflow hfits

theorem toInt_of_sub? (h : sub? m n = some k) : k.toInt = m.toInt - n.toInt := by
  obtain ⟨hfits, ⟨⟩⟩ := Option.ite_none_left_eq_some.1 h
  exact BitVec.toInt_sub_of_not_ssubOverflow hfits

theorem toInt_of_mul? (h : mul? m n = some k) : k.toInt = m.toInt * n.toInt := by
  obtain ⟨hfits, ⟨⟩⟩ := Option.ite_none_left_eq_some.1 h
  exact BitVec.toInt_mul_of_not_smulOverflow hfits

theorem toInt_of_div? (h : div? m n = some k) : k.toInt = m.toInt.tdiv n.toInt := by
  obtain ⟨hquotient, ⟨⟩⟩ := Option.ite_none_left_eq_some.1 h
  simp only [hasNoQuotient, Bool.or_eq_true, Bool.and_eq_true, beq_iff_eq, not_or, not_and]
    at hquotient
  by_cases hm : m = Int64.minValue
  · exact Int64.toInt_div_of_ne_right m n (hquotient.2 hm)
  · exact Int64.toInt_div_of_ne_left m n hm

theorem toInt_of_rem? (h : rem? m n = some k) : k.toInt = m.toInt.tmod n.toInt := by
  obtain ⟨-, ⟨⟩⟩ := Option.ite_none_left_eq_some.1 h
  exact Int64.toInt_mod m n

/-- The order of words is that of the integers they are. -/
theorem compare_eq (m n : Int64) : compare m n = compare m.toInt n.toInt := by
  simp [compare, compareOfLessAndEq, Int64.lt_iff_toInt_lt, ← Int64.toInt_inj]

end SmallLisp.Word

/-!
## Numbers

A number is a 64-bit integer, an integer of any size, or a double. Two words are combined as words
while the result is one; other integers are combined without bounds, and the result is narrowed to
64 bits if it fits. As soon as one operand is a double the operation is one on doubles.
-/

namespace SmallLisp

/-- A number taken out of the store for arithmetic. -/
inductive Num where
  | small (n : Int64)
  | big (n : Int)
  | double (x : Float)

/-- Why an operation on numbers has no result. -/
inductive NumFault where
  | divisionByZero
  | cannotTruncate (x : Float)

/-- The wording of a failed operation on numbers. -/
def NumFault.message : NumFault → String
  | .divisionByZero => "division by zero"
  | .cannotTruncate x => "cannot truncate " ++ Double.format x

namespace Num

/-- Whether an integer fits in 64 bits. -/
def fits (n : Int) : Bool := decide (Int64.minValue.toInt ≤ n ∧ n ≤ Int64.maxValue.toInt)

/-- The number for an integer, in 64 bits if it fits. -/
def ofInt (n : Int) : Num :=
  if fits n then .small (Int64.ofInt n) else .big n

/-- The integer a number denotes; nothing for a double. -/
def int? : Num → Option Int
  | .small n => some n.toInt
  | .big n => some n
  | .double _ => none

/-- The double closest to a number. -/
def toFloat : Num → Float
  | .small n => Double.ofInt n.toInt
  | .big n => Double.ofInt n
  | .double x => x

def isDouble : Num → Bool
  | .double _ => true
  | _ => false

/-- The same number with an integer narrowed. -/
def normalize : Num → Num
  | .big n => ofInt n
  | a => a

/-- Combine two words by an operation on words; nothing if there is no such result, or if one of
the numbers is no word. -/
def inWords (small : Int64 → Int64 → Option Int64) : Num → Num → Option Int64
  | .small m, .small n => small m n
  | _, _ => none

/-- Combine two numbers: by an operation on doubles if either is one, else by an operation on words
if that has a result, and else by one on integers of any size. -/
def combine (small : Int64 → Int64 → Option Int64) (large : Int → Int → Int)
    (onDoubles : Float → Float → Float) (a b : Num) : Num :=
  match a.int?, b.int? with
  | some m, some n =>
      match inWords small a b with
      | some k => .small k
      | none => normalize (.big (large m n))
  | _, _ => .double (onDoubles a.toFloat b.toFloat)

def add : Num → Num → Num := combine Word.add? (· + ·) (· + ·)

def sub : Num → Num → Num := combine Word.sub? (· - ·) (· - ·)

def mul : Num → Num → Num := combine Word.mul? (· * ·) (· * ·)

/-- Whether a number is the integer zero. -/
def isIntZero (a : Num) : Bool := a.int? == some 0

/-- Divide; integers toward zero. Only an integer divided by the integer zero is at fault: doubles
follow their own rules. -/
def div (a b : Num) : Except NumFault Num :=
  if !a.isDouble && b.isIntZero then .error .divisionByZero
  else .ok (combine Word.div? Int.tdiv (· / ·) a b)

/-- The remainder of `div`; it has the sign of the dividend. -/
def rem (a b : Num) : Except NumFault Num :=
  if !a.isDouble && b.isIntZero then .error .divisionByZero
  else .ok (combine Word.rem? Int.tmod Double.remainder a b)

/-- Zero minus the number. -/
def neg (a : Num) : Num := sub (.small 0) a

/-- The order of two doubles; nothing if one is a NaN. -/
def compareDoubles (x y : Float) : Option Ordering :=
  if x < y then some .lt
  else if y < x then some .gt
  else if x == y then some .eq
  else none

/-- The order of two numbers: of the words if both are, of the integers if both are, and else of the
doubles closest to them. -/
def compare : Num → Num → Option Ordering
  | .small m, .small n => some (Ord.compare m n)
  | a, b =>
      match a.int?, b.int? with
      | some m, some n => some (Ord.compare m n)
      | _, _ => compareDoubles a.toFloat b.toFloat

/-- Equality within one kind: an integer never equals a double. -/
def eql : Num → Num → Bool
  | .double x, .double y => x == y
  | .double _, _ => false
  | _, .double _ => false
  | a, b => a.compare b == some .eq

/-- Drop the fraction of a double; an integer stays as it is. -/
def truncate : Num → Except NumFault Num
  | .double x =>
      match Double.truncate? x with
      | some n => .ok (ofInt n)
      | none => .error (.cannotTruncate x)
  | a => .ok a

/-- The text of a number. -/
def format : Num → String
  | .small n => Text.formatInt n.toInt
  | .big n => Text.formatInt n
  | .double x => Double.format x

end Num

end SmallLisp

/-!
## Numbers as written in programs

An integer is an optional sign, an optional radix mark `#b`, `#o` or `#x` in either case, and at
least one digit of that radix. Decimal text that is no integer may still denote a double.
-/

namespace SmallLisp.Literal

/-- Split off a sign, unless it is all there is. -/
def splitSign : List Char → Bool × List Char
  | '-' :: c :: cs => (true, c :: cs)
  | '+' :: c :: cs => (false, c :: cs)
  | cs => (false, cs)

/-- The radix a letter after `#` marks. -/
def radixOf? (c : Char) : Option Nat :=
  if c = 'b' ∨ c = 'B' then some 2
  else if c = 'o' ∨ c = 'O' then some 8
  else if c = 'x' ∨ c = 'X' then some 16
  else none

/-- Split off a radix mark, if something follows it. -/
def splitRadix : List Char → Nat × List Char
  | '#' :: r :: c :: cs =>
      match radixOf? r with
      | some radix => (radix, c :: cs)
      | none => (10, '#' :: r :: c :: cs)
  | cs => (10, cs)

/-- Text that may be tried as a double: it starts like a number, holds a digit and a point or an
exponent mark, and nothing that no decimal holds. -/
def looksDouble (cs : List Char) : Bool :=
  (match cs with
    | c :: _ => c.isDigit || c == '+' || c == '-' || c == '.'
    | [] => false) &&
  cs.any Char.isDigit &&
  cs.any (fun c => c == '.' || c == 'e' || c == 'E') &&
  cs.all (fun c => c.isDigit || c == '+' || c == '-' || c == '.' || c == 'e' || c == 'E')

/-- The number a text denotes, if it is a numeric literal. -/
def number? (text : List Char) : Option Num :=
  let (negative, body) := splitSign text
  let (radix, digits) := splitRadix body
  match Text.natural? radix digits with
  | some n => some (Num.ofInt (Text.signed negative n))
  | none =>
      if radix = 10 ∧ looksDouble text then (Double.ofDecimal? text).map .double
      else none

end SmallLisp.Literal
