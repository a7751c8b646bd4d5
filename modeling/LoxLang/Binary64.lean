/-!
# Doubles as binary fractions

A finite double is `± m · 2 ^ q`. `Binary64.ofFloat` reads sign, `m` and `q` off its bits, and `Binary64.nearest` goes
the other way: it is the double nearest to a quotient of naturals, a tie going to the even mantissa. Everything between
the two is exact arithmetic on `Nat` and `Int`.
-/

namespace LoxLang

/-- A double: a signed binary fraction, an infinity, or not a number. -/
inductive Binary64
  | finite (negative : Bool) (mantissa : Nat) (exponent : Int)
  | infinite (negative : Bool)
  | nan

namespace Binary64

/-- The least exponent of a double. -/
def minExponent : Int := -1074

/-- The bits of the sign, of the biased exponent and of the stored mantissa. -/
def fields (bits : UInt64) : Bool × Nat × Nat :=
  (bits >>> 63 != 0, ((bits >>> 52) &&& 0x7FF).toNat, (bits &&& 0xFFFFFFFFFFFFF).toNat)

def ofBits (bits : UInt64) : Binary64 :=
  match fields bits with
  | (negative, 0, stored) => .finite negative stored minExponent
  | (negative, 2047, 0) => .infinite negative
  | (_, 2047, _) => .nan
  | (negative, biased, stored) => .finite negative (Nat.pow 2 52 + stored) (Int.ofNat biased - 1075)

def ofFloat (x : Float) : Binary64 := ofBits x.toBits

/-! ## Rounding to nearest -/

/-- The quotient rounded to the nearest natural, a tie going to the even one. -/
def roundQuotient (num den : Nat) : Nat :=
  let floor := num / den
  let twice := 2 * (num % den)
  if twice < den ∨ (twice = den ∧ floor % 2 = 0) then floor else floor + 1

/-- The quotient `num / (den · 2 ^ q)`, as a numerator and a denominator. -/
def scaled (num den : Nat) (q : Int) : Nat × Nat :=
  match q with
  | .ofNat k => (num, den * Nat.pow 2 k)
  | .negSucc k => (num * Nat.pow 2 (k + 1), den)

/-- The exponent at which the mantissa of `num / den` has at most 53 bits, and 53 unless it is the least exponent. -/
def exponentOf (num den : Nat) : Int :=
  let guess := max (Int.ofNat num.log2 - Int.ofNat den.log2 - 53) minExponent
  let (n, d) := scaled num den guess
  if n / d < Nat.pow 2 53 then guess else guess + 1

/-- The bits of the positive infinity. -/
def infinityBits : Nat := 0x7FF0000000000000

/-- The bits of the double nearest to `num / den`. A mantissa that rounds up to `2 ^ 53` carries into the exponent by
itself, since the two fields are adjacent. -/
def nearestBits (num den : Nat) : Nat :=
  if num = 0 then 0
  else
    let q := exponentOf num den
    let (n, d) := scaled num den q
    min ((q - minExponent).toNat * Nat.pow 2 52 + roundQuotient n d) infinityBits

/-- The double nearest to `± num / den`. -/
def nearest (negative : Bool) (num den : Nat) : Float :=
  Float.ofBits (UInt64.ofNat (nearestBits num den + if negative then Nat.pow 2 63 else 0))

/-- The double nearest to an integer; an infinity if the integer is out of range. -/
def ofInt (n : Int) : Float := nearest (decide (n < 0)) n.natAbs 1

/-- Whether the double nearest to an integer is finite. -/
def inRange (n : Int) : Bool := nearestBits n.natAbs 1 < infinityBits

/-- The double nearest to an integer that is in range. -/
def ofInt? (n : Int) : Option Float := if inRange n then some (ofInt n) else none

/-! ## Integers and doubles -/

/-- `± m · 2 ^ q` as a quotient of an integer and a positive natural. -/
def ratio (negative : Bool) (m : Nat) (q : Int) : Int × Nat :=
  let sign : Int := if negative then -1 else 1
  match q with
  | .ofNat k => (sign * Int.ofNat (m * Nat.pow 2 k), 1)
  | .negSucc k => (sign * Int.ofNat m, Nat.pow 2 (k + 1))

/-- The integer that the double is, if it is one. -/
def integral? : Binary64 → Option Int
  | .finite negative m q =>
    let (num, den) := ratio negative m q
    if num % Int.ofNat den = 0 then some (num / Int.ofNat den) else none
  | _ => none

/-- The integer part: what is left when the fraction is dropped. -/
def truncate? : Binary64 → Option Int
  | .finite negative m q =>
    let (num, den) := ratio negative m q
    some (num.tdiv (Int.ofNat den))
  | _ => none

/-- How an integer compares with a double, without rounding either; nothing compares with not-a-number. -/
def compareInt (n : Int) : Binary64 → Option Ordering
  | .finite negative m q =>
    let (num, den) := ratio negative m q
    some (compare (n * Int.ofNat den) num)
  | .infinite negative => some (if negative then .gt else .lt)
  | .nan => none

end Binary64

end LoxLang
