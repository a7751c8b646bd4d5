import LoxLang.Binary64
import LoxLang.Text.Numeral

/-!
# Doubles in decimal

Reading (`Decimal.read?`) rounds a decimal to the nearest double. Writing (`Decimal.text`) takes the fewest digits that
read back as the same double, and of those the nearest: `Decimal.shortest` tries one digit, two, and so on up to
seventeen, and at each count looks at the two neighbours of the value on that decimal grid.
-/

namespace LoxLang.Decimal

/-- The number of decimal digits of a natural; none for zero. -/
def digitCount (n : Nat) : Nat := if n = 0 then 0 else (Nat.toDigits 10 n).length

/-- `digits · 10 ^ exponent`. -/
structure Scaled where
  digits : Nat
  exponent : Int

/-! ## Shortest digits -/

/-- A positive double between the bounds within which decimals round to it, all three over one denominator. -/
structure Interval where
  low : Nat
  value : Nat
  high : Nat
  den : Nat
  /-- Whether a decimal at a bound still rounds to the value. -/
  closed : Bool

/-- The interval of `m · 2 ^ q`. Below a power of two the doubles are twice as dense, so the lower half is shorter. -/
def Interval.of (m : Nat) (q : Int) : Interval :=
  let below := if m = Nat.pow 2 52 ∧ Binary64.minExponent < q then 1 else 2
  let (up, den) : Nat × Nat := match q - 2 with
    | .ofNat k => (Nat.pow 2 k, 1)
    | .negSucc k => (1, Nat.pow 2 (k + 1))
  { low := (4 * m - below) * up, value := 4 * m * up, high := (4 * m + 2) * up, den, closed := m % 2 == 0 }

/-- Whether `num / den` rounds to the value of the interval. -/
def Interval.holds (i : Interval) (num den : Nat) : Bool :=
  if i.closed then i.low * den ≤ num * i.den ∧ num * i.den ≤ i.high * den
  else i.low * den < num * i.den ∧ num * i.den < i.high * den

/-- The power of ten of the first digit of `num / den`. -/
def leading (num den : Nat) : Int :=
  if den ≤ num then Int.ofNat (digitCount (num / den)) - 1 else -(Int.ofNat (digitCount ((den - 1) / num)))

/-- The decimal on the grid of multiples of `10 ^ p` that rounds to the value of the interval and is nearest to it;
of two equally near ones the even one. -/
def Interval.onGrid (i : Interval) (p : Int) : Option Scaled :=
  let (up, down) : Nat × Nat := match p with
    | .ofNat k => (Nat.pow 10 k, 1)
    | .negSucc k => (1, Nat.pow 10 (k + 1))
  let num := i.value * down
  let unit := i.den * up
  let floor := num / unit
  let twice := 2 * (num % unit)
  let below := i.holds (floor * up) down
  let above := i.holds ((floor + 1) * up) down
  let preferBelow := decide (twice < unit ∨ (twice = unit ∧ floor % 2 = 0))
  if below && (preferBelow || !above) then some ⟨floor, p⟩
  else if above then some ⟨floor + 1, p⟩
  else none

/-- The first hit on the grids with `places`, `places + 1`, … digits after the first. -/
def Interval.search (i : Interval) (lead : Int) : (tries places : Nat) → Scaled
  | 0, places => ⟨i.value / i.den, lead - places⟩
  | tries + 1, places => (i.onGrid (lead - places)).getD (i.search lead tries (places + 1))

/-- The fewest digits that read back as `m · 2 ^ q`, for a positive `m`. -/
def shortest (m : Nat) (q : Int) : Scaled :=
  let i := Interval.of m q
  i.search (leading i.value i.den) 17 0

/-! ## Notation -/

/-- Digits without the zeros at their end. -/
def significant (digits : List Char) : List Char := (digits.reverse.dropWhile (· == '0')).reverse

def zeros (n : Nat) : List Char := List.replicate n '0'

/-- Digits with a point after the first `e + 1` of them, and at least one digit on either side. -/
def positional (digits : List Char) (e : Int) : String :=
  match e with
  | .ofNat k =>
    let whole := digits.take (k + 1) ++ zeros (k + 1 - digits.length)
    let fraction := digits.drop (k + 1)
    String.ofList (whole ++ '.' :: if fraction.isEmpty then ['0'] else fraction)
  | .negSucc k => String.ofList ('0' :: '.' :: zeros k ++ digits)

/-- Digits with a point after the first, if more follow, and a signed exponent of at least two digits. -/
def scientific (digits : List Char) (e : Int) : String :=
  let fraction := digits.drop 1
  let power := Nat.toDigits 10 e.natAbs
  String.ofList (digits.take 1 ++ (if fraction.isEmpty then [] else '.' :: fraction)
    ++ 'e' :: (if e < 0 then '-' else '+') :: zeros (2 - power.length) ++ power)

/-- The text of `m · 2 ^ q`: positional while the exponent of the first digit is at least -4 and below 16. -/
def magnitude (m : Nat) (q : Int) : String :=
  if m = 0 then "0.0"
  else
    let s := shortest m q
    let all := Nat.toDigits 10 s.digits
    let e := s.exponent + Int.ofNat all.length - 1
    if -4 ≤ e ∧ e < 16 then positional (significant all) e else scientific (significant all) e

/-- The shortest text that reads back as the same double. -/
def text (x : Float) : String :=
  match Binary64.ofFloat x with
  | .finite negative m q => (if negative then "-" else "") ++ magnitude m q
  | .infinite negative => if negative then "-inf" else "inf"
  | .nan => "nan"

/-- The text of a number in a program's output: an integral number below `10 ^ 16` is written without a fraction. -/
def display (x : Float) : String :=
  match Binary64.ofFloat x with
  | .finite negative m q =>
    match Binary64.integral? (.finite false m q) with
    | some n => if n < Int.pow 10 16 then (if negative then "-" else "") ++ toString n.natAbs else text x
    | none => text x
  | _ => text x

/-! ## Reading -/

def digitValue (c : Char) : Nat := c.toNat - '0'.toNat

/-- The natural that decimal digits spell. -/
def natOfDigits (digits : List Char) : Nat := digits.foldl (fun n c => 10 * n + digitValue c) 0

/-- The double nearest to `± digits · 10 ^ exponent`. Beyond four hundred places either way the answer is an infinity
or a zero whatever the digits are. -/
def toFloat (negative : Bool) (digits : Nat) (exponent : Int) : Float :=
  if digits = 0 then Binary64.nearest negative 0 1
  else
    let lead := exponent + digitCount digits
    if 400 < lead then Binary64.nearest negative (Nat.pow 10 400) 1
    else if lead < -400 then Binary64.nearest negative 0 1
    else match exponent with
      | .ofNat k => Binary64.nearest negative (digits * Nat.pow 10 k) 1
      | .negSucc k => Binary64.nearest negative digits (Nat.pow 10 (k + 1))

/-- The double nearest to digits with an optional fraction. -/
def ofDigits (whole fraction : List Char) : Float :=
  toFloat false (natOfDigits (whole ++ fraction)) (-(Int.ofNat fraction.length))

/-- A sign, if there is one, and what follows it. -/
def splitSign : List Char → Bool × List Char
  | '-' :: rest => (true, rest)
  | '+' :: rest => (false, rest)
  | rest => (false, rest)

/-- The double that a numeral spells: a decimal with an optional exponent, or else `inf` or `nan`. -/
def ofNumeral? (numeral : List Char) : Option Float :=
  let (negative, body) := splitSign numeral
  match String.ofList (body.map Char.toLower) with
  | "inf" | "infinity" => some (if negative then -(1.0 / 0.0) else 1.0 / 0.0)
  | "nan" => some (0.0 / 0.0)
  | _ =>
    let whole := body.takeWhile Char.isDigit
    let afterWhole := body.dropWhile Char.isDigit
    let (fraction, rest) : List Char × List Char := match afterWhole with
      | '.' :: more => (more.takeWhile Char.isDigit, more.dropWhile Char.isDigit)
      | other => ([], other)
    if whole.isEmpty && fraction.isEmpty then none
    else
      let value (power : Int) : Float :=
        toFloat negative (natOfDigits (whole ++ fraction)) (power - Int.ofNat fraction.length)
      match rest with
      | [] => some (value 0)
      | c :: more =>
        let (down, power) := splitSign more
        if (c == 'e' || c == 'E') && !power.isEmpty && power.all Char.isDigit then
          some (value (if down then -(Int.ofNat (natOfDigits power)) else Int.ofNat (natOfDigits power)))
        else none

/-- The double that a text spells. -/
def read? (s : String) : Option Float := (Text.numeral? s).bind ofNumeral?

end LoxLang.Decimal
