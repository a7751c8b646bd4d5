import LoxLang.Proofs.Lexemes
import LoxLang.Proofs.ShortestDigits

/-!
# Decimals as they are written

A `DecimalText` is a decimal character by character: a sign, digits, digits behind a point, and a power of ten. The
reader of numerals takes it for its `value` (`DecimalText.read?_chars`), the double that its magnitude rounds to. The
text of a finite double, with or without a power, is such a decimal, and its value is the double
(`Decimal.exists_text`): what is written is what is read.
-/

namespace LoxLang

/-- A decimal as it is written: digits, digits behind a point if there is one, and a power of ten if there is one. -/
structure DecimalText where
  negative : Bool
  whole : List Char
  fraction : Option (List Char)
  power : Option (Char × Option Bool × List Char)
  whole_digits : whole ≠ [] ∧ ∀ c ∈ whole, Letter.isDigit c = true
  fraction_digits : ∀ f ∈ fraction, f ≠ [] ∧ ∀ c ∈ f, Letter.isDigit c = true
  power_digits : ∀ p ∈ power, (p.1 = 'e' ∨ p.1 = 'E') ∧ p.2.2 ≠ [] ∧ ∀ c ∈ p.2.2, Letter.isDigit c = true

namespace DecimalText

/-- A sign that is written or left out. -/
def signed : Option Bool → List Char
  | none => []
  | some down => [if down then '-' else '+']

/-- A fraction behind its point. -/
def pointed : Option (List Char) → List Char
  | none => []
  | some places => '.' :: places

/-- A power behind its letter. -/
def powered : Option (Char × Option Bool × List Char) → List Char
  | none => []
  | some (letter, sign, digits) => letter :: signed sign ++ digits

/-- The text without the sign. -/
def body (n : DecimalText) : List Char := n.whole ++ (pointed n.fraction ++ powered n.power)

def chars (n : DecimalText) : List Char := (if n.negative then ['-'] else []) ++ n.body

/-- The digits before and behind the point. -/
def places (n : DecimalText) : List Char := n.fraction.getD []

/-- The power of ten as it is written. -/
def shift (n : DecimalText) : Int :=
  match n.power with
  | none => 0
  | some (_, sign, digits) =>
    if sign = some true then -(Int.ofNat (Decimal.natOfDigits digits)) else Int.ofNat (Decimal.natOfDigits digits)

/-- All digits as a natural. -/
def digits (n : DecimalText) : Nat := Decimal.natOfDigits (n.whole ++ n.places)

/-- The power of ten that belongs to the digits as a natural. -/
def exponent (n : DecimalText) : Int := n.shift - Int.ofNat n.places.length

/-- The double that is nearest to the decimal. -/
def value (n : DecimalText) : Float := Decimal.toFloat n.negative n.digits n.exponent

/-- No zero stands in front that could be left out. -/
def Minimal (n : DecimalText) : Prop := n.whole = ['0'] ∨ n.whole.head? ≠ some '0'

/-- There is neither a point nor a power. -/
def IsWhole (n : DecimalText) : Prop := n.fraction = none ∧ n.power = none

instance (n : DecimalText) : Decidable n.IsWhole := inferInstanceAs (Decidable (n.fraction = none ∧ n.power = none))

/-! ## Reading -/

theorem digit_plain {c : Char} (h : Letter.isDigit c = true) : c ∈ Text.plainCharacters :=
  List.mem_append_left ".eE+-".toList (Letter.mem_digits h)

/-- The text of a decimal consists of plain characters. -/
theorem plain (n : DecimalText) : ∀ c ∈ n.chars, c ∈ Text.plainCharacters := by
  intro c hc
  simp only [chars, body, List.mem_append] at hc
  rcases hc with hc | hc | hc | hc
  · cases hn : n.negative <;>
      simp only [hn, Bool.false_eq_true, if_false, if_true, List.not_mem_nil, List.mem_singleton] at hc
    subst hc
    decide
  · exact digit_plain (n.whole_digits.2 c hc)
  · cases hf : n.fraction with
    | none => simp [hf, pointed] at hc
    | some places =>
      rw [hf, pointed, List.mem_cons] at hc
      rcases hc with rfl | hc
      · decide
      · exact digit_plain ((n.fraction_digits places hf).2 c hc)
  · cases hp : n.power with
    | none => simp [hp, powered] at hc
    | some p =>
      obtain ⟨letter, sign, digits⟩ := p
      obtain ⟨hletter, -, hdigits⟩ := n.power_digits _ hp
      simp only [hp, powered, List.cons_append, List.mem_cons, List.mem_append] at hc
      rcases hc with rfl | hc | hc
      · rcases hletter with h | h <;> simp only at h <;> subst h <;> decide
      · match sign with
        | none => cases hc
        | some true => cases List.mem_singleton.mp hc; decide
        | some false => cases List.mem_singleton.mp hc; decide
      · exact digit_plain (hdigits c hc)

/-- Digits end where a point or a power follows them, or nothing at all. -/
theorem takeWhile_pointed (digits : List Char) (hd : ∀ c ∈ digits, Letter.isDigit c = true) (f : Option (List Char))
    (n : DecimalText) :
    (digits ++ (pointed f ++ powered n.power)).takeWhile Letter.isDigit = digits ∧
      (digits ++ (pointed f ++ powered n.power)).dropWhile Letter.isDigit = pointed f ++ powered n.power := by
  refine takeWhile_digits _ hd fun c hc => ?_
  match f with
  | some places => cases hc; decide
  | none =>
    match hp : n.power with
    | none => simp [hp, pointed, powered] at hc
    | some (letter, sign, digits) =>
      rw [hp] at hc
      cases hc
      obtain ⟨hletter, -⟩ := n.power_digits _ hp
      rcases hletter with h | h <;> simp only at h <;> subst h <;> decide

theorem takeWhile_powered (n : DecimalText) (digits : List Char) (hd : ∀ c ∈ digits, Letter.isDigit c = true) :
    (digits ++ powered n.power).takeWhile Letter.isDigit = digits ∧
      (digits ++ powered n.power).dropWhile Letter.isDigit = powered n.power :=
  takeWhile_pointed digits hd none n

theorem splitSign_signed (sign : Option Bool) {digits : List Char} (hne : digits ≠ [])
    (hd : ∀ c ∈ digits, Letter.isDigit c = true) :
    Decimal.splitSign (signed sign ++ digits) = (sign == some true, digits) := by
  obtain ⟨d, more, rfl⟩ := List.exists_cons_of_ne_nil hne
  match sign with
  | none => exact Decimal.splitSign_of_digit (hd d List.mem_cons_self) more
  | some true => rfl
  | some false => rfl

/-- A fraction and a power behind the digits are told apart when a decimal is read. -/
theorem ofNumeral?_of_parts {numeral : List Char} (n : DecimalText)
    (hsign : Decimal.splitSign numeral = (n.negative, n.body))
    (hwords : String.ofList (n.body.map Char.toLower) ∉ ["inf", "infinity", "nan"]) :
    Decimal.ofNumeral? numeral = some n.value := by
  have hdigit : Char.isDigit = Letter.isDigit := rfl
  obtain ⟨hne, hwhole⟩ := n.whole_digits
  obtain ⟨htake, hdrop⟩ : n.body.takeWhile Letter.isDigit = n.whole ∧
      n.body.dropWhile Letter.isDigit = pointed n.fraction ++ powered n.power :=
    n.takeWhile_pointed n.whole hwhole n.fraction
  unfold Decimal.ofNumeral?
  rw [hsign]
  dsimp only
  split
  · next he => exact absurd (he ▸ hwords) (by decide)
  · next he => exact absurd (he ▸ hwords) (by decide)
  · next he => exact absurd (he ▸ hwords) (by decide)
  · have fraction (places : List Char) (hf : n.fraction = some places) :=
      n.takeWhile_powered places (n.fraction_digits places hf).2
    have power (letter : Char) (sign : Option Bool) (digits : List Char) (hp : n.power = some (letter, sign, digits)) :
        (letter == 'e' || letter == 'E') = true ∧ digits.isEmpty = false ∧ digits.all Letter.isDigit = true ∧
          Decimal.splitSign (signed sign ++ digits) = (sign == some true, digits) := by
      obtain ⟨hletter, hdne, hdigits⟩ := n.power_digits _ hp
      exact ⟨by simpa using hletter, List.isEmpty_eq_false_iff.mpr hdne, List.all_eq_true.mpr hdigits,
        splitSign_signed sign hdne hdigits⟩
    rw [hdigit, htake, hdrop, value, digits, exponent, shift, places]
    rcases hf : n.fraction with _ | places <;> rcases hp : n.power with _ | ⟨letter, sign, digits⟩
    · simp [pointed, powered, hne]
    · obtain ⟨hletter, hdne, hdigits, hsplit⟩ := power letter sign digits hp
      have hpoint : letter ≠ '.' := by
        rintro rfl
        simp at hletter
      simp [pointed, powered, hne, hletter, hdne, hdigits, hsplit, hpoint]
    · obtain ⟨htake, hdrop⟩ := fraction places hf
      rw [hp] at htake hdrop
      simp only [pointed, List.cons_append, htake, hdrop]
      simp [powered, hne]
    · obtain ⟨htake, hdrop⟩ := fraction places hf
      obtain ⟨hletter, hdne, hdigits, hsplit⟩ := power letter sign digits hp
      rw [hp] at htake hdrop
      simp only [pointed, List.cons_append, htake, hdrop]
      simp [powered, hne, hletter, hdne, hdigits, hsplit]

/-- The text without the sign starts with a digit. -/
theorem exists_body (n : DecimalText) : ∃ c rest, n.body = c :: rest ∧ Letter.isDigit c = true := by
  obtain ⟨hne, hwhole⟩ := n.whole_digits
  obtain ⟨c, rest, hcons⟩ := List.exists_cons_of_ne_nil hne
  exact ⟨c, _, by rw [body, hcons, List.cons_append], hwhole c (hcons ▸ List.mem_cons_self)⟩

theorem splitSign_chars (n : DecimalText) : Decimal.splitSign n.chars = (n.negative, n.body) := by
  obtain ⟨c, rest, hbody, hc⟩ := n.exists_body
  rw [chars]
  cases n.negative with
  | true => rfl
  | false => rw [if_neg (by decide), List.nil_append, hbody, Decimal.splitSign_of_digit hc]

/-- **Reading.** Every decimal is read, and as the double nearest to it. -/
theorem read?_chars (n : DecimalText) : Decimal.read? (String.ofList n.chars) = some n.value := by
  obtain ⟨c, rest, hbody, hc⟩ := n.exists_body
  rw [Decimal.read?, Text.numeral?_of_plain n.plain, Option.bind_some]
  refine n.ofNumeral?_of_parts n.splitSign_chars ?_
  rw [hbody]
  exact Decimal.lower_notMem_of_digit hc rest

/-- The decimal without its sign. -/
def magnitude (n : DecimalText) : ℚ := n.digits * 10 ^ n.exponent

/-- A decimal that rounds to a double is read as it. -/
theorem value_eq (n : DecimalText) {x : Float} {m : Nat} {q : Int} (hx : Binary64.ofFloat x = .finite n.negative m q)
    (h : if m = 0 then n.digits = 0 else Binary64.RoundsTo m q n.magnitude) : n.value = x := by
  rcases Nat.eq_zero_or_pos m with rfl | hm
  · rw [if_pos rfl] at h
    rw [value, h]
    unfold Decimal.toFloat
    rw [if_pos rfl]
    exact Binary64.nearest_zero hx 1
  · rw [if_neg hm.ne'] at h
    exact Decimal.toFloat_eq hx hm h

end DecimalText

/-! ## Digits -/

namespace Decimal

theorem natOfDigits_append (a b : List Char) :
    natOfDigits (a ++ b) = natOfDigits a * 10 ^ b.length + natOfDigits b := by
  have h := (Nat.ofDigitChars_append (b := 10) (l := a) (m := b) 0).trans Nat.ofDigitChars_eq_ofDigitChars_zero
  rw [Nat.mul_comm] at h
  exact h

theorem natOfDigits_zeros (n : Nat) : natOfDigits (zeros n) = 0 :=
  (Nat.ofDigitChars_replicate_zero (b := 10) (n := n)).trans (Nat.mul_zero _)

theorem natOfDigits_toDigits (n : Nat) : natOfDigits (Nat.toDigits 10 n) = n := Nat.ofDigitChars_ten_toDigits

theorem isDigit_toDigits (n : Nat) : ∀ c ∈ Nat.toDigits 10 n, Letter.isDigit c = true := fun _ hc =>
  Nat.isDigit_of_mem_toDigits (by decide) (by decide) hc

theorem isDigit_zeros (n : Nat) : ∀ c ∈ zeros n, Letter.isDigit c = true := by
  intro c hc
  rw [(List.mem_replicate.mp hc).2]
  decide

/-- The digits of a positive natural do not start with a zero. -/
theorem head?_toDigits {n : Nat} (h : 0 < n) : (Nat.toDigits 10 n).head? ≠ some '0' := by
  induction n using Nat.strongRecOn with
  | ind n ih =>
    rcases Nat.lt_or_ge n 10 with hlt | hge
    · have hall : ∀ n < 10, 0 < n → (Nat.toDigits 10 n).head? ≠ some '0' := by decide
      exact hall n hlt h
    · rw [Nat.toDigits_of_base_le (by decide) hge, List.head?_append_of_ne_nil _ Nat.toDigits_ne_nil]
      exact ih (n / 10) (by omega) (by omega)

/-- The zeros at the end of digits are taken off, and nothing else. -/
theorem significant_append_zeros (digits : List Char) : ∃ k, digits = significant digits ++ zeros k := by
  refine ⟨(digits.reverse.takeWhile (· == '0')).length, ?_⟩
  have hzeros : digits.reverse.takeWhile (· == '0') = zeros (digits.reverse.takeWhile (· == '0')).length :=
    List.eq_replicate_iff.mpr ⟨rfl, fun c hc => by simpa using List.mem_takeWhile_imp hc⟩
  have hsplit := congrArg List.reverse (List.takeWhile_append_dropWhile (p := (· == '0')) (l := digits.reverse))
  rw [List.reverse_append, List.reverse_reverse] at hsplit
  exact hsplit.symm.trans (congrArg (significant digits ++ ·)
    ((congrArg List.reverse hzeros).trans List.reverse_replicate))

theorem significant_ne_nil {digits : List Char} (h : natOfDigits digits ≠ 0) : significant digits ≠ [] := by
  obtain ⟨k, hk⟩ := significant_append_zeros digits
  intro hnil
  rw [hk, hnil, List.nil_append] at h
  exact h (natOfDigits_zeros k)

theorem natOfDigits_append_zeros (digits : List Char) (k : Nat) :
    natOfDigits (digits ++ zeros k) = natOfDigits digits * 10 ^ k := by
  rw [natOfDigits_append, natOfDigits_zeros, Nat.add_zero, zeros, List.length_replicate]

theorem natOfDigits_zeros_append (digits : List Char) (k : Nat) :
    natOfDigits (zeros k ++ digits) = natOfDigits digits := by
  rw [natOfDigits_append, natOfDigits_zeros, Nat.zero_mul, Nat.zero_add]

/-! ## Notation -/

/-- A decimal with a point and without a power. -/
def fixed (negative : Bool) (whole places : List Char) (hw : whole ≠ [] ∧ ∀ c ∈ whole, Letter.isDigit c = true)
    (hp : places ≠ [] ∧ ∀ c ∈ places, Letter.isDigit c = true) : DecimalText :=
  ⟨negative, whole, some places, none, hw, by rintro _ ⟨⟩; exact hp, by rintro _ ⟨⟩⟩

theorem body_fixed {negative : Bool} {whole places : List Char} (hw hp) :
    (fixed negative whole places hw hp).body = whole ++ '.' :: places := by
  simp [fixed, DecimalText.body, DecimalText.pointed, DecimalText.powered]

theorem magnitude_fixed {negative : Bool} {whole places : List Char} (hw hp) :
    (fixed negative whole places hw hp).magnitude
      = natOfDigits (whole ++ places) * 10 ^ (-(places.length : Int)) := by
  simp [fixed, DecimalText.magnitude, DecimalText.digits, DecimalText.exponent, DecimalText.places, DecimalText.shift]

/-- A decimal that stands for the digits with the point behind the first `e + 1` of them. -/
structure Stands (n : DecimalText) (digits : List Char) (e : Int) : Prop where
  magnitude : n.magnitude = natOfDigits digits * 10 ^ (e + 1 - digits.length)
  leading : n.whole = ['0'] ∨ n.whole.head? = digits.head?
  fractional : ¬ n.IsWhole

variable {digits : List Char} (hne : digits ≠ []) (hd : ∀ c ∈ digits, Letter.isDigit c = true)
include hne hd

theorem positional_stands (negative : Bool) (e : Int) :
    ∃ n : DecimalText, n.negative = negative ∧ positional digits e = String.ofList n.body ∧ Stands n digits e := by
  have hzero : ∀ c ∈ ['0'], Letter.isDigit c = true := List.forall_mem_singleton.mpr rfl
  cases e with
  | ofNat k =>
    -- the point stands among the digits, or behind them and some zeros
    rcases Nat.lt_or_ge (k + 1) digits.length with hlt | hge
    · have hw : digits.take (k + 1) ≠ [] ∧ ∀ c ∈ digits.take (k + 1), Letter.isDigit c = true :=
        ⟨by simpa using hne, fun c hc => hd c (List.mem_of_mem_take hc)⟩
      have hp : digits.drop (k + 1) ≠ [] ∧ ∀ c ∈ digits.drop (k + 1), Letter.isDigit c = true :=
        ⟨by simpa using hlt, fun c hc => hd c (List.mem_of_mem_drop hc)⟩
      refine ⟨fixed negative _ _ hw hp, rfl, ?_, ?_, .inr ?_, by simp [DecimalText.IsWhole, fixed]⟩
      · simp [positional, body_fixed, Nat.sub_eq_zero_of_le hlt.le, zeros, hp.1]
      · rw [magnitude_fixed, List.take_append_drop, List.length_drop]
        congr 2
        simp only [Int.ofNat_eq_natCast]
        omega
      · obtain ⟨c, rest, rfl⟩ := List.exists_cons_of_ne_nil hne
        rfl
    · have hw : digits ++ zeros (k + 1 - digits.length) ≠ [] ∧
          ∀ c ∈ digits ++ zeros (k + 1 - digits.length), Letter.isDigit c = true :=
        ⟨by simp [hne], fun c hc => (List.mem_append.mp hc).elim (hd c) (isDigit_zeros _ c)⟩
      refine ⟨fixed negative _ ['0'] hw ⟨by simp, hzero⟩, rfl, ?_, ?_, .inr ?_, by simp [DecimalText.IsWhole, fixed]⟩
      · simp [positional, body_fixed, List.take_of_length_le hge, List.drop_eq_nil_of_le hge]
      · rw [magnitude_fixed, show ['0'] = zeros 1 from rfl, natOfDigits_append_zeros, natOfDigits_append_zeros,
          Int.ofNat_eq_natCast, show (k : Int) + 1 - digits.length = ((k + 1 - digits.length : Nat) : Int) by omega,
          zpow_natCast]
        push_cast
        simp only [zeros, List.length_replicate, Nat.cast_one, zpow_neg_one]
        field_simp
      · simp [fixed, List.head?_append_of_ne_nil _ hne]
  | negSucc k =>
    -- the point stands in front of the digits and some zeros
    have hp : zeros k ++ digits ≠ [] ∧ ∀ c ∈ zeros k ++ digits, Letter.isDigit c = true :=
      ⟨by simp [hne], fun c hc => (List.mem_append.mp hc).elim (isDigit_zeros _ c) (hd c)⟩
    refine ⟨fixed negative ['0'] _ ⟨by simp, hzero⟩ hp, rfl, ?_, ?_, .inl rfl, by simp [DecimalText.IsWhole, fixed]⟩
    · simp [positional, body_fixed]
    · rw [magnitude_fixed, show ['0'] = zeros 1 from rfl, natOfDigits_zeros_append, natOfDigits_zeros_append]
      congr 2
      simp only [zeros, List.length_append, List.length_replicate]
      omega

theorem scientific_stands (negative : Bool) (e : Int) :
    ∃ n : DecimalText, n.negative = negative ∧ scientific digits e = String.ofList n.body ∧ Stands n digits e := by
  obtain ⟨c, rest, rfl⟩ := List.exists_cons_of_ne_nil hne
  let power := zeros (2 - (Nat.toDigits 10 e.natAbs).length) ++ Nat.toDigits 10 e.natAbs
  have hpower : power ≠ [] ∧ ∀ c ∈ power, Letter.isDigit c = true :=
    ⟨by simp [power, Nat.toDigits_ne_nil], fun c hc => (List.mem_append.mp hc).elim (isDigit_zeros _ c)
      (isDigit_toDigits _ c)⟩
  have hvalue : natOfDigits power = e.natAbs := by rw [natOfDigits_zeros_append, natOfDigits_toDigits]
  let n : DecimalText :=
    { negative
      whole := [c]
      fraction := if rest.isEmpty then none else some rest
      power := some ('e', some (decide (e < 0)), power)
      whole_digits := ⟨by simp, fun d hd' => hd d (by simp at hd'; simp [hd'])⟩
      fraction_digits := by
        intro f hf
        split at hf
        · cases hf
        · next hrest =>
          cases hf
          exact ⟨fun h => hrest (by simp [h]), fun d hd' => hd d (List.mem_cons_of_mem c hd')⟩
      power_digits := by
        rintro _ ⟨⟩
        exact ⟨.inl rfl, hpower⟩ }
  have hplaces : n.places = rest := by
    cases rest <;> rfl
  refine ⟨n, rfl, ?_, ?_, .inr rfl, by simp [DecimalText.IsWhole, n]⟩
  · rw [scientific]
    cases rest <;> simp [n, power, DecimalText.body, DecimalText.pointed, DecimalText.powered, DecimalText.signed]
  · rw [DecimalText.magnitude, DecimalText.digits, DecimalText.exponent, hplaces]
    congr 2
    have hshift : n.shift = e := by
      simp only [DecimalText.shift, n, hvalue, Option.some.injEq, decide_eq_true_eq]
      split <;> simp only [Int.ofNat_eq_natCast] <;> omega
    rw [hshift, List.length_cons, Int.ofNat_eq_natCast]
    push_cast
    ring

omit hne hd

/-- A decimal of the digits of a positive natural stands for it, whatever zeros at the end are left out. -/
theorem Stands.of_significant {n : DecimalText} {digits : Nat} {exponent : Int} (hpos : 0 < digits)
    (h : Stands n (significant (Nat.toDigits 10 digits))
      (exponent + Int.ofNat (Nat.toDigits 10 digits).length - 1)) :
    n.magnitude = digits * 10 ^ exponent ∧ n.Minimal := by
  obtain ⟨k, hk⟩ := significant_append_zeros (Nat.toDigits 10 digits)
  have hvalue := natOfDigits_toDigits digits
  have hhead := head?_toDigits hpos
  have hne : significant (Nat.toDigits 10 digits) ≠ [] := significant_ne_nil (by omega)
  rw [hk, natOfDigits_append_zeros] at hvalue
  rw [hk, List.head?_append_of_ne_nil _ hne] at hhead
  have hlength : (Nat.toDigits 10 digits).length = (significant (Nat.toDigits 10 digits)).length + k := by
    conv_lhs => rw [hk]
    simp [zeros]
  refine ⟨?_, h.leading.imp_right fun heq => by rwa [heq]⟩
  rw [h.magnitude, hlength, Int.ofNat_eq_natCast]
  conv_rhs => rw [← hvalue]
  push_cast
  rw [show exponent + (((significant (Nat.toDigits 10 digits)).length : Int) + k) - 1 + 1
    - (significant (Nat.toDigits 10 digits)).length = k + exponent by ring, zpow_add₀ (by norm_num), zpow_natCast,
    mul_assoc]

/-- The text of a positive double is a decimal that rounds to it. -/
theorem exists_magnitude (negative : Bool) {m : Nat} {q : Int} (hc : Binary64.Canonical m q) (hm : 0 < m) :
    ∃ n : DecimalText, n.negative = negative ∧ magnitude m q = String.ofList n.body ∧
      Binary64.RoundsTo m q n.magnitude ∧ n.Minimal ∧ ¬ n.IsWhole := by
  have hpos := shortest_digits_pos hc hm
  have hrounds := shortest_roundsTo hc hm
  rw [magnitude, if_neg hm.ne']
  dsimp only
  generalize shortest m q = s at *
  have hne : significant (Nat.toDigits 10 s.digits) ≠ [] := significant_ne_nil (by rw [natOfDigits_toDigits]; omega)
  have hd : ∀ c ∈ significant (Nat.toDigits 10 s.digits), Letter.isDigit c = true := by
    obtain ⟨k, hk⟩ := significant_append_zeros (Nat.toDigits 10 s.digits)
    exact fun c hc => isDigit_toDigits s.digits c (hk ▸ List.mem_append_left _ hc)
  have finish (n : DecimalText) (h : Stands n (significant (Nat.toDigits 10 s.digits))
      (s.exponent + Int.ofNat (Nat.toDigits 10 s.digits).length - 1)) :
      Binary64.RoundsTo m q n.magnitude ∧ n.Minimal ∧ ¬ n.IsWhole := by
    obtain ⟨hmagnitude, hminimal⟩ := h.of_significant hpos
    exact ⟨hmagnitude ▸ hrounds, hminimal, h.fractional⟩
  split
  · obtain ⟨n, hnegative, htext, hstands⟩ := positional_stands hne hd negative
      (s.exponent + Int.ofNat (Nat.toDigits 10 s.digits).length - 1)
    exact ⟨n, hnegative, htext, finish n hstands⟩
  · obtain ⟨n, hnegative, htext, hstands⟩ := scientific_stands hne hd negative
      (s.exponent + Int.ofNat (Nat.toDigits 10 s.digits).length - 1)
    exact ⟨n, hnegative, htext, finish n hstands⟩

/-- The integer that a double is has the double's value. -/
theorem natAbs_of_integral? {m : Nat} {q n : Int} (h : Binary64.integral? (.finite false m q) = some n) :
    (n.natAbs : ℚ) = m * 2 ^ q := by
  rw [Binary64.integral?] at h
  cases q with
  | ofNat k =>
    simp only [Binary64.ratio, Bool.false_eq_true, if_false, one_mul, Nat.pow_eq, Int.ofNat_eq_natCast] at h
    rw [if_pos (by simp)] at h
    obtain rfl := Option.some.inj h
    simp
  | negSucc k =>
    simp only [Binary64.ratio, Bool.false_eq_true, if_false, one_mul, Nat.pow_eq, Int.ofNat_eq_natCast] at h
    split at h
    next hmod =>
      obtain rfl := Option.some.inj h
      have hdvd : 2 ^ (k + 1) ∣ m := Nat.dvd_of_mod_eq_zero (by exact_mod_cast hmod)
      obtain ⟨c, rfl⟩ := hdvd
      rw [← Int.natCast_ediv, Int.natAbs_natCast, Nat.mul_div_cancel_left c (by positivity), zpow_negSucc]
      push_cast
      field_simp
    next => cases h

/-- A natural as a decimal. -/
def natural (negative : Bool) (n : Nat) : DecimalText :=
  ⟨negative, Nat.toDigits 10 n, none, none, ⟨Nat.toDigits_ne_nil, isDigit_toDigits n⟩, by rintro _ ⟨⟩, by rintro _ ⟨⟩⟩

theorem body_natural (negative : Bool) (n : Nat) : (natural negative n).body = Nat.toDigits 10 n := by
  simp [natural, DecimalText.body, DecimalText.pointed, DecimalText.powered]

theorem digits_natural (negative : Bool) (n : Nat) : (natural negative n).digits = n := by
  simp [natural, DecimalText.digits, DecimalText.places, natOfDigits_toDigits]

theorem magnitude_natural (negative : Bool) (n : Nat) : (natural negative n).magnitude = n := by
  rw [DecimalText.magnitude, digits_natural]
  simp [natural, DecimalText.exponent, DecimalText.places, DecimalText.shift]

theorem minimal_natural (negative : Bool) (n : Nat) : (natural negative n).Minimal := by
  rcases Nat.eq_zero_or_pos n with rfl | hn
  · exact .inl rfl
  · exact .inr (head?_toDigits hn)

section Finite

variable {x : Float} {negative : Bool} {m : Nat} {q : Int} (hx : Binary64.ofFloat x = .finite negative m q)

omit hx in
/-- A sign and a decimal without one. -/
theorem signed_body {n : DecimalText} (hn : n.negative = negative) :
    (if negative then "-" else "") ++ String.ofList n.body = String.ofList n.chars := by
  rw [DecimalText.chars, hn, String.ofList_append]
  cases negative <;> rfl

include hx

/-- **Writing.** The text of a finite double is a decimal with a point or a power that is read as the double. -/
theorem exists_text : ∃ n : DecimalText, n.negative = negative ∧ text x = String.ofList n.chars ∧ n.value = x ∧
    n.Minimal ∧ ¬ n.IsWhole := by
  rw [text, hx]
  dsimp only
  rcases Nat.eq_zero_or_pos m with rfl | hm
  · have hzero : ['0'] ≠ [] ∧ ∀ c ∈ ['0'], Letter.isDigit c = true :=
      ⟨List.cons_ne_nil _ _, List.forall_mem_singleton.mpr rfl⟩
    refine ⟨fixed negative ['0'] ['0'] hzero hzero, rfl, ?_, ?_, .inl rfl, by simp [DecimalText.IsWhole, fixed]⟩
    · rw [← signed_body rfl, body_fixed]
      rfl
    · exact DecimalText.value_eq _ hx rfl
  · obtain ⟨n, hn, htext, hrounds, hminimal, hwhole⟩ := exists_magnitude negative (Binary64.of_ofBits hx).1 hm
    refine ⟨n, hn, ?_, ?_, hminimal, hwhole⟩
    · rw [htext, signed_body hn]
    · exact n.value_eq (hn ▸ hx) (by rwa [if_neg hm.ne'])

/-- The text of a finite double is read as the double. -/
theorem read?_text : read? (text x) = some x := by
  obtain ⟨n, -, htext, hvalue, -⟩ := exists_text hx
  rw [htext, n.read?_chars, hvalue]

/-- The text of a finite double in a program's output is a decimal that is read as the double. -/
theorem exists_display :
    ∃ n : DecimalText, n.negative = negative ∧ display x = String.ofList n.chars ∧ n.value = x := by
  obtain ⟨n, hn, htext, hvalue, -⟩ := exists_text hx
  rw [display, hx]
  dsimp only
  split
  next k hk =>
    split
    · refine ⟨natural negative k.natAbs, rfl, ?_, (natural negative k.natAbs).value_eq hx ?_⟩
      · rw [← signed_body rfl, body_natural, Nat.toString_eq_ofList_toDigits]
        rfl
      · have habs := natAbs_of_integral? hk
        split
        next hm =>
          rw [hm, Nat.cast_zero, zero_mul] at habs
          rw [digits_natural]
          exact_mod_cast habs
        next hm =>
          rw [magnitude_natural, habs]
          exact Binary64.roundsTo_self m q
    · exact ⟨n, hn, htext, hvalue⟩
  next => exact ⟨n, hn, htext, hvalue⟩

/-- The text of a finite double in a program's output is read as the double. -/
theorem read?_display : read? (display x) = some x := by
  obtain ⟨n, -, htext, hvalue⟩ := exists_display hx
  rw [htext, n.read?_chars, hvalue]

end Finite

end Decimal

end LoxLang
