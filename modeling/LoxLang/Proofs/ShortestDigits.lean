import LoxLang.Decimal
import LoxLang.Proofs.Doubles

/-!
# Shortest digits

The digits of a double are searched for on grids of powers of ten, from coarse ones to fine ones, until a point of a
grid lies in the interval of numbers that are rounded to the double. A grid of seventeen digits always has such a
point, and so the digits that are found round to the double (`shortest_roundsTo`). Digits that do are read as it
(`toFloat_eq`).
-/

namespace LoxLang.Decimal

open Binary64 (Canonical RoundsTo slack two_zpow_pos)

/-! ## Digits -/

theorem lt_pow_digitCount (n : Nat) : n < 10 ^ digitCount n := by
  rw [digitCount]
  split
  next h => simp [h]
  next h => exact (Nat.length_toDigits_le_iff (by decide) Nat.length_toDigits_pos).mp le_rfl

theorem digitCount_pos {n : Nat} (h : 0 < n) : 0 < digitCount n := by
  rw [digitCount, if_neg h.ne']
  exact Nat.length_toDigits_pos

theorem pow_digitCount_le {n : Nat} (h : 0 < n) : 10 ^ (digitCount n - 1) ≤ n := by
  by_contra hlt
  have hpos := digitCount_pos h
  have hone : digitCount n ≠ 1 := by
    intro hone
    rw [hone] at hlt
    omega
  have hle : (Nat.toDigits 10 n).length ≤ digitCount n - 1 :=
    (Nat.length_toDigits_le_iff (by decide) (by omega)).mpr (by omega)
  rw [digitCount, if_neg h.ne'] at hpos hone hle
  omega

/-- The first digit of a quotient stands at the place that is named. -/
theorem pow_leading_le {num den : Nat} (hnum : 0 < num) (hden : 0 < den) :
    (10 : ℚ) ^ leading num den ≤ num / den := by
  have hd : (0 : ℚ) < den := by exact_mod_cast hden
  rw [leading, le_div_iff₀ hd]
  split
  next hle =>
    have hquot : 0 < num / den := Nat.div_pos hle hden
    have hpos := digitCount_pos hquot
    have hmul : 10 ^ (digitCount (num / den) - 1) * den ≤ num :=
      (Nat.mul_le_mul_right den (pow_digitCount_le hquot)).trans (Nat.div_mul_le_self num den)
    rw [Int.ofNat_eq_natCast,
      show (digitCount (num / den) : Int) - 1 = ((digitCount (num / den) - 1 : Nat) : Int) by omega, zpow_natCast]
    exact_mod_cast hmul
  next hlt =>
    have hmul : den ≤ num * 10 ^ digitCount ((den - 1) / num) := by
      have hnext := Nat.lt_mul_div_succ (den - 1) hnum
      have := Nat.mul_le_mul_left num (lt_pow_digitCount ((den - 1) / num))
      rw [Nat.succ_eq_add_one] at this
      omega
    rw [Int.ofNat_eq_natCast, zpow_neg, zpow_natCast, inv_mul_le_iff₀ (by positivity), mul_comm]
    exact_mod_cast hmul

/-! ## The interval of a double -/

namespace Interval

variable {m : Nat} {q : Int}

/-- The terms of the interval as a double's bounds, and the double itself. -/
theorem of_spec (hm : 0 < m) :
    0 < (of m q).den ∧ ((of m q).low : ℚ) / (of m q).den = (m - slack m q) * 2 ^ q ∧
      ((of m q).value : ℚ) / (of m q).den = m * 2 ^ q ∧ ((of m q).high : ℚ) / (of m q).den = (m + 1 / 2) * 2 ^ q := by
  -- the terms count quarters of a unit in the last place, so that both ends are whole
  have hquarter : (2 : ℚ) ^ q = 4 * 2 ^ (q - 2) := by
    rw [zpow_sub₀ two_ne_zero]
    ring
  have hlow (k : Nat) (hk : k ≤ 2) : ((4 * m - k : Nat) : ℚ) = 4 * m - k := by
    rw [Nat.cast_sub (by omega)]
    push_cast
    rfl
  have hbelow : ((if m = Nat.pow 2 52 ∧ Binary64.minExponent < q then 1 else 2 : Nat) : ℚ) = 4 * slack m q := by
    rw [slack]
    simp only [Nat.pow_eq]
    split <;> norm_num
  simp only [of]
  rw [hquarter]
  generalize q - 2 = r
  cases r with
  | ofNat k =>
    simp only [Nat.pow_eq, Int.ofNat_eq_natCast, zpow_natCast]
    refine ⟨by decide, ?_, ?_, ?_⟩
    · rw [Nat.cast_mul, hlow _ (by split <;> decide), hbelow]
      push_cast
      ring
    all_goals push_cast; ring
  | negSucc k =>
    simp only [Nat.pow_eq, zpow_negSucc]
    refine ⟨by positivity, ?_, ?_, ?_⟩
    · rw [Nat.cast_mul, hlow _ (by split <;> decide), hbelow]
      push_cast
      ring
    all_goals push_cast; ring

/-- A quotient lies in the interval of a double when it rounds to it. -/
theorem holds_iff (hm : 0 < m) (num : Nat) {den : Nat} (hden : 0 < den) :
    (of m q).holds num den = true ↔ RoundsTo m q (num / den) := by
  obtain ⟨hpos, hlow, -, hhigh⟩ := of_spec (q := q) hm
  have hd : (0 : ℚ) < den := by exact_mod_cast hden
  have hi : (0 : ℚ) < (of m q).den := by exact_mod_cast hpos
  have hclosed : (of m q).closed = (m % 2 == 0) := rfl
  have low_le : (of m q).low * den ≤ num * (of m q).den ↔ (m - slack m q) * 2 ^ q ≤ (num : ℚ) / den := by
    rw [← hlow, div_le_div_iff₀ hi hd]
    exact_mod_cast Iff.rfl
  have le_high : num * (of m q).den ≤ (of m q).high * den ↔ (num : ℚ) / den ≤ (m + 1 / 2) * 2 ^ q := by
    rw [← hhigh, div_le_div_iff₀ hd hi]
    exact_mod_cast Iff.rfl
  have low_lt : (of m q).low * den < num * (of m q).den ↔ (m - slack m q) * 2 ^ q < (num : ℚ) / den := by
    rw [← hlow, div_lt_div_iff₀ hi hd]
    exact_mod_cast Iff.rfl
  have lt_high : num * (of m q).den < (of m q).high * den ↔ (num : ℚ) / den < (m + 1 / 2) * 2 ^ q := by
    rw [← hhigh, div_lt_div_iff₀ hd hi]
    exact_mod_cast Iff.rfl
  rw [holds, hclosed]
  rcases Nat.mod_two_eq_zero_or_one m with heven | hodd
  · simp only [heven, beq_self_eq_true, if_true, decide_eq_true_eq, low_le, le_high]
    exact ⟨fun ⟨h1, h2⟩ => ⟨h1, h2, fun h => absurd h (by omega)⟩, fun h => ⟨h.lower, h.upper⟩⟩
  · simp only [hodd, if_false, decide_eq_true_eq, low_lt, lt_high, one_ne_zero, beq_iff_eq]
    exact ⟨fun ⟨h1, h2⟩ => ⟨h1.le, h2.le, fun _ => ⟨h1, h2⟩⟩, fun h => h.strict hodd⟩

/-! ## The grids -/

/-- What a grid offers, with its unit as a quotient. -/
theorem onGrid_eq (i : Interval) (p : Int) : ∃ up down : Nat, 0 < up ∧ 0 < down ∧ (up : ℚ) / down = 10 ^ p ∧
    i.onGrid p =
      (let floor := i.value * down / (i.den * up)
       let twice := 2 * (i.value * down % (i.den * up))
       let below := i.holds (floor * up) down
       let above := i.holds ((floor + 1) * up) down
       let preferBelow := decide (twice < i.den * up ∨ (twice = i.den * up ∧ floor % 2 = 0))
       if below && (preferBelow || !above) then some ⟨floor, p⟩
       else if above then some ⟨floor + 1, p⟩
       else none) := by
  cases p with
  | ofNat k => exact ⟨10 ^ k, 1, by positivity, by decide, by simp, rfl⟩
  | negSucc k => exact ⟨1, 10 ^ (k + 1), by decide, by positivity, by simp [zpow_negSucc], rfl⟩

/-- What a grid offers rounds to the double. -/
theorem roundsTo_of_onGrid (hm : 0 < m) {p : Int} {s : Scaled} (h : (of m q).onGrid p = some s) :
    RoundsTo m q (s.digits * 10 ^ s.exponent) := by
  obtain ⟨up, down, -, hdown, hunit, hgrid⟩ := (of m q).onGrid_eq p
  have grid (n : Nat) (h : (of m q).holds (n * up) down = true) : RoundsTo m q (n * 10 ^ p) := by
    rw [holds_iff hm _ hdown] at h
    rwa [← hunit, mul_div_assoc', ← Nat.cast_mul]
  rw [hgrid] at h
  dsimp only at h
  split at h
  next hbelow =>
    obtain rfl := Option.some.inj h
    exact grid _ (Bool.and_eq_true _ _ ▸ hbelow).1
  next =>
    split at h
    next habove =>
      obtain rfl := Option.some.inj h
      exact grid _ habove
    next => cases h

/-- A point of a grid within half of a short unit rounds to the double. -/
theorem roundsTo_of_near {p : Int} (hunit : (10 : ℚ) ^ p < 2 * slack m q * 2 ^ q) {x : ℚ}
    (hlow : m * 2 ^ q - 10 ^ p / 2 ≤ x) (hhigh : x ≤ m * 2 ^ q + 10 ^ p / 2) : RoundsTo m q x := by
  have hslack := mul_le_mul_of_nonneg_right (Binary64.slack_le m q) (two_zpow_pos q).le
  exact ⟨by linarith, by linarith, fun _ => ⟨by linarith, by linarith⟩⟩

/-- A grid whose unit is short enough offers something. -/
theorem onGrid_isSome (hm : 0 < m) {p : Int} (hunit : (10 : ℚ) ^ p < 2 * slack m q * 2 ^ q) :
    ((of m q).onGrid p).isSome = true := by
  obtain ⟨up, down, hup, hdown, hpow, hgrid⟩ := (of m q).onGrid_eq p
  obtain ⟨hden, -, hvalue, -⟩ := of_spec (q := q) hm
  have near (n : Nat) (hlow : m * 2 ^ q - 10 ^ p / 2 ≤ (n : ℚ) * 10 ^ p)
      (hhigh : (n : ℚ) * 10 ^ p ≤ m * 2 ^ q + 10 ^ p / 2) : (of m q).holds (n * up) down = true := by
    rw [holds_iff hm _ hdown, Nat.cast_mul, ← mul_div_assoc', hpow]
    exact roundsTo_of_near hunit hlow hhigh
  rw [hgrid]
  dsimp only
  generalize hfloor : (of m q).value * down / ((of m q).den * up) = f
  have hbelow : (f : ℚ) * 10 ^ p ≤ m * 2 ^ q := by
    rw [← hvalue, ← hpow, mul_div_assoc', div_le_div_iff₀ (by positivity) (by positivity)]
    have := Nat.div_mul_le_self ((of m q).value * down) ((of m q).den * up)
    rw [hfloor] at this
    exact_mod_cast (by linarith : f * up * (of m q).den ≤ (of m q).value * down)
  have habove : (m : ℚ) * 2 ^ q < ((f + 1 : Nat) : ℚ) * 10 ^ p := by
    rw [← hvalue, ← hpow, mul_div_assoc', div_lt_div_iff₀ (by positivity) (by positivity)]
    have := Nat.lt_mul_div_succ ((of m q).value * down) (Nat.mul_pos hden hup)
    rw [hfloor] at this
    exact_mod_cast (by linarith : (of m q).value * down < (f + 1) * up * (of m q).den)
  -- The nearer one of the two neighbours is within half of a unit.
  rcases le_total ((m : ℚ) * 2 ^ q - f * 10 ^ p) (10 ^ p / 2) with hnear | hfar
  · rw [near f (by linarith) (by linarith)]
    cases (of m q).holds ((f + 1) * up) down
    · simp
    · simp only [Bool.true_and, if_true]
      split <;> rfl
  · push_cast at habove
    rw [near (f + 1) (by push_cast; linarith) (by push_cast; linarith)]
    simp only [if_true]
    split <;> rfl

/-- If one of the grids offers something, then so does the search: what the first of them offers. -/
theorem search_spec (i : Interval) (lead : Int) {tries : Nat} : ∀ {places k : Nat}, k < tries →
    (i.onGrid (lead - ((places + k : Nat) : Int))).isSome = true →
    ∃ p, i.onGrid p = some (i.search lead tries places) := by
  induction tries with
  | zero => exact fun h => absurd h (Nat.not_lt_zero _)
  | succ tries ih =>
    intro places k hk hsome
    rw [search]
    cases hfirst : i.onGrid (lead - places) with
    | some s => exact ⟨_, hfirst⟩
    | none =>
      cases k with
      | zero =>
        rw [Nat.add_zero, hfirst] at hsome
        cases hsome
      | succ k =>
        rw [← Nat.add_assoc, Nat.add_right_comm] at hsome
        exact ih (Nat.lt_of_succ_lt_succ hk) hsome

end Interval

/-! ## The shortest digits -/

variable {m : Nat} {q : Int}

/-- **The shortest digits round to the double that they are the digits of.** With seventeen digits the grid is finer
than the doubles are dense. -/
theorem shortest_roundsTo (hc : Canonical m q) (hm : 0 < m) :
    RoundsTo m q ((shortest m q).digits * 10 ^ (shortest m q).exponent) := by
  obtain ⟨hden, -, hvalue, -⟩ := Interval.of_spec (q := q) hm
  have hpos : 0 < (Interval.of m q).value := by
    by_contra h
    rw [Nat.eq_zero_of_not_pos h, Nat.cast_zero, zero_div] at hvalue
    have : (0 : ℚ) < m * 2 ^ q := by positivity
    linarith
  have hlead := pow_leading_le hpos hden
  rw [hvalue] at hlead
  -- on the grid of the seventeenth digit, if on none before it
  have hgrid : ((Interval.of m q).onGrid (leading (Interval.of m q).value (Interval.of m q).den
      - ((0 + 16 : Nat) : Int))).isSome = true := by
    refine Interval.onGrid_isSome hm ?_
    have hbound : (m : ℚ) < 2 * slack m q * 10 ^ 16 := by
      have hm53 : (m : ℚ) < 2 ^ 53 := by exact_mod_cast hc.bounded
      rw [slack]
      split
      next h => rw [h.1]; norm_num
      next => linarith
    rw [zpow_sub₀ (by norm_num), div_lt_iff₀ (by positivity)]
    calc (10 : ℚ) ^ leading (Interval.of m q).value (Interval.of m q).den ≤ m * 2 ^ q := hlead
      _ < 2 * slack m q * 10 ^ 16 * 2 ^ q := mul_lt_mul_of_pos_right hbound (two_zpow_pos q)
      _ = _ := by norm_num; ring
  obtain ⟨p, hp⟩ := Interval.search_spec _ _ (by decide : 16 < 17) hgrid
  exact Interval.roundsTo_of_onGrid hm hp

theorem shortest_digits_pos (hc : Canonical m q) (hm : 0 < m) : 0 < (shortest m q).digits := by
  have h := (shortest_roundsTo hc hm).pos hm
  by_contra hzero
  rw [Nat.eq_zero_of_not_pos hzero, Nat.cast_zero, zero_mul] at h
  exact lt_irrefl 0 h

/-! ## Reading digits -/

/-- A number that rounds to a double is below ten to the four hundredth, and above the inverse of that. -/
theorem roundsTo_bounds {x : ℚ} (hc : Canonical m q) (hm : 0 < m) (h : RoundsTo m q x) :
    (10 : ℚ) ^ (-400 : Int) < x ∧ x < (10 : ℚ) ^ (400 : Int) := by
  have hleast : (2 : ℚ) ^ (-1074 : Int) ≤ 2 ^ q := zpow_le_zpow_right₀ one_le_two hc.least
  have hgreatest : (2 : ℚ) ^ q ≤ 2 ^ (971 : Int) := zpow_le_zpow_right₀ one_le_two hc.greatest
  have hone : (1 : ℚ) ≤ m := by exact_mod_cast hm
  have hbounded : (m : ℚ) + 1 ≤ 2 ^ 53 := by exact_mod_cast hc.bounded
  have hpow : (2 : ℚ) ^ (1075 : Int) < 10 ^ (400 : Int) :=
    calc (2 : ℚ) ^ (1075 : Int) = (2 ^ 43) ^ 25 := by rw [← pow_mul]; rfl
      _ < (10 ^ 16) ^ 25 := pow_lt_pow_left₀ (by norm_num) (by positivity) (by decide)
      _ = 10 ^ (400 : Int) := by rw [← pow_mul]; rfl
  constructor
  · calc (10 : ℚ) ^ (-400 : Int) < 2 ^ (-1075 : Int) := by
          rw [zpow_neg, zpow_neg]
          exact inv_strictAnti₀ (by positivity) hpow
      _ = 1 / 2 * 2 ^ (-1074 : Int) := by
          rw [show (-1075 : Int) = -1074 - 1 by decide, zpow_sub_one₀ two_ne_zero]
          ring
      _ ≤ (m - 1 / 2) * 2 ^ q := mul_le_mul (by linarith) hleast (two_zpow_pos _).le (by linarith)
      _ ≤ x := (Binary64.half_below m q).trans h.lower
  · calc x ≤ (m + 1 / 2) * 2 ^ q := h.upper
      _ ≤ 2 ^ 53 * 2 ^ (971 : Int) := mul_le_mul (by linarith) hgreatest (two_zpow_pos _).le (by positivity)
      _ ≤ 2 ^ (1075 : Int) := by
          rw [← zpow_natCast, ← zpow_add₀ two_ne_zero]
          exact zpow_le_zpow_right₀ one_le_two (by decide)
      _ < 10 ^ (400 : Int) := hpow

/-- **Reading digits.** Digits at a power of ten that round to a double are read as it. -/
theorem toFloat_eq {x : Float} {negative : Bool} (hx : Binary64.ofFloat x = .finite negative m q) (hm : 0 < m)
    {digits : Nat} {exponent : Int} (h : RoundsTo m q (digits * 10 ^ exponent)) :
    toFloat negative digits exponent = x := by
  have hc := (Binary64.of_ofBits hx).1
  obtain ⟨hlow, hhigh⟩ := roundsTo_bounds hc hm h
  have hdigits : 0 < digits := by
    by_contra hzero
    have := h.pos hm
    rw [Nat.eq_zero_of_not_pos hzero, Nat.cast_zero, zero_mul] at this
    exact lt_irrefl 0 this
  have hpow : (0 : ℚ) < 10 ^ exponent := by positivity
  have hcount := digitCount_pos hdigits
  have hupper : (digits : ℚ) * 10 ^ exponent < 10 ^ (exponent + digitCount digits) := by
    rw [zpow_add₀ (by norm_num), zpow_natCast, mul_comm]
    exact mul_lt_mul_of_pos_left (by exact_mod_cast lt_pow_digitCount digits) hpow
  have hlower : (10 : ℚ) ^ (exponent + digitCount digits - 1) ≤ digits * 10 ^ exponent := by
    rw [show exponent + digitCount digits - 1 = exponent + ((digitCount digits - 1 : Nat) : Int) by omega,
      zpow_add₀ (by norm_num), zpow_natCast, mul_comm]
    exact mul_le_mul_of_nonneg_right (by exact_mod_cast pow_digitCount_le hdigits) hpow.le
  -- neither of the two short ways, for numbers that are far too large or too small, is taken
  have hsmall : ¬ 400 < exponent + (digitCount digits : Int) := fun hlt =>
    absurd (hhigh.trans_le (zpow_le_zpow_right₀ (by norm_num) (by omega))) hlower.not_gt
  have hlarge : ¬ exponent + (digitCount digits : Int) < -400 := fun hlt =>
    absurd (hupper.trans_le (zpow_le_zpow_right₀ (by norm_num) hlt.le)) hlow.not_gt
  unfold toFloat
  rw [if_neg hdigits.ne', if_neg hsmall, if_neg hlarge]
  cases exponent with
  | ofNat k =>
    refine Binary64.nearest_eq hx hm (by decide) ?_
    simpa using h
  | negSucc k =>
    refine Binary64.nearest_eq hx hm (Nat.pow_pos (by decide)) ?_
    simpa [zpow_negSucc, div_eq_mul_inv] using h

end LoxLang.Decimal
