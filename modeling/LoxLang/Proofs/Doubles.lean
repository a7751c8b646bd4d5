import Mathlib
import LoxLang.Binary64

/-!
# Doubles

A finite double is `± m · 2 ^ q`, with a mantissa of 53 bits or with the least exponent (`Canonical`). The numbers that
are rounded to it form an interval around it, `RoundsTo m q`: half of the spacing above and half of the spacing below,
and less below a power of two. The rounding that works on bits gives the double in whose interval a quotient lies
(`nearest_eq`).

Doubles without a sign are the same if they are equal as numbers (`eq_of_beq`); with signs there are two zeros.
-/

namespace LoxLang.Binary64

open Float.Model (Format)
open Float.Model.UnpackedFloat

/-! ## Words -/

theorem toBitVec_ofBitVec : ∀ s : BitVec 1, (Sign.ofBitVec s).toBitVec = s := by decide

theorem packComponents_unpack (b : BitVec Format.binary64.numBits) :
    packComponents Format.binary64 (Sign.ofBitVec (unpackSign b)) (unpackExponent b) (unpackMantissa b) = b := by
  ext i hi
  simp only [packComponents, toBitVec_ofBitVec, unpackSign, unpackExponent, unpackMantissa, BitVec.getElem_append,
    BitVec.getElem_cast]
  split
  · simp [BitVec.getLsbD_eq_getElem, hi]
  split
  · rename_i h1 h2
    simp [show 52 + (i - 52) = i by omega, BitVec.getLsbD_eq_getElem, hi]
  · rename_i h1 h2
    simp [show 63 + (i - 52 - 11) = i by omega, BitVec.getLsbD_eq_getElem, hi]

/-- A pattern of bits that is not a number in another way than the chosen one is packed as it was. -/
theorem pack_unpack {b : BitVec Format.binary64.numBits} (h : Format.binary64.Valid b) :
    pack Format.binary64 (unpack Format.binary64 b) = b := by
  have hparts := packComponents_unpack b
  have hm : (unpackMantissa b).toNat < 2 ^ 52 := (unpackMantissa b).isLt
  have he : (unpackExponent b).toNat < 2 ^ 11 := (unpackExponent b).isLt
  unfold unpack
  dsimp only
  split
  next hexp =>
    split
    next hmant =>
      rw [hexp, hmant] at hparts
      exact hparts
    next hmant => exact (h.eq_packedNaN hexp hmant).symm
  next hexp =>
    have hexp' : (unpackExponent b).toNat + 1 < 2 ^ 11 := by
      rcases Nat.lt_or_ge ((unpackExponent b).toNat + 1) (2 ^ 11) with h | h
      · exact h
      · exact absurd (BitVec.eq_of_toNat_eq (by rw [show (-1#11 : BitVec 11).toNat = 2047 by decide]; omega)) hexp
    split
    next hzero =>
      split
      next hmant =>
        rw [hzero, hmant] at hparts
        exact hparts
      next hmant =>
        have hpos : (unpackMantissa b).toNat ≠ 0 := fun h => hmant (BitVec.eq_of_toNat_eq h)
        have hlog : (unpackMantissa b).toNat.log2 < 52 := (Nat.log2_lt hpos).mpr hm
        have hbiased : ((↑(unpackExponent b).toNat - (↑Format.binary64.exponentBias + ↑(52 : Nat)) + 1 : Int)
            + ↑Format.binary64.exponentBias + ↑(52 : Nat)).toNat = 1 := by rw [hzero]; decide
        rw [pack]
        dsimp only
        rw [hbiased, if_neg (by decide), if_neg (by simp [Format.mantissaBits]; omega), BitVec.ofNat_toNat,
          BitVec.setWidth_eq]
        rw [hzero] at hparts
        exact hparts
    next hzero =>
      have hnat : ((1#1 : BitVec 1) ++ unpackMantissa b).toNat = 2 ^ 52 + (unpackMantissa b).toNat := by
        rw [BitVec.toNat_append, ← Nat.shiftLeft_add_eq_or_of_lt hm]
        rfl
      have hlog : ((1#1 : BitVec 1) ++ unpackMantissa b).toNat.log2 = 52 := by
        rw [hnat, Nat.log2_eq_iff (by omega)]
        omega
      have hbiased : ((↑(unpackExponent b).toNat - (↑Format.binary64.exponentBias + ↑(52 : Nat)) : Int)
          + ↑Format.binary64.exponentBias + ↑(52 : Nat)).toNat = (unpackExponent b).toNat := by omega
      rw [pack]
      dsimp only
      rw [hbiased, hlog, if_neg (by simp; omega), if_pos (by decide), BitVec.ofNat_toNat, BitVec.setWidth_eq]
      have hmant : BitVec.ofNat 52 ((1#1 : BitVec 1) ++ unpackMantissa b).toNat = unpackMantissa b := by
        apply BitVec.eq_of_toNat_eq
        rw [hnat, BitVec.toNat_ofNat]
        omega
      rw [hmant]
      exact hparts

theorem ofBits_toBits (x : Float) : Float.ofBits x.toBits = x := by
  cases x with
  | ofModel y =>
    cases y with
    | mk bits valid =>
      simp only [Float.ofBits, Float.toBits, Float.Model.ofBits, Float.Model.pack, pack_unpack valid]

/-- The mantissas and exponents that doubles have: all 53 bits are used unless the exponent is the least one. -/
structure Canonical (m : Nat) (q : Int) : Prop where
  least : minExponent ≤ q
  greatest : q ≤ 971
  bounded : m < 2 ^ 53
  full : q = minExponent ∨ 2 ^ 52 ≤ m

/-- The bits of `± m · 2 ^ q`. -/
def word (negative : Bool) (m : Nat) (q : Int) : Nat :=
  (q - minExponent).toNat * Nat.pow 2 52 + m + if negative then Nat.pow 2 63 else 0

theorem fields_eq (bits : UInt64) :
    fields bits = (decide (bits.toNat / 2 ^ 63 ≠ 0), bits.toNat / 2 ^ 52 % 2 ^ 11, bits.toNat % 2 ^ 52) := by
  have hsign : (bits >>> 63 != 0) = decide (bits.toNat / 2 ^ 63 ≠ 0) := by
    rw [← Nat.shiftRight_eq_div_pow, Bool.eq_iff_iff, bne_iff_ne, decide_eq_true_iff, Ne, Ne, ← UInt64.toNat_inj,
      UInt64.toNat_shiftRight]
    rfl
  have hexp : ((bits >>> 52) &&& 0x7FF).toNat = bits.toNat / 2 ^ 52 % 2 ^ 11 := by
    rw [UInt64.toNat_and, UInt64.toNat_shiftRight, ← Nat.shiftRight_eq_div_pow, ← Nat.and_two_pow_sub_one_eq_mod]
    rfl
  have hmant : (bits &&& 0xFFFFFFFFFFFFF).toNat = bits.toNat % 2 ^ 52 := by
    rw [UInt64.toNat_and, ← Nat.and_two_pow_sub_one_eq_mod]
    rfl
  rw [fields, hsign, hexp, hmant]

theorem of_ofBits {bits : UInt64} {negative : Bool} {m : Nat} {q : Int} (h : ofBits bits = .finite negative m q) :
    Canonical m q ∧ bits.toNat = word negative m q := by
  have hbound : bits.toNat < 2 ^ 64 := bits.toNat_lt
  have hstored : bits.toNat % 2 ^ 52 < 2 ^ 52 := Nat.mod_lt _ (by decide)
  have hbiased : bits.toNat / 2 ^ 52 % 2 ^ 11 < 2 ^ 11 := Nat.mod_lt _ (by decide)
  have hparts : bits.toNat = (bits.toNat / 2 ^ 52 % 2 ^ 11) * 2 ^ 52 + bits.toNat % 2 ^ 52
      + if decide (bits.toNat / 2 ^ 63 ≠ 0) = true then Nat.pow 2 63 else 0 := by
    simp only [decide_eq_true_eq, Nat.pow_eq]
    split <;> omega
  rw [ofBits, fields_eq] at h
  generalize decide (bits.toNat / 2 ^ 63 ≠ 0) = sign, bits.toNat / 2 ^ 52 % 2 ^ 11 = biased,
    bits.toNat % 2 ^ 52 = stored at *
  rw [hparts, word]
  split at h
  next heq =>
    cases heq
    cases h
    exact ⟨⟨by decide, by decide, by omega, .inl rfl⟩, by simp⟩
  · cases h
  · cases h
  next hzero _ hmax heq =>
    cases heq
    cases h
    simp only [imp_false] at hzero hmax
    have hmin : minExponent = -1074 := rfl
    simp only [Nat.pow_eq, Int.ofNat_eq_natCast]
    exact ⟨⟨by omega, by omega, by omega, .inr (by omega)⟩, by omega⟩

/-! ## Rounding -/

/-- How far below `m · 2 ^ q` a number may be to be rounded to it, counted in `2 ^ q`. -/
def slack (m : Nat) (q : Int) : ℚ := if m = 2 ^ 52 ∧ minExponent < q then 1 / 4 else 1 / 2

theorem slack_le (m : Nat) (q : Int) : slack m q ≤ 1 / 2 := by
  unfold slack
  split <;> norm_num

/-- The numbers that are rounded to `m · 2 ^ q`; one half-way to the next double is rounded to an even mantissa. -/
structure RoundsTo (m : Nat) (q : Int) (x : ℚ) : Prop where
  lower : (m - slack m q) * 2 ^ q ≤ x
  upper : x ≤ (m + 1 / 2) * 2 ^ q
  strict : m % 2 = 1 → (m - slack m q) * 2 ^ q < x ∧ x < (m + 1 / 2) * 2 ^ q

theorem two_zpow_pos (q : Int) : (0 : ℚ) < 2 ^ q := by positivity

theorem scaled_den_pos {den : Nat} (hden : 0 < den) (num : Nat) (q : Int) : 0 < (scaled num den q).2 := by
  cases q with
  | ofNat k => exact Nat.mul_pos hden (Nat.pow_pos (by decide))
  | negSucc k => exact hden

theorem scaled_eq {den : Nat} (hden : 0 < den) (num : Nat) (q : Int) :
    ((scaled num den q).1 : ℚ) / (scaled num den q).2 = num / den / 2 ^ q := by
  have hd : (den : ℚ) ≠ 0 := by positivity
  cases q with
  | ofNat k =>
    simp only [scaled, Nat.pow_eq, Int.ofNat_eq_natCast, zpow_natCast]
    push_cast
    field_simp
  | negSucc k =>
    simp only [scaled, Nat.pow_eq, zpow_negSucc]
    push_cast
    field_simp

/-- A quotient is below a bound as the number is that it is rounded down from. -/
theorem div_lt_iff {n d : Nat} (hd : 0 < d) (k : Nat) : n / d < k ↔ (n : ℚ) / d < k := by
  rw [Nat.div_lt_iff_lt_mul hd, div_lt_iff₀ (by positivity)]
  exact_mod_cast Iff.rfl

/-- A positive quotient lies between two powers of two that its terms tell. -/
theorem quotient_bounds {num den : Nat} (hnum : 0 < num) (hden : 0 < den) :
    (2 : ℚ) ^ ((num.log2 : Int) - den.log2 - 1) < num / den ∧
      (num : ℚ) / den < 2 ^ ((num.log2 : Int) - den.log2 + 1) := by
  have hd : (0 : ℚ) < den := by positivity
  have num_low : (2 : ℚ) ^ (num.log2 : Int) ≤ num := by exact_mod_cast Nat.log2_self_le hnum.ne'
  have num_high : (num : ℚ) < 2 ^ ((num.log2 : Int) + 1) := by exact_mod_cast Nat.lt_log2_self (n := num)
  have den_low : (2 : ℚ) ^ (den.log2 : Int) ≤ den := by exact_mod_cast Nat.log2_self_le hden.ne'
  have den_high : (den : ℚ) < 2 ^ ((den.log2 : Int) + 1) := by exact_mod_cast Nat.lt_log2_self (n := den)
  constructor
  · rw [lt_div_iff₀ hd]
    calc (2 : ℚ) ^ ((num.log2 : Int) - den.log2 - 1) * den
        < 2 ^ ((num.log2 : Int) - den.log2 - 1) * 2 ^ ((den.log2 : Int) + 1) :=
          mul_lt_mul_of_pos_left den_high (two_zpow_pos _)
      _ = 2 ^ (num.log2 : Int) := by rw [← zpow_add₀ two_ne_zero]; congr 1; omega
      _ ≤ num := num_low
  · rw [div_lt_iff₀ hd]
    calc (num : ℚ) < 2 ^ ((num.log2 : Int) + 1) := num_high
      _ = 2 ^ ((num.log2 : Int) - den.log2 + 1) * 2 ^ (den.log2 : Int) := by
          rw [← zpow_add₀ two_ne_zero]; congr 1; omega
      _ ≤ 2 ^ ((num.log2 : Int) - den.log2 + 1) * den := mul_le_mul_of_nonneg_left den_low (two_zpow_pos _).le

/-- At the chosen exponent a positive quotient has a mantissa of at most 53 bits, and of 53 unless the exponent is the
least one. -/
theorem exponentOf_spec {num den : Nat} (hnum : 0 < num) (hden : 0 < den) :
    minExponent ≤ exponentOf num den ∧ (num : ℚ) / den < 2 ^ 53 * 2 ^ exponentOf num den ∧
      (exponentOf num den = minExponent ∨ 2 ^ 52 * 2 ^ exponentOf num den ≤ (num : ℚ) / den) := by
  obtain ⟨hlow, hhigh⟩ := quotient_bounds hnum hden
  simp only [exponentOf, Int.ofNat_eq_natCast, Nat.pow_eq]
  generalize hguess : max ((num.log2 : Int) - den.log2 - 53) minExponent = guess
  have hfits : (scaled num den guess).1 / (scaled num den guess).2 < 2 ^ 53 ↔ (num : ℚ) / den < 2 ^ 53 * 2 ^ guess := by
    rw [div_lt_iff (scaled_den_pos hden num guess), scaled_eq hden, div_lt_iff₀ (two_zpow_pos guess)]
    norm_cast
  simp only [hfits]
  split
  next hfits =>
    refine ⟨by omega, hfits, ?_⟩
    rcases eq_or_ne guess minExponent with heq | hne
    · exact .inl heq
    · refine .inr (le_of_eq_of_le ?_ hlow.le)
      rw [← zpow_natCast, ← zpow_add₀ two_ne_zero]
      congr 1
      omega
  next hover =>
    have hdouble : (2 : ℚ) ^ (guess + 1) = 2 * 2 ^ guess := by rw [zpow_add_one₀ two_ne_zero, mul_comm]
    have hbelow : (num : ℚ) / den < 2 ^ 54 * 2 ^ guess := by
      refine lt_of_lt_of_le hhigh ?_
      rw [← zpow_natCast, ← zpow_add₀ two_ne_zero]
      exact zpow_le_zpow_right₀ one_le_two (by omega)
    rw [hdouble]
    exact ⟨by omega, by linarith, .inr (by linarith)⟩

/-- A quotient within a half of a natural is rounded to it; one that is just a half away is rounded to an even one. -/
theorem roundQuotient_eq {n d m : Nat} (hd : 0 < d) (lower : (m : ℚ) - 1 / 2 ≤ n / d) (upper : (n : ℚ) / d ≤ m + 1 / 2)
    (strict : m % 2 = 1 → (m : ℚ) - 1 / 2 < n / d ∧ (n : ℚ) / d < m + 1 / 2) : roundQuotient n d = m := by
  have hdq : (0 : ℚ) < d := by exact_mod_cast hd
  simp only [le_div_iff₀ hdq, div_le_iff₀ hdq, lt_div_iff₀ hdq, div_lt_iff₀ hdq] at lower upper strict
  have low : 2 * (d * m) ≤ 2 * n + d := by exact_mod_cast (by linarith : (2 * (d * m) : ℚ) ≤ 2 * n + d)
  have high : 2 * n ≤ 2 * (d * m) + d := by exact_mod_cast (by linarith : (2 * n : ℚ) ≤ 2 * (d * m) + d)
  have inside (hodd : m % 2 = 1) : 2 * (d * m) < 2 * n + d ∧ 2 * n < 2 * (d * m) + d := by
    obtain ⟨h1, h2⟩ := strict hodd
    constructor
    · exact_mod_cast (by linarith : (2 * (d * m) : ℚ) < 2 * n + d)
    · exact_mod_cast (by linarith : (2 * n : ℚ) < 2 * (d * m) + d)
  have hn : n = d * (n / d) + n % d := (Nat.div_add_mod n d).symm
  have hr : n % d < d := Nat.mod_lt n hd
  rw [roundQuotient]
  generalize n / d = f, n % d = r at *
  -- The quotient is rounded down to `m` or to the natural before it.
  have hbelow : f < m + 1 := by
    by_contra h
    have := Nat.mul_le_mul_left d (by omega : m + 1 ≤ f)
    rw [Nat.mul_add_one] at this
    omega
  have habove : m < f + 2 := by
    by_contra h
    have := Nat.mul_le_mul_left d (by omega : f + 2 ≤ m)
    rw [Nat.mul_add] at this
    omega
  obtain rfl | rfl : f = m ∨ m = f + 1 := by omega
  · rw [if_pos (by omega)]
  · rw [Nat.mul_add_one] at *
    rw [if_neg (by omega)]

/-- The numbers that round to a double are positive unless the double is a zero. -/
theorem RoundsTo.pos {m : Nat} {q : Int} {x : ℚ} (hm : 0 < m) (h : RoundsTo m q x) : 0 < x := by
  have hslack := slack_le m q
  have hone : (1 : ℚ) ≤ m := by exact_mod_cast hm
  exact lt_of_lt_of_le (mul_pos (by linarith) (two_zpow_pos q)) h.lower

/-- A double is rounded to itself. -/
theorem roundsTo_self (m : Nat) (q : Int) : RoundsTo m q (m * 2 ^ q) := by
  have hslack : 0 < slack m q := by
    unfold slack
    split <;> norm_num
  have hpos := two_zpow_pos q
  have hgap : 0 < slack m q * 2 ^ q := mul_pos hslack hpos
  exact ⟨by linarith, by linarith, fun _ => ⟨by linarith, by linarith⟩⟩

/-- No number that rounds to a double is more than half of a spacing below it. -/
theorem half_below (m : Nat) (q : Int) : ((m : ℚ) - 1 / 2) * 2 ^ q ≤ (m - slack m q) * 2 ^ q := by
  have := slack_le m q
  exact mul_le_mul_of_nonneg_right (by linarith) (two_zpow_pos q).le

/-- The exponent that is chosen for a number is that of the double that it rounds to, but for numbers right below a
power of two, whose exponent is one less. -/
theorem RoundsTo.exponent {m : Nat} {q r : Int} {x : ℚ} (hc : Canonical m q) (h : RoundsTo m q x)
    (hleast : minExponent ≤ r) (hbound : x < 2 ^ 53 * 2 ^ r) (hfull : r = minExponent ∨ 2 ^ 52 * 2 ^ r ≤ x) :
    r = q ∨ r = q - 1 ∧ m = 2 ^ 52 ∧ minExponent < q := by
  have hpos : (0 : ℚ) < 2 ^ q := two_zpow_pos q
  have hm : (m : ℚ) + 1 ≤ 2 ^ 53 := by exact_mod_cast hc.bounded
  -- The number is at most half of a spacing above the double, so its exponent is no greater.
  have hle : r ≤ q := by
    by_contra hgt
    have hstep : (2 : ℚ) ^ (q + 1) ≤ 2 ^ r := zpow_le_zpow_right₀ one_le_two (by omega)
    rw [zpow_add_one₀ two_ne_zero] at hstep
    have := hfull.resolve_left (by have := hc.least; omega)
    have := h.upper
    nlinarith
  rcases hle.eq_or_lt with heq | hlt
  · exact .inl heq
  right
  have hq : minExponent < q := by omega
  have hfullm : 2 ^ 52 ≤ m := hc.full.resolve_left hq.ne'
  have hstep : (2 : ℚ) ^ (r + 1) ≤ 2 ^ q := zpow_le_zpow_right₀ one_le_two (by omega)
  rw [zpow_add_one₀ two_ne_zero] at hstep
  have hlower := h.lower
  have heven : m = 2 ^ 52 := by
    by_contra hne
    have hmore : (2 ^ 52 + 1 : ℚ) ≤ m := by exact_mod_cast (by omega : 2 ^ 52 + 1 ≤ m)
    rw [slack, if_neg (fun h => hne h.1)] at hlower
    nlinarith
  refine ⟨?_, heven, hq⟩
  by_contra hne
  have hstep : (2 : ℚ) ^ (r + 2) ≤ 2 ^ q := zpow_le_zpow_right₀ one_le_two (by omega)
  rw [zpow_add₀ two_ne_zero] at hstep
  rw [slack, if_pos ⟨heven, hq⟩, heven] at hlower
  norm_num at hlower hstep hbound
  linarith

/-- A number that rounds to a double by its place among the doubles is the quotient of terms that give its bits. -/
theorem nearestBits_eq {num den m : Nat} {q : Int} (hc : Canonical m q) (hm : 0 < m) (hden : 0 < den)
    (h : RoundsTo m q (num / den)) : nearestBits num den = word false m q := by
  have hnum : num ≠ 0 := by
    rintro rfl
    simpa using h.pos hm
  obtain ⟨hleast, hbound, hfull⟩ := exponentOf_spec (Nat.pos_of_ne_zero hnum) hden
  have hexponent := h.exponent hc hleast hbound hfull
  have hcleast := hc.least
  have hcgreatest := hc.greatest
  have hcbounded := hc.bounded
  have hmin : minExponent = -1074 := rfl
  rw [nearestBits, if_neg hnum]
  simp only [word, infinityBits, Nat.pow_eq]
  generalize exponentOf num den = r at *
  have hd := scaled_den_pos hden num r
  have hy := scaled_eq hden num r
  -- The terms are those of the exponent of the double, or of the one below: then the double is a power of two, the
  -- number lies below it, and the mantissa is rounded up to one bit more.
  rcases hexponent with rfl | ⟨rfl, rfl, hq⟩
  · have hpos := two_zpow_pos r
    have hround : roundQuotient (scaled num den r).1 (scaled num den r).2 = m := by
      refine roundQuotient_eq hd ?_ ?_ fun hodd => ⟨?_, ?_⟩ <;> rw [hy]
      · exact (le_div_iff₀ hpos).mpr ((half_below m r).trans h.lower)
      · exact (div_le_iff₀ hpos).mpr h.upper
      · exact (lt_div_iff₀ hpos).mpr ((half_below m r).trans_lt (h.strict hodd).1)
      · exact (div_lt_iff₀ hpos).mpr (h.strict hodd).2
    rw [hround]
    simp only [Bool.false_eq_true, if_false]
    omega
  · have hpos := two_zpow_pos (q - 1)
    have hstep : (2 : ℚ) ^ q = 2 * 2 ^ (q - 1) := by rw [zpow_sub_one₀ two_ne_zero]; ring
    have hlower := h.lower
    rw [slack, if_pos ⟨rfl, hq⟩, hstep] at hlower
    have hround : roundQuotient (scaled num den (q - 1)).1 (scaled num den (q - 1)).2 = 2 ^ 53 := by
      refine roundQuotient_eq hd ?_ ?_ fun hodd => absurd hodd (by decide) <;> rw [hy] <;> push_cast
      · rw [le_div_iff₀ hpos]
        push_cast at hlower
        linarith
      · rw [div_le_iff₀ hpos]
        linarith
    rw [hround]
    simp only [Bool.false_eq_true, if_false]
    omega

/-- A double is the one whose bits are those of its sign, mantissa and exponent. -/
theorem ofBits_word {x : Float} {negative : Bool} {m : Nat} {q : Int} (hx : ofFloat x = .finite negative m q) :
    Float.ofBits (UInt64.ofNat (word negative m q)) = x := by
  rw [← (of_ofBits hx).2, UInt64.ofNat_toNat, ofBits_toBits]

/-- Zero is rounded to the zero of its sign. -/
theorem nearest_zero {x : Float} {negative : Bool} {q : Int} (hx : ofFloat x = .finite negative 0 q) (den : Nat) :
    nearest negative 0 den = x := by
  obtain rfl : q = minExponent := (of_ofBits hx).1.full.resolve_right (by decide)
  rw [← ofBits_word hx, nearest, nearestBits, if_pos rfl, word, Int.sub_self, Int.toNat_zero, Nat.zero_mul]

/-- **Rounding to nearest.** A quotient that rounds to a double by its place among the doubles is rounded to it. -/
theorem nearest_eq {x : Float} {negative : Bool} {m : Nat} {q : Int} (hx : ofFloat x = .finite negative m q)
    (hm : 0 < m) {num den : Nat} (hden : 0 < den) (h : RoundsTo m q (num / den)) : nearest negative num den = x := by
  rw [← ofBits_word hx, nearest, nearestBits_eq (of_ofBits hx).1 hm hden h, word, word]
  simp

/-! ## Comparing -/

/-- The double has no sign, and it is a number. -/
def IsUnsigned (x : Float) : Prop := x.toBits.toNat ≤ infinityBits

theorem toNat_unpackMantissa (b : BitVec Format.binary64.numBits) : (unpackMantissa b).toNat = b.toNat % 2 ^ 52 := by
  simp [unpackMantissa, BitVec.extractLsb]

theorem toNat_unpackExponent (b : BitVec Format.binary64.numBits) :
    (unpackExponent b).toNat = b.toNat / 2 ^ 52 % 2 ^ 11 := by
  simp [unpackExponent, BitVec.extractLsb, Nat.shiftRight_eq_div_pow]

theorem toNat_unpackSign (b : BitVec Format.binary64.numBits) : (unpackSign b).toNat = b.toNat / 2 ^ 63 % 2 := by
  simp [unpackSign, BitVec.extractLsb, Nat.shiftRight_eq_div_pow]

/-- Bits up to those of the infinity are kept by the double that they make. -/
theorem toBits_ofBits {n : Nat} (h : n ≤ infinityBits) : (Float.ofBits (UInt64.ofNat n)).toBits.toNat = n := by
  have hlimit : infinityBits = 2047 * 2 ^ 52 := rfl
  have hn : (UInt64.ofNat n).toBitVec.toNat = n := Nat.mod_eq_of_lt (by omega)
  have hvalid : Format.binary64.Valid (UInt64.ofNat n).toBitVec := by
    refine ⟨fun hexp hmant => absurd (BitVec.eq_of_toNat_eq ?_) hmant⟩
    have hexp := congrArg BitVec.toNat hexp
    rw [toNat_unpackExponent, hn, show (-1#11 : BitVec 11).toNat = 2047 by decide] at hexp
    rw [toNat_unpackMantissa, hn]
    show n % 2 ^ 52 = 0
    omega
  have hbits : (Float.ofBits (UInt64.ofNat n)).toBits = UInt64.ofNat n := by
    simp only [Float.ofBits, Float.toBits, Float.Model.ofBits, Float.Model.pack, pack_unpack hvalid]
  rw [hbits]
  exact hn

theorem nearestBits_le (num den : Nat) : nearestBits num den ≤ infinityBits := by
  rw [nearestBits]
  split
  · decide
  · exact Nat.min_le_right _ _

theorem isUnsigned_nearest (num den : Nat) : IsUnsigned (nearest false num den) := by
  rw [IsUnsigned, nearest, if_neg (by decide), Nat.add_zero, toBits_ofBits (nearestBits_le num den)]
  exact nearestBits_le num den

/-- Doubles that are equal as numbers differ at most in the sign of a zero. -/
theorem compare_eq {a b : Float.Model.UnpackedFloat} (h : a.compare b = some .eq) :
    a = b ∨ ∃ s t, a = .zero s ∧ b = .zero t := by
  have finite {e e' : Int} {m m' : Nat} (h : (compare e e').then (compare m m') = .eq) : e = e' ∧ m = m' := by
    rwa [Ordering.then_eq_eq, compare_eq_iff_eq, compare_eq_iff_eq] at h
  cases a with
  | notANumber => cases h
  | infinity s =>
    cases b with
    | infinity t => cases s <;> cases t <;> first | exact .inl rfl | cases h
    | zero | finite | notANumber => cases s <;> cases h
  | zero s =>
    cases b with
    | zero t => exact .inr ⟨s, t, rfl, rfl⟩
    | infinity t | finite t => cases t <;> cases h
    | notANumber => cases h
  | finite s m e =>
    cases b with
    | finite t m' e' =>
      cases s <;> cases t
      · obtain ⟨rfl, rfl⟩ := finite (Ordering.swap_eq_eq.mp (Option.some.inj h))
        exact .inl rfl
      · cases h
      · cases h
      · obtain ⟨rfl, rfl⟩ := finite (Option.some.inj h)
        exact .inl rfl
    | zero t | infinity t => cases s <;> cases t <;> cases h
    | notANumber => cases s <;> cases h

/-- Doubles without a sign that are equal as numbers are the same. -/
theorem eq_of_beq {x y : Float} (hx : IsUnsigned x) (hy : IsUnsigned y) (h : (x == y) = true) : x = y := by
  have positive {z : Float} (hz : IsUnsigned z) {s : Sign} (hs : z.toModel.unpack = .zero s) : s = .positive := by
    have hlimit : infinityBits = 2047 * 2 ^ 52 := rfl
    have hsign : Sign.ofBitVec (@unpackSign Format.binary64 z.toModel.toBits.toBitVec) = .positive := by
      refine if_pos (BitVec.eq_of_toNat_eq ?_)
      rw [toNat_unpackSign]
      have hz : z.toBits.toNat ≤ infinityBits := hz
      show z.toBits.toNat / 2 ^ 63 % 2 = 0
      omega
    unfold Float.Model.unpack unpack at hs
    dsimp only at hs
    rw [hsign] at hs
    split at hs
    · split at hs <;> cases hs
    · split at hs
      · split at hs <;> cases hs
        rfl
      · cases hs
  have hsame : x.toModel.unpack = y.toModel.unpack := by
    obtain h | ⟨s, t, hs, ht⟩ := compare_eq (beq_iff_eq.mp h)
    · exact h
    · rw [hs, ht, positive hx hs, positive hy ht]
  have hbits : x.toBits = y.toBits :=
    UInt64.toBitVec_inj.mp ((pack_unpack x.toModel.valid).symm.trans
      ((congrArg (pack Format.binary64) hsame).trans (pack_unpack y.toModel.valid)))
  rw [← ofBits_toBits x, ← ofBits_toBits y, hbits]

/-- A double without a sign is a binary fraction without one, or the infinity without one. -/
theorem IsUnsigned.cases {x : Float} (h : IsUnsigned x) :
    (∃ m q, ofFloat x = .finite false m q) ∨ ofFloat x = .infinite false := by
  have hlimit : infinityBits = 2047 * 2 ^ 52 := rfl
  have hx : x.toBits.toNat ≤ infinityBits := h
  have hsign : decide (x.toBits.toNat / 2 ^ 63 ≠ 0) = false := decide_eq_false (by omega)
  have hstored : x.toBits.toNat / 2 ^ 52 % 2 ^ 11 = 2047 → x.toBits.toNat % 2 ^ 52 = 0 := by omega
  rw [ofFloat, ofBits, fields_eq, hsign]
  generalize x.toBits.toNat / 2 ^ 52 % 2 ^ 11 = biased, x.toBits.toNat % 2 ^ 52 = stored at *
  split
  next heq => cases heq; exact .inl ⟨_, _, rfl⟩
  next heq => cases heq; exact .inr rfl
  next hne heq => cases heq; exact absurd (hstored rfl) hne
  next heq => cases heq; exact .inl ⟨_, _, rfl⟩

end LoxLang.Binary64
