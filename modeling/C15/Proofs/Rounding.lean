/-
Rounding to a magnitude depends on the value of a decimal alone, and the value of a magnitude rounds to it.

Rounding is computed on whole numbers: a ratio is scaled by a power of two and divided. Its result does not depend on
how the ratio is written, since the exponent is the logarithm of its value and the division cancels common factors.
Results:
- `Decimal.round_congr`: decimals of the same value round to the same magnitude;
- `roundRatio_eq_self`: the exact value of a finite magnitude rounds to that magnitude;
- `round_shortest`: so does its shortest decimal.
-/
import C15.Binary32.Shortest
import Mathlib.Data.Int.Log
import Mathlib.Tactic

namespace C15.Binary32

/-! ## Ratios -/

theorem scale_ratio (num den : Nat) (e : Int) :
    ((scale num den e).1 : ℚ) / (scale num den e).2 = num / den * 2 ^ e := by
  unfold scale
  split
  · rename_i h
    obtain ⟨n, rfl⟩ := Int.eq_ofNat_of_zero_le h
    simp only [Int.toNat_natCast, Nat.shiftLeft_eq, Nat.cast_mul, Nat.cast_pow, Nat.cast_ofNat, zpow_natCast]
    ring
  · rename_i h
    obtain ⟨n, hn⟩ : ∃ n : Nat, e = -(n : Int) := ⟨(-e).toNat, by omega⟩
    subst hn
    simp only [neg_neg, Int.toNat_natCast, Nat.shiftLeft_eq, Nat.cast_mul, Nat.cast_pow, Nat.cast_ofNat,
      zpow_neg, zpow_natCast]
    rw [div_mul_eq_div_div]
    rfl

theorem scale_den_pos {num den : Nat} (h : 0 < den) (e : Int) : 0 < (scale num den e).2 := by
  unfold scale
  split
  · exact h
  · rw [Nat.shiftLeft_eq]
    positivity

/-- a whole number of halves decides how a quotient rounds, so common factors cancel -/
theorem roundDiv_mul_right (a b : Nat) {k : Nat} (hk : 0 < k) : roundDiv (a * k) (b * k) = roundDiv a b := by
  have hless : 2 * (a % b * k) < b * k ↔ 2 * (a % b) < b := by
    rw [← Nat.mul_assoc]
    exact Nat.mul_lt_mul_right hk
  have hmore : b * k < 2 * (a % b * k) ↔ b < 2 * (a % b) := by
    rw [← Nat.mul_assoc]
    exact Nat.mul_lt_mul_right hk
  simp only [roundDiv, Nat.mul_div_mul_right a b hk, Nat.mul_mod_mul_right, hless, hmore]

theorem roundDiv_congr {a b c d : Nat} (hb : 0 < b) (hd : 0 < d) (h : (a : ℚ) / b = c / d) :
    roundDiv a b = roundDiv c d := by
  have hcross : a * d = c * b := by
    rw [div_eq_div_iff (by positivity) (by positivity)] at h
    exact_mod_cast h
  calc roundDiv a b = roundDiv (a * d) (b * d) := (roundDiv_mul_right a b hd).symm
    _ = roundDiv (c * b) (d * b) := by rw [hcross, Nat.mul_comm b d]
    _ = roundDiv c d := roundDiv_mul_right c d hb

theorem roundDiv_one (n : Nat) : roundDiv n 1 = n := by simp [roundDiv, Nat.mod_one]

/-- the logarithm lies next to the difference of the logarithms of the two parts -/
theorem log_div_bounds {num den : Nat} (hn : 0 < num) (hd : 0 < den) :
    (2 : ℚ) ^ ((num.log2 : Int) - den.log2 - 1) ≤ num / den ∧
      (num : ℚ) / den < 2 ^ ((num.log2 : Int) - den.log2 + 1) := by
  have htwo : (2 : ℚ) ≠ 0 := by norm_num
  have hden : (0 : ℚ) < den := by exact_mod_cast hd
  have hnumLow : (2 : ℚ) ^ num.log2 ≤ num := by exact_mod_cast Nat.log2_self_le hn.ne'
  have hnumHigh : (num : ℚ) < 2 ^ (num.log2 + 1) := by exact_mod_cast Nat.lt_log2_self
  have hdenLow : (2 : ℚ) ^ den.log2 ≤ den := by exact_mod_cast Nat.log2_self_le hd.ne'
  have hdenHigh : (den : ℚ) < 2 ^ (den.log2 + 1) := by exact_mod_cast Nat.lt_log2_self
  constructor
  · rw [le_div_iff₀ hden]
    calc (2 : ℚ) ^ ((num.log2 : Int) - den.log2 - 1) * den
        ≤ 2 ^ ((num.log2 : Int) - den.log2 - 1) * 2 ^ ((den.log2 : Int) + 1) := by
          have hle : (den : ℚ) ≤ 2 ^ ((den.log2 : Int) + 1) := by exact_mod_cast hdenHigh.le
          exact mul_le_mul_of_nonneg_left hle (by positivity)
      _ = 2 ^ num.log2 := by
          rw [← zpow_add₀ htwo, ← zpow_natCast]
          congr 1
          ring
      _ ≤ num := hnumLow
  · rw [div_lt_iff₀ hden]
    calc (num : ℚ) < 2 ^ (num.log2 + 1) := hnumHigh
      _ = 2 ^ ((num.log2 : Int) - den.log2 + 1) * 2 ^ den.log2 := by
          rw [← zpow_natCast, ← zpow_natCast, ← zpow_add₀ htwo]
          congr 1
          push_cast
          ring
      _ ≤ 2 ^ ((num.log2 : Int) - den.log2 + 1) * den := mul_le_mul_of_nonneg_left hdenLow (by positivity)

/-- a scaled ratio is at least one exactly if the ratio reaches the power -/
theorem scale_le_iff {num den : Nat} (hd : 0 < den) (e : Int) :
    (scale num den (-e)).2 ≤ (scale num den (-e)).1 ↔ (2 : ℚ) ^ e ≤ num / den := by
  have hpos : (0 : ℚ) < (scale num den (-e)).2 := by exact_mod_cast scale_den_pos hd (-e)
  have hpow : (0 : ℚ) < 2 ^ e := by positivity
  have hratio := scale_ratio num den (-e)
  rw [zpow_neg, ← div_eq_mul_inv] at hratio
  rw [← one_le_div₀ hpow, ← hratio, one_le_div₀ hpos]
  exact_mod_cast Iff.rfl

/-- the exponent of a ratio is the logarithm of its value -/
theorem exponentOf_eq_log {num den : Nat} (hn : 0 < num) (hd : 0 < den) :
    exponentOf num den = Int.log 2 ((num : ℚ) / den) := by
  have hpos : (0 : ℚ) < num / den := by positivity
  obtain ⟨hlow, hhigh⟩ := log_div_bounds hn hd
  have htwo : 1 < 2 := by norm_num
  have hlow' : (num.log2 : Int) - den.log2 - 1 ≤ Int.log 2 ((num : ℚ) / den) :=
    (Int.zpow_le_iff_le_log htwo hpos).1 (by simpa using hlow)
  have hhigh' : Int.log 2 ((num : ℚ) / den) < (num.log2 : Int) - den.log2 + 1 :=
    (Int.lt_zpow_iff_log_lt htwo hpos).1 (by simpa using hhigh)
  unfold exponentOf
  simp only [scale_le_iff hd]
  split
  · rename_i h
    have hle : (num.log2 : Int) - den.log2 ≤ Int.log 2 ((num : ℚ) / den) :=
      (Int.zpow_le_iff_le_log htwo hpos).1 (by simpa using h)
    omega
  · rename_i h
    have hlt : Int.log 2 ((num : ℚ) / den) < (num.log2 : Int) - den.log2 :=
      (Int.lt_zpow_iff_log_lt htwo hpos).1 (by simpa using h)
    omega

/-- **Ratios.** How a ratio is written does not matter to its rounding. -/
theorem roundRatio_congr {num den num' den' : Nat} (hn : 0 < num) (hd : 0 < den) (hn' : 0 < num') (hd' : 0 < den')
    (h : (num : ℚ) / den = num' / den') : roundRatio num den = roundRatio num' den' := by
  unfold roundRatio
  rw [exponentOf_eq_log hn hd, exponentOf_eq_log hn' hd', h]
  have hdiv : ∀ e, roundDiv (scale num den e).1 (scale num den e).2 =
      roundDiv (scale num' den' e).1 (scale num' den' e).2 :=
    fun e => roundDiv_congr (scale_den_pos hd e) (scale_den_pos hd' e) (by rw [scale_ratio, scale_ratio, h])
  simp only [hdiv]

/-! ## Exact values -/

/-- the value of a finite magnitude -/
def value (magnitude : Nat) : ℚ := significand magnitude * 2 ^ ((step magnitude : Int) - 149)

/-- significand and exponent step give back the magnitude -/
theorem step_significand (m : Nat) : step m * 0x800000 + significand m = m := by
  unfold step significand
  split
  · rw [Nat.div_eq_of_lt (by assumption)]
    omega
  · rename_i h
    have hdiv : 1 ≤ m / 0x800000 := (Nat.one_le_div_iff (by norm_num)).2 (not_lt.1 h)
    have hmod := Nat.div_add_mod m 0x800000
    rw [Nat.sub_mul]
    omega

theorem significand_pos {m : Nat} (hm : 0 < m) : 0 < significand m := by
  unfold significand
  split <;> positivity

theorem significand_lt (m : Nat) : significand m < 2 ^ 24 := by
  unfold significand
  split
  · omega
  · have := Nat.mod_lt m (show 0 < 0x800000 by norm_num)
    omega

theorem value_pos {m : Nat} (hm : 0 < m) : 0 < value m := by
  have : (0 : ℚ) < significand m := by exact_mod_cast significand_pos hm
  unfold value
  positivity

theorem log_value_lt {m k : Nat} (hm : 0 < m) (h : significand m < 2 ^ k) :
    Int.log 2 (value m) < (step m : Int) - 149 + k := by
  have hlt : (significand m : ℚ) < 2 ^ (k : Int) := by exact_mod_cast h
  have hvalue : value m < 2 ^ ((step m : Int) - 149 + k) := by
    rw [zpow_add₀ (by norm_num), mul_comm]
    exact mul_lt_mul_of_pos_right hlt (by positivity)
  exact (Int.lt_zpow_iff_log_lt (by norm_num) (value_pos hm)).1 (by simpa using hvalue)

theorem le_log_value {m k : Nat} (hm : 0 < m) (h : 2 ^ k ≤ significand m) :
    (step m : Int) - 149 + k ≤ Int.log 2 (value m) := by
  have hle : (2 : ℚ) ^ (k : Int) ≤ significand m := by exact_mod_cast h
  have hvalue : 2 ^ ((step m : Int) - 149 + k) ≤ value m := by
    rw [zpow_add₀ (by norm_num), mul_comm]
    exact mul_le_mul_of_nonneg_right hle (by positivity)
  exact (Int.zpow_le_iff_le_log (by norm_num) (value_pos hm)).1 (by simpa using hvalue)

/-- the unit in which a magnitude is rounded is the one of its step -/
theorem unit_value {m : Nat} (hm : 0 < m) : max (Int.log 2 (value m) - 23) (-149) = (step m : Int) - 149 := by
  by_cases hsmall : m < 0x800000
  · have hstep : step m = 0 := by rw [step, Nat.div_eq_of_lt hsmall]
    have hlog := log_value_lt (k := 23) hm (by rwa [significand, if_pos hsmall])
    omega
  · have hlog := log_value_lt hm (significand_lt m)
    have hlog' := le_log_value (k := 23) hm (by rw [significand, if_neg hsmall]; exact Nat.le_add_left _ _)
    omega

/-- **Exact values.** A ratio that is the value of a finite magnitude rounds to it. -/
theorem roundRatio_eq_self {num den m : Nat} (hn : 0 < num) (hd : 0 < den) (hm : 0 < m)
    (hfinite : m < infinityMagnitude) (h : (num : ℚ) / den = value m) : roundRatio num den = m := by
  unfold roundRatio
  rw [exponentOf_eq_log hn hd, h, unit_value hm]
  have hexact : roundDiv (scale num den (-((step m : Int) - 149))).1 (scale num den (-((step m : Int) - 149))).2 =
      significand m := by
    rw [← roundDiv_one (significand m)]
    refine roundDiv_congr (scale_den_pos hd _) Nat.one_pos ?_
    rw [scale_ratio, h, value, mul_assoc, ← zpow_add₀ (by norm_num), add_neg_cancel, zpow_zero]
    simp
  simp only [hexact, sub_add_cancel, Int.toNat_natCast, step_significand]
  exact min_eq_left hfinite.le

/-- finite magnitudes lie well within sixty decimal places of one -/
theorem log_value_le {m : Nat} (hm : 0 < m) (hfinite : m < infinityMagnitude) : Int.log 10 (value m) + 1 ≤ 60 := by
  have hstep : step m ≤ 253 := by
    unfold step infinityMagnitude at *
    omega
  have hlt : value m < (10 : ℚ) ^ (60 : Int) := by
    have hsig : (significand m : ℚ) < 2 ^ (24 : Int) := by exact_mod_cast significand_lt m
    calc value m < 2 ^ (24 : Int) * 2 ^ ((step m : Int) - 149) := mul_lt_mul_of_pos_right hsig (by positivity)
      _ ≤ 2 ^ (24 : Int) * 2 ^ (104 : Int) := by
          refine mul_le_mul_of_nonneg_left (zpow_le_zpow_right₀ (by norm_num) ?_) (by positivity)
          omega
      _ ≤ 10 ^ (60 : Int) := by norm_num
  have hlog : Int.log 10 (value m) < 60 := (Int.lt_zpow_iff_log_lt (by norm_num) (value_pos hm)).1 (by simpa using hlt)
  omega

theorem le_log10_value {m : Nat} (hm : 0 < m) : -60 ≤ Int.log 10 (value m) + 1 := by
  have hle : (10 : ℚ) ^ (-60 : Int) ≤ value m := by
    have hsig : (1 : ℚ) ≤ significand m := by exact_mod_cast significand_pos hm
    calc (10 : ℚ) ^ (-60 : Int) ≤ 1 * 2 ^ (-149 : Int) := by norm_num
      _ ≤ significand m * 2 ^ ((step m : Int) - 149) := by
          refine mul_le_mul hsig (zpow_le_zpow_right₀ (by norm_num) (by omega)) (by positivity) (by positivity)
  have hlog : -60 ≤ Int.log 10 (value m) := (Int.zpow_le_iff_le_log (by norm_num) (value_pos hm)).1 (by simpa using hle)
  omega

/-! ## Decimals -/

/-- the value of a decimal -/
def Decimal.value (d : Decimal) : ℚ := d.coefficient * 10 ^ d.exponent

namespace Decimal

theorem value_pos {d : Decimal} (h : 0 < d.coefficient) : 0 < d.value := by
  have : (0 : ℚ) < d.coefficient := by exact_mod_cast h
  unfold value
  positivity

theorem coefficient_eq_zero_iff {d : Decimal} : d.coefficient = 0 ↔ d.value = 0 := by
  have hpow : (10 : ℚ) ^ d.exponent ≠ 0 := by positivity
  simp [value, hpow]

/-- the place before the first digit of a decimal is decided by its value -/
theorem top_eq_log {d : Decimal} (h : 0 < d.coefficient) :
    d.exponent + ((Nat.toDigits 10 d.coefficient).length : Int) = Int.log 10 d.value + 1 := by
  have hten : 1 < 10 := by norm_num
  have hne : (10 : ℚ) ≠ 0 := by norm_num
  obtain ⟨k, hk⟩ : ∃ k, (Nat.toDigits 10 d.coefficient).length = k + 1 :=
    Nat.exists_eq_succ_of_ne_zero Nat.length_toDigits_pos.ne'
  have hhigh : (d.coefficient : ℚ) < 10 ^ (k + 1) := by
    exact_mod_cast (Nat.length_toDigits_le_iff hten k.succ_pos).1 hk.le
  have hlow : (10 : ℚ) ^ k ≤ d.coefficient := by
    rcases Nat.eq_zero_or_pos k with rfl | hkpos
    · simpa using Nat.succ_le_of_lt h
    · exact_mod_cast not_lt.1 fun hlt => absurd ((Nat.length_toDigits_le_iff hten hkpos).2 hlt) (by omega)
  have hlogLow : d.exponent + k ≤ Int.log 10 d.value := by
    refine (Int.zpow_le_iff_le_log hten (value_pos h)).1 ?_
    rw [value, zpow_add₀ (by exact_mod_cast hne), mul_comm, zpow_natCast]
    exact mul_le_mul_of_nonneg_right hlow (by positivity)
  have hlogHigh : Int.log 10 d.value < d.exponent + (k + 1 : Nat) := by
    refine (Int.lt_zpow_iff_log_lt hten (value_pos h)).1 ?_
    rw [value, zpow_add₀ (by exact_mod_cast hne), mul_comm, zpow_natCast]
    exact mul_lt_mul_of_pos_left hhigh (by positivity)
  omega

/-- the two ways to write a decimal as a ratio -/
theorem round_eq_roundRatio {d : Decimal} (h : 0 < d.coefficient) (hhigh : Int.log 10 d.value + 1 ≤ 60)
    (hlow : -60 ≤ Int.log 10 d.value + 1) :
    ∃ num den : Nat, 0 < num ∧ 0 < den ∧ (num : ℚ) / den = d.value ∧ d.round = roundRatio num den := by
  have htop := top_eq_log h
  unfold round
  simp only [h.ne', if_false, htop, not_lt.2 hhigh, not_lt.2 hlow]
  split
  · rename_i he
    obtain ⟨n, hn⟩ := Int.eq_ofNat_of_zero_le he
    rw [Nat.pow_eq]
    refine ⟨_, _, by positivity, Nat.one_pos, ?_, rfl⟩
    simp [value, hn]
  · rename_i he
    obtain ⟨n, hn⟩ : ∃ n : Nat, d.exponent = -(n : Int) := ⟨(-d.exponent).toNat, by omega⟩
    rw [Nat.pow_eq]
    refine ⟨_, _, h, by positivity, ?_, rfl⟩
    simp [value, hn, div_eq_mul_inv]

/-- **Decimals.** Decimals of the same value round to the same magnitude. -/
theorem round_congr {d d' : Decimal} (h : d.value = d'.value) : d.round = d'.round := by
  rcases Nat.eq_zero_or_pos d.coefficient with hzero | hpos
  · have hzero' : d'.coefficient = 0 := by
      rw [coefficient_eq_zero_iff, ← h, ← coefficient_eq_zero_iff]
      exact hzero
    simp [round, hzero, hzero']
  · have hpos' : 0 < d'.coefficient := by
      rw [Nat.pos_iff_ne_zero, ne_eq, coefficient_eq_zero_iff, ← h, ← coefficient_eq_zero_iff]
      exact hpos.ne'
    have htop := top_eq_log hpos
    have htop' := top_eq_log hpos'
    by_cases hhigh : Int.log 10 d.value + 1 ≤ 60
    · by_cases hlow : -60 ≤ Int.log 10 d.value + 1
      · obtain ⟨num, den, hn, hd, hvalue, hround⟩ := round_eq_roundRatio hpos hhigh hlow
        obtain ⟨num', den', hn', hd', hvalue', hround'⟩ := round_eq_roundRatio hpos' (h ▸ hhigh) (h ▸ hlow)
        rw [hround, hround']
        exact roundRatio_congr hn hd hn' hd' (by rw [hvalue, hvalue', h])
      · simp [round, hpos.ne', hpos'.ne', htop, htop', ← h, not_lt.2 hhigh, lt_of_not_ge hlow]
    · simp [round, hpos.ne', hpos'.ne', htop, htop', ← h, lt_of_not_ge hhigh]

/-- a decimal that is the value of a finite magnitude rounds to it -/
theorem round_eq_self {d : Decimal} {m : Nat} (hm : 0 < m) (hfinite : m < infinityMagnitude)
    (h : d.value = Binary32.value m) : d.round = m := by
  have hpos : 0 < d.coefficient := by
    rw [Nat.pos_iff_ne_zero, ne_eq, coefficient_eq_zero_iff, h]
    exact (Binary32.value_pos hm).ne'
  obtain ⟨num, den, hn, hd, hvalue, hround⟩ :=
    round_eq_roundRatio hpos (h ▸ log_value_le hm hfinite) (h ▸ le_log10_value hm)
  rw [hround]
  exact roundRatio_eq_self hn hd hm hfinite (hvalue.trans h)

end Decimal

/-! ## Shortest decimals -/

/-- of two decimals only one that rounds to the magnitude is chosen -/
theorem round_of_choice {m : Nat} {below above d : Decimal} {nearer : Prop} [Decidable nearer]
    (h : (if below.round == m && above.round == m then some (if nearer then above else below)
      else if below.round == m then some below
      else if above.round == m then some above
      else none) = some d) : d.round = m := by
  split at h
  · rename_i hboth
    simp only [Bool.and_eq_true, beq_iff_eq] at hboth
    obtain rfl := Option.some.inj h
    split
    · exact hboth.2
    · exact hboth.1
  · split at h
    · rename_i hbelow
      obtain rfl := Option.some.inj h
      exact eq_of_beq hbelow
    · split at h
      · rename_i habove
        obtain rfl := Option.some.inj h
        exact eq_of_beq habove
      · cases h

theorem round_candidate {m count : Nat} {d : Decimal} (h : candidate m count = some d) : d.round = m := by
  unfold candidate at h
  exact round_of_choice h

theorem value_exactDecimal (m : Nat) : (exactDecimal m).value = value m := by
  unfold exactDecimal
  simp only
  split
  · rename_i hq
    obtain ⟨n, hn⟩ := Int.eq_ofNat_of_zero_le hq
    simp [Decimal.value, value, hn, Nat.shiftLeft_eq]
  · rename_i hq
    obtain ⟨n, hn⟩ : ∃ n : Nat, (step m : Int) - 149 = -(n : Int) := ⟨(-((step m : Int) - 149)).toNat, by omega⟩
    simp only [Decimal.value, value, hn, neg_neg, Int.toNat_natCast, Nat.pow_eq, Nat.cast_mul, Nat.cast_pow,
      Nat.cast_ofNat, zpow_neg, zpow_natCast, show (10 : ℚ) = 5 * 2 by norm_num, mul_pow]
    field_simp

/-- **Shortest decimals.** The shortest decimal of a finite magnitude rounds to it. -/
theorem round_shortest {m : Nat} (hm : 0 < m) (hfinite : m < infinityMagnitude) : (shortest m).round = m := by
  unfold shortest
  cases hfind : (List.range 9).findSome? fun n => candidate m (n + 1) with
  | none => exact Decimal.round_eq_self hm hfinite (value_exactDecimal m)
  | some d =>
    obtain ⟨n, -, hn⟩ := List.exists_of_findSome?_eq_some hfind
    exact round_candidate hn

end C15.Binary32
