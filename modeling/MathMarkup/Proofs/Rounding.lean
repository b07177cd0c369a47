import Mathlib

/-!
# Rounding to doubles

The arithmetic of doubles keeps the integer part of a quantity with two more bits: one for half a
unit, and one for whatever is left besides. These are enough to find the nearest integer once the
quantity has been divided down to 53 bits. So every quantity that rounds to a double is rounded to it.
-/

namespace MathMarkup.Rounding

open Float.Model (Format totalExponent)
open Float.Model.UnpackedFloat

/-! ## Kept bits -/

structure Represents (em : ExtendedMantissa) (x : ℚ) : Prop where
  low : em.mantissa ≤ x
  high : x < em.mantissa + 1
  round : em.roundBit = true ↔ em.mantissa + 1 / 2 ≤ x
  sticky : em.stickyBit = true ↔ x ≠ em.mantissa ∧ x ≠ em.mantissa + 1 / 2

variable {em : ExtendedMantissa} {x : ℚ} {n : ℕ}

@[simp]
theorem mantissa_ofMantissaAndAccuracy (m : ℕ) (acc : Accuracy) :
    (ExtendedMantissa.ofMantissaAndAccuracy m acc).mantissa = m := by
  rcases acc with _ | _ | _ | _ <;> rfl

theorem represents_exact (m : ℕ) :
    Represents (.ofMantissaAndAccuracy m .exact) m where
  low := le_rfl
  high := lt_add_one _
  round := by simp [ExtendedMantissa.ofMantissaAndAccuracy]
  sticky := by simp [ExtendedMantissa.ofMantissaAndAccuracy]

theorem represents_inexact {m : ℕ} {part : ℚ} {o : Ordering} (hpos : 0 < part) (hlt : part < 1)
    (ho : o.Compares part (1 / 2)) :
    Represents (.ofMantissaAndAccuracy m (.inexact o)) (m + part) := by
  cases o with
  | lt =>
    have ho : part < 1 / 2 := ho
    constructor <;> simp [ExtendedMantissa.ofMantissaAndAccuracy] <;> grind
  | eq =>
    have ho : part = 1 / 2 := ho
    constructor <;> simp [ExtendedMantissa.ofMantissaAndAccuracy] <;> grind
  | gt =>
    have ho : 1 / 2 < part := ho
    constructor <;> simp [ExtendedMantissa.ofMantissaAndAccuracy] <;> grind

theorem compares_half {rest den : ℕ} (hd : 0 < den) :
    (compare (2 * rest) den).Compares ((rest : ℚ) / den) (1 / 2) := by
  have hden : (0 : ℚ) < den := by exact_mod_cast hd
  have ho : (compare (2 * rest) den).Compares (2 * rest) den := (compare_iff _ _).mp rfl
  generalize compare (2 * rest) den = o at ho
  cases o with
  | lt =>
    have ho : 2 * rest < den := ho
    show (rest : ℚ) / den < 1 / 2
    rw [div_lt_div_iff₀ hden two_pos, one_mul, mul_comm]
    exact_mod_cast ho
  | eq =>
    have ho : 2 * rest = den := ho
    show (rest : ℚ) / den = 1 / 2
    rw [div_eq_div_iff hden.ne' two_ne_zero, one_mul, mul_comm]
    exact_mod_cast ho
  | gt =>
    have ho : den < 2 * rest := ho
    show 1 / 2 < (rest : ℚ) / den
    rw [div_lt_div_iff₀ two_pos hden, one_mul, mul_comm]
    exact_mod_cast ho

theorem represents_fraction (num : ℕ) {den : ℕ} (hd : 0 < den) :
    Represents (.ofMantissaAndAccuracy (num / den) (accuracyOfFraction (num % den) den))
      (num / den) := by
  have hden : (0 : ℚ) < den := by exact_mod_cast hd
  have hparts : (num : ℚ) / den = (num / den : ℕ) + (num % den : ℕ) / den := by
    have hsum : (num : ℚ) = den * (num / den : ℕ) + (num % den : ℕ) := by
      exact_mod_cast (Nat.div_add_mod num den).symm
    rw [div_eq_iff hden.ne', add_mul, div_mul_cancel₀ _ hden.ne', mul_comm]
    exact hsum
  rw [hparts]
  unfold accuracyOfFraction
  split_ifs with hrest
  · rw [hrest, Nat.cast_zero, zero_div, add_zero]
    exact represents_exact _
  · have hpos : 0 < num % den := Nat.pos_of_ne_zero hrest
    refine represents_inexact (by positivity) ?_ (compares_half hd)
    rw [div_lt_one hden]
    exact_mod_cast Nat.mod_lt num hd

theorem Represents.shiftRightOne (h : Represents em x) : Represents em.shiftRightOne (x / 2) := by
  obtain ⟨m, r, s⟩ := em
  obtain ⟨hl, hh, hr, hs⟩ := h
  simp only at hl hh hr hs
  have hm : (m : ℚ) = 2 * (m / 2 : ℕ) + (m % 2 : ℕ) := by exact_mod_cast (Nat.div_add_mod m 2).symm
  rcases Nat.mod_two_eq_zero_or_one m with hb | hb
  · rw [hb, Nat.cast_zero, add_zero] at hm
    constructor <;> simp only [ExtendedMantissa.shiftRightOne, hb]
    · grind
    · grind
    · simp
      grind
    · simp
      grind
  · rw [hb, Nat.cast_one] at hm
    constructor <;> simp only [ExtendedMantissa.shiftRightOne, hb]
    · grind
    · grind
    · simp
      grind
    · simp
      grind

theorem Represents.shiftRight (h : Represents em x) (k : ℕ) :
    Represents (em >>> k) (x / 2 ^ k) := by
  show Represents (k.repeat ExtendedMantissa.shiftRightOne em) _
  induction k with
  | zero => simpa [Nat.repeat] using h
  | succ k ih =>
    rw [Nat.repeat, pow_succ, ← div_div]
    exact ih.shiftRightOne

/-- An integer is nearest to a quantity, and is even if there are two. -/
structure Nearest (x : ℚ) (n : ℕ) : Prop where
  low : n - 1 / 2 ≤ x
  high : x ≤ n + 1 / 2
  even : n % 2 = 0 ∨ (n - 1 / 2 < x ∧ x < n + 1 / 2)

theorem Represents.roundedMantissa (h : Represents em x) (hn : Nearest x n) :
    em.roundedMantissa = n := by
  obtain ⟨m, r, s⟩ := em
  obtain ⟨hl, hh, hr, hs⟩ := h
  obtain ⟨hlow, hhigh, heven⟩ := hn
  simp only at hl hh hr hs
  have hcases : n = m ∨ n = m + 1 := by
    have h₁ : (m : ℚ) < n + 1 := by linarith
    have h₂ : (n : ℚ) < m + 2 := by linarith
    norm_cast at h₁ h₂
    omega
  simp only [ExtendedMantissa.roundedMantissa, ExtendedMantissa.accuracy]
  cases r <;> cases s <;> simp [Accuracy.roundToNearestEven] at hr hs ⊢ <;>
    rcases hcases with rfl | rfl <;> push_cast at * <;> grind

/-! ## Doubles -/

/-- A significand and an exponent of a double, as no other pair stands for the same double. -/
structure Canonical (m : ℕ) (e : ℤ) : Prop where
  pos : 0 < m
  lt : m < 2 ^ 53
  exponent : -1074 ≤ e
  normal : 2 ^ 52 ≤ m ∨ e = -1074

/-- How far below a double the reals round to it, in quarters of its last place. The double below a
power of two is half as far away as the one above. -/
def below (m : ℕ) (e : ℤ) : ℕ := if m = 2 ^ 52 ∧ -1074 < e then 1 else 2

theorem below_pos (m : ℕ) (e : ℤ) : 0 < below m e := by
  unfold below
  split_ifs <;> omega

theorem below_le (m : ℕ) (e : ℤ) : below m e ≤ 2 := by
  unfold below
  split_ifs <;> omega

/-- No double is nearer to the quantity than `m * 2 ^ e`, nor is one with an even significand as near
if that is odd. -/
structure RoundsTo (v : ℚ) (m : ℕ) (e : ℤ) : Prop where
  low : m - below m e / 4 ≤ v / 2 ^ e
  high : v / 2 ^ e ≤ m + 1 / 2
  even : m % 2 = 0 ∨ (m - 1 / 2 < v / 2 ^ e ∧ v / 2 ^ e < m + 1 / 2)

variable {m : ℕ} {e t : ℤ} {v y : ℚ} {acc : Accuracy} {s : Sign}

theorem targetExponent_binary64 (t : ℤ) :
    Format.binary64.targetExponent t = max (t - 53) (-1074) := rfl

theorem shiftToTargetExponent_of_lt (hn : n < 2 ^ 53) (ht : -1074 ≤ t) :
    shiftToTargetExponent .binary64 n t .exact = (.ofMantissaAndAccuracy n .exact, t) := by
  have hlog : n.log2 < 53 := by
    rcases Nat.eq_zero_or_pos n with rfl | h
    · decide
    · exact (Nat.log2_lt h.ne').mpr hn
  have hshift : (max ((n.log2 : ℤ) + 1 + t - 53) (-1074) - t).toNat = 0 := by omega
  simp only [shiftToTargetExponent, shiftToExponent, targetExponent_binary64, totalExponent, hshift]
  simp [HShiftRight.hShiftRight, Nat.repeat]

theorem shiftToTargetExponent_two_pow (ht : -1074 ≤ t) :
    shiftToTargetExponent .binary64 (2 ^ 53) t .exact =
      (.ofMantissaAndAccuracy (2 ^ 52) .exact, t + 1) := by
  have hshift : (max (((2 ^ 53 : ℕ).log2 : ℤ) + 1 + t - 53) (-1074) - t).toNat = 1 := by
    rw [Nat.log2_two_pow]
    omega
  simp only [shiftToTargetExponent, shiftToExponent, targetExponent_binary64, totalExponent, hshift]
  rfl

theorem roundWithAccuracy_eq (hy : Represents (.ofMantissaAndAccuracy m acc) y) (het : e ≤ t)
    (ht : Format.binary64.targetExponent (totalExponent m e) = t)
    (hn : Nearest (y * 2 ^ e / 2 ^ t) n) :
    roundWithAccuracy .binary64 s m e acc =
      let (em, e) := shiftToTargetExponent .binary64 n t .exact
      if h : em.mantissa = 0 then .zero s else .finite s em.mantissa e (Nat.pos_of_ne_zero h) := by
  obtain ⟨k, rfl⟩ := Int.le.dest het
  have hq : y * 2 ^ e / 2 ^ (e + k) = y / 2 ^ k := by
    rw [zpow_add₀ two_ne_zero, zpow_natCast, mul_comm y, mul_div_mul_left]
    exact (zpow_pos two_pos e).ne'
  have hshift : (e + k - e).toNat = k := by omega
  have hfirst : shiftToTargetExponent .binary64 m e acc =
      (ExtendedMantissa.ofMantissaAndAccuracy m acc >>> k, e + k) := by
    simp only [shiftToTargetExponent, shiftToExponent, ht, hshift]
  simp only [roundWithAccuracy, hfirst, (hy.shiftRight k).roundedMantissa (hq ▸ hn)]

theorem targetExponent_eq {k : ℕ} {f : ℤ} (hy : Represents (.ofMantissaAndAccuracy k acc) y)
    (hf : f ≤ Format.binary64.targetExponent (totalExponent k f)) (ht : -1074 ≤ t)
    (hlow : t = -1074 ∨ 2 ^ (t + 52) ≤ y * 2 ^ f) (hhigh : y * 2 ^ f < 2 ^ (t + 53)) :
    Format.binary64.targetExponent (totalExponent k f) = t := by
  rw [targetExponent_binary64, totalExponent] at *
  have hpos : (0 : ℚ) < 2 ^ f := zpow_pos two_pos f
  have hk : (k : ℚ) ≤ y := mantissa_ofMantissaAndAccuracy k acc ▸ hy.low
  have hk' : y < 2 ^ (k.log2 + 1) := by
    have := mantissa_ofMantissaAndAccuracy k acc ▸ hy.high
    have hlog : k + 1 ≤ 2 ^ (k.log2 + 1) := Nat.lt_log2_self
    exact this.trans_le (by exact_mod_cast hlog)
  have hupper : t = -1074 ∨ t + 52 < k.log2 + 1 + f := by
    refine hlow.imp_right fun h => ?_
    have : (2 : ℚ) ^ (t + 52) < 2 ^ ((k.log2 + 1 : ℕ) + f) := by
      rw [zpow_add₀ two_ne_zero (_ : ℤ) f, zpow_natCast]
      exact h.trans_lt (by gcongr)
    have := (zpow_lt_zpow_iff_right₀ one_lt_two).mp this
    push_cast at this
    exact this
  rcases Nat.eq_zero_or_pos k with rfl | hkpos
  · simp only [Nat.log2_zero] at *
    omega
  · have hlower : (k.log2 : ℤ) + f < t + 53 := by
      rw [← zpow_lt_zpow_iff_right₀ (one_lt_two : (1 : ℚ) < 2), zpow_add₀ two_ne_zero, zpow_natCast]
      refine lt_of_le_of_lt ?_ hhigh
      gcongr
      refine le_trans ?_ hk
      exact_mod_cast Nat.log2_self_le hkpos.ne'
    omega

theorem RoundsTo.lt (h : RoundsTo v m e) (hc : Canonical m e) : v < 2 ^ (e + 53) := by
  have hm : (m : ℚ) + 1 ≤ 2 ^ 53 := by exact_mod_cast hc.lt
  have hz : v / 2 ^ e < 2 ^ (53 : ℤ) := by
    norm_cast
    linarith [h.high]
  rwa [div_lt_iff₀ (zpow_pos two_pos e), ← zpow_add₀ two_ne_zero, add_comm] at hz

theorem RoundsTo.nearest (h : RoundsTo v m e) : Nearest (v / 2 ^ e) m where
  low := by
    have : (below m e : ℚ) ≤ 2 := by exact_mod_cast below_le m e
    linarith [h.low]
  high := h.high
  even := h.even

theorem RoundsTo.below_two_pow (h : RoundsTo v m e) (hc : Canonical m e) (he : e ≠ -1074)
    (hv : v < 2 ^ (e + 52)) : m = 2 ^ 52 ∧ 2 ^ 52 - 1 / 4 ≤ v / 2 ^ e ∧ v / 2 ^ e < 2 ^ 52 := by
  have hz : v / 2 ^ e < 2 ^ 52 := by
    rw [div_lt_iff₀ (zpow_pos two_pos e), ← zpow_natCast, ← zpow_add₀ two_ne_zero, add_comm]
    exact hv
  have hm : m = 2 ^ 52 := by
    -- The integer nearest to a quantity below `2 ^ 52` is not above `2 ^ 52`.
    have hlow := h.nearest.low
    have hge : 2 ^ 52 ≤ m := hc.normal.resolve_right he
    have hlt : (m : ℚ) < 2 ^ 52 + 1 := by linarith
    norm_cast at hlt
    omega
  have hbelow : below m e = 1 := if_pos ⟨hm, lt_of_le_of_ne hc.exponent he.symm⟩
  have hlow := h.low
  rw [hbelow, hm] at hlow
  exact ⟨hm, by exact_mod_cast hlow, hz⟩

/-- A quantity that rounds to a double is rounded to it. -/
theorem RoundsTo.roundWithAccuracy {k : ℕ} {f : ℤ} (hr : RoundsTo (y * 2 ^ f) m e)
    (hc : Canonical m e) (hy : Represents (.ofMantissaAndAccuracy k acc) y)
    (hf : f ≤ Format.binary64.targetExponent (totalExponent k f)) :
    roundWithAccuracy .binary64 s k f acc = .finite s m e hc.pos := by
  by_cases hbig : e = -1074 ∨ 2 ^ (e + 52) ≤ y * 2 ^ f
  · have ht := targetExponent_eq hy hf hc.exponent hbig (hr.lt hc)
    rw [roundWithAccuracy_eq hy (ht ▸ hf) ht hr.nearest]
    simp only [shiftToTargetExponent_of_lt hc.lt hc.exponent]
    simp [ExtendedMantissa.ofMantissaAndAccuracy, hc.pos.ne']
  · -- The quantity has 53 bits at the exponent below, and the rounding carries into a further one.
    obtain ⟨he, hlt⟩ := not_or.mp hbig
    obtain ⟨rfl, hlow, hhigh⟩ := hr.below_two_pow hc he (not_le.mp hlt)
    have hle : -1074 ≤ e - 1 := by have := hc.exponent; omega
    have hhalf : y * 2 ^ f / 2 ^ (e - 1) = 2 * (y * 2 ^ f / 2 ^ e) := by
      rw [zpow_sub_one₀ two_ne_zero]
      field_simp
    have ht : Format.binary64.targetExponent (totalExponent k f) = e - 1 := by
      refine targetExponent_eq hy hf hle (.inr ?_) ?_
      · rw [show e - 1 + 52 = 51 + e by omega, zpow_add₀ two_ne_zero,
          ← le_div_iff₀ (zpow_pos two_pos e)]
        norm_num at hlow ⊢
        linarith
      · rw [show e - 1 + 53 = e + 52 by omega]
        exact not_le.mp hlt
    have hn : Nearest (y * 2 ^ f / 2 ^ (e - 1)) (2 ^ 53) := by
      rw [hhalf]
      constructor
      · push_cast
        linarith
      · push_cast
        linarith
      · left
        rfl
    rw [roundWithAccuracy_eq hy (ht ▸ hf) ht hn]
    simp only [shiftToTargetExponent_two_pow hle]
    simp [ExtendedMantissa.ofMantissaAndAccuracy]

/-! ## Quotients and products -/

theorem mul_of_roundsTo {a b : ℕ} {f g : ℤ} (ha : 0 < a) (hb : 0 < b)
    (hr : RoundsTo ((a * b : ℕ) * 2 ^ (f + g)) m e) (hc : Canonical m e)
    (hf : f + g ≤ Format.binary64.targetExponent (totalExponent (a * b) (f + g))) :
    mul .binary64 (.finite .positive a f ha) (.finite .positive b g hb) =
      .finite .positive m e hc.pos :=
  hr.roundWithAccuracy hc (represents_exact _) hf

theorem le_log2_shiftLeft_div {a b j k : ℕ} (ha : 0 < a) (hb : 0 < b)
    (h : b.log2 + 1 + j ≤ a.log2 + k) : j ≤ (a <<< k / b).log2 := by
  have hle : 2 ^ j ≤ a <<< k / b := by
    rw [Nat.le_div_iff_mul_le hb, Nat.shiftLeft_eq]
    calc 2 ^ j * b ≤ 2 ^ j * 2 ^ (b.log2 + 1) := by gcongr; exact Nat.lt_log2_self.le
      _ = 2 ^ (b.log2 + 1 + j) := by rw [← pow_add, add_comm]
      _ ≤ 2 ^ (a.log2 + k) := Nat.pow_le_pow_right two_pos h
      _ = 2 ^ a.log2 * 2 ^ k := pow_add ..
      _ ≤ a * 2 ^ k := by gcongr; exact Nat.log2_self_le ha.ne'
  have hpos : a <<< k / b ≠ 0 := ((Nat.two_pow_pos j).trans_le hle).ne'
  exact (Nat.le_log2 hpos).mpr hle

theorem divCore_exponent_le {a b : ℕ} (f g : ℤ) (ha : 0 < a) (hb : 0 < b) :
    (divCore .binary64 a f b g).2.1 ≤ Format.binary64.targetExponent
      (totalExponent (divCore .binary64 a f b g).1 (divCore .binary64 a f b g).2.1) := by
  simp only [divCore, targetExponent_binary64, totalExponent]
  generalize hT : min (f - g) _ = h
  by_cases hle : h ≤ -1074
  · omega
  · obtain ⟨k, hk⟩ : ∃ k : ℕ, f - g - h = k := ⟨(f - g - h).toNat, by omega⟩
    have hbits : a.log2 + k - b.log2 - 1 ≤ (a <<< k / b).log2 :=
      le_log2_shiftLeft_div ha hb (by omega)
    rw [hk, Int.toNat_natCast]
    omega

theorem represents_divCore {a b : ℕ} (f g : ℤ) (hb : 0 < b) :
    ∃ y : ℚ, Represents (.ofMantissaAndAccuracy (divCore .binary64 a f b g).1
        (divCore .binary64 a f b g).2.2) y ∧
      y * 2 ^ (divCore .binary64 a f b g).2.1 = a * 2 ^ f / (b * 2 ^ g) := by
  refine ⟨_, represents_fraction _ hb, ?_⟩
  dsimp only [divCore]
  generalize hT : min (f - g) _ = h
  obtain ⟨k, hk⟩ : ∃ k : ℕ, f - g - h = k := ⟨(f - g - h).toNat, by omega⟩
  rw [hk, Int.toNat_natCast, Nat.shiftLeft_eq]
  obtain rfl : f = g + h + k := by omega
  rw [zpow_add₀ two_ne_zero, zpow_add₀ two_ne_zero, zpow_natCast]
  push_cast
  field_simp

theorem div_of_roundsTo {a b : ℕ} {f g : ℤ} (ha : 0 < a) (hb : 0 < b)
    (hr : RoundsTo (a * 2 ^ f / (b * 2 ^ g)) m e) (hc : Canonical m e) :
    div .binary64 (.finite .positive a f ha) (.finite .positive b g hb) =
      .finite .positive m e hc.pos := by
  obtain ⟨y, hy, hvalue⟩ := represents_divCore f g hb
  exact RoundsTo.roundWithAccuracy (hvalue ▸ hr) hc hy (divCore_exponent_le f g ha hb)

end MathMarkup.Rounding
