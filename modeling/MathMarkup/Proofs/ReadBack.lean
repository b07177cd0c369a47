import MathMarkup.Proofs.Doubles
import MathMarkup.Proofs.Positional

/-!
# Reading back what is written

The shortest decimal of a double lies in the interval of the reals that round to it, so it is read
as this double. Infinities, zeros and the undefined number are read back by their names.
-/

namespace MathMarkup.Decimal

open Float.Model (Format)
open Float.Model.UnpackedFloat
open Rounding

variable {x : Float} {i : Interval} {digits power m : ℕ} {e : ℤ} {s : Sign}

/-! ## The shortest decimal -/

namespace Interval

theorem contains_of_multiple? (h : i.multiple? power = some digits) :
    i.contains (digits * (tenTo power * i.scale)) := by
  unfold multiple? at h
  simp only at h
  split at h
  · split at h <;> cases h <;> assumption
  · cases h
    assumption
  · cases h
    assumption
  · cases h

theorem contains_shortestFrom (h : (i.multiple? 0).isSome) (n : ℕ) :
    i.contains ((i.shortestFrom n).1 * (tenTo (i.shortestFrom n).2 * i.scale)) := by
  induction n with
  | zero =>
    obtain ⟨digits, hd⟩ := Option.isSome_iff_exists.mp h
    rw [shortestFrom, hd]
    exact contains_of_multiple? hd
  | succ n ih =>
    rw [shortestFrom]
    split
    · rename_i digits hd
      exact contains_of_multiple? hd
    · exact ih

theorem isSome_multiple?_zero (hs : 0 < i.scale) (hlow : i.low + i.scale ≤ i.value)
    (hhigh : i.value < i.high) : (i.multiple? 0).isSome := by
  have hcontains : i.contains (i.value / i.scale * i.scale) := by
    have hle := Nat.div_mul_le_self i.value i.scale
    have hlt := Nat.lt_div_mul_add hs (a := i.value)
    unfold contains
    split <;> simp <;> omega
  unfold multiple?
  simp only [tenTo, Nat.pow_eq, pow_zero, one_mul, hcontains]
  cases i.contains ((i.value / i.scale + 1) * i.scale)
  · rfl
  · split_ifs <;> rfl

end Interval

/-! ## The interval of a double -/

theorem tenTo_pos (n : ℕ) : 0 < tenTo n := Nat.pow_pos (by decide)

theorem twoTo_pos (n : ℕ) : 0 < twoTo n := Nat.pow_pos (by decide)

theorem twoTo_le_twoTo {j k : ℕ} (h : j ≤ k) : twoTo j ≤ twoTo k := Nat.pow_le_pow_right two_pos h

/-- A quarter of the last place of a double, as the interval counts. -/
def quarter (e : ℤ) : ℕ := tenTo 324 * twoTo (e - 2).toNat

theorem quarter_pos (e : ℤ) : 0 < quarter e := Nat.mul_pos (tenTo_pos _) (twoTo_pos _)

def intervalOf (m : ℕ) (e : ℤ) : Interval where
  scale := twoTo (2 - e).toNat
  low := (4 * m - below m e) * quarter e
  value := 4 * m * quarter e
  high := (4 * m + 2) * quarter e
  closed := m % 2 = 0

theorem interval_eq_intervalOf {hm : 0 < m} (h : x.toModel.unpack = .finite s m e hm) :
    interval x = intervalOf m e := by
  have hbits := (bits_of_finite h).2
  have hlt : x.toBits.toNat % 2 ^ 63 % 2 ^ 52 < 2 ^ 52 := Nat.mod_lt _ (by decide)
  have htwo : ∀ n, twoTo n = 2 ^ n := fun _ => rfl
  simp only [interval, intervalOf, quarter, below, htwo]
  generalize x.toBits.toNat % 2 ^ 63 % 2 ^ 52 = fraction at *
  generalize x.toBits.toNat % 2 ^ 63 / 2 ^ 52 = biased at *
  have hm : (if biased = 0 then fraction else fraction + 2 ^ 52) = m := by
    split_ifs <;> omega
  have hup : biased - 1 - 1076 = (e - 2).toNat := by omega
  have hdown : 1076 - (biased - 1) = (2 - e).toNat := by omega
  have hnext : (fraction = 0 ∧ 1 < biased) ↔ (m = 2 ^ 52 ∧ -1074 < e) := by omega
  simp only [hm, hup, hdown, hnext]

theorem twoTo_mul_zpow (e : ℤ) : (twoTo (2 - e).toNat : ℚ) * 2 ^ e = 4 * twoTo (e - 2).toNat := by
  have htwo : ∀ n, (twoTo n : ℚ) = 2 ^ (n : ℤ) := fun n => by simp [twoTo]
  rw [htwo, htwo, ← zpow_add₀ two_ne_zero, show (4 : ℚ) = 2 ^ (2 : ℤ) by norm_num,
    ← zpow_add₀ two_ne_zero]
  congr 1
  omega

theorem place_eq (digits power : ℕ) (e : ℤ) :
    ((digits * (tenTo power * twoTo (2 - e).toNat) : ℕ) : ℚ) =
      4 * (digits * 10 ^ power / 10 ^ 324 / 2 ^ e) * quarter e := by
  have hten : ∀ n, (tenTo n : ℚ) = 10 ^ n := fun n => by simp [tenTo]
  have htwo : (twoTo (e - 2).toNat : ℚ) = twoTo (2 - e).toNat * 2 ^ e / 4 := by
    rw [twoTo_mul_zpow]
    ring
  have hbig : (10 : ℚ) ^ 324 ≠ 0 := by positivity
  rw [quarter, Nat.cast_mul, Nat.cast_mul, Nat.cast_mul, hten, hten, htwo]
  generalize (10 : ℚ) ^ 324 = big at hbig
  field_simp

theorem mul_le_place {place unit : ℕ} {z : ℚ} (hunit : 0 < unit)
    (hplace : (place : ℚ) = 4 * z * unit) (j : ℕ) :
    (j * unit ≤ place ↔ j / 4 ≤ z) ∧ (place ≤ j * unit ↔ z ≤ j / 4) := by
  have hunit : (0 : ℚ) < unit := by exact_mod_cast hunit
  constructor
  · rw [← Nat.cast_le (α := ℚ), hplace, Nat.cast_mul, mul_le_mul_iff_left₀ hunit,
      div_le_iff₀' four_pos]
  · rw [← Nat.cast_le (α := ℚ), hplace, Nat.cast_mul, mul_le_mul_iff_left₀ hunit,
      le_div_iff₀' four_pos]

theorem contains_intervalOf {place : ℕ} (h : (intervalOf m e).contains place) :
    (4 * m - below m e) * quarter e ≤ place ∧ place ≤ (4 * m + 2) * quarter e ∧
      (m % 2 = 0 ∨ (4 * m - 2) * quarter e < place ∧ place < (4 * m + 2) * quarter e) := by
  simp only [Interval.contains, intervalOf] at h
  split_ifs at h with heven
  · grind
  · have hbelow : below m e = 2 := if_neg (by grind)
    grind

theorem roundsTo_of_contains {place : ℕ} {v : ℚ} (hm : 0 < m)
    (hplace : (place : ℚ) = 4 * (v / 2 ^ e) * quarter e) (h : (intervalOf m e).contains place) :
    RoundsTo v m e := by
  obtain ⟨hlow, hhigh, heven⟩ := contains_intervalOf h
  have hbelow := below_le m e
  have hcompare := mul_le_place (quarter_pos e) hplace
  rw [(hcompare _).1, Nat.cast_sub (by omega)] at hlow
  rw [(hcompare _).2] at hhigh
  rw [← not_le, ← not_le, (hcompare _).1, (hcompare _).2, Nat.cast_sub (by omega)] at heven
  push_cast at hlow hhigh heven
  constructor
  · linarith
  · linarith
  · refine heven.imp_right fun ⟨h₁, h₂⟩ => ?_
    constructor <;> linarith

theorem scale_le_quarter (he : -1074 ≤ e) : twoTo (2 - e).toNat ≤ quarter e :=
  calc twoTo (2 - e).toNat ≤ twoTo 1076 := twoTo_le_twoTo (by omega)
    _ ≤ tenTo 324 := by decide +kernel
    _ ≤ quarter e := Nat.le_mul_of_pos_right _ (twoTo_pos _)

theorem contains_shortest_intervalOf (hc : Canonical m e) :
    (intervalOf m e).contains ((intervalOf m e).shortest.1 *
      (tenTo (intervalOf m e).shortest.2 * twoTo (2 - e).toNat)) := by
  refine Interval.contains_shortestFrom (Interval.isSome_multiple?_zero (twoTo_pos _) ?_ ?_) _
  · have hbelow := below_pos m e
    have hpos := hc.pos
    calc (4 * m - below m e) * quarter e + twoTo (2 - e).toNat
      _ ≤ (4 * m - 1) * quarter e + quarter e := by
        gcongr
        · omega
        · exact scale_le_quarter hc.exponent
      _ = 4 * m * quarter e := by
        rw [← Nat.succ_mul]
        congr 1
        omega
  · exact Nat.mul_lt_mul_of_pos_right (by omega) (quarter_pos e)

theorem shortest_pos (hc : Canonical m e) : 0 < (intervalOf m e).shortest.1 := by
  by_contra hzero
  have hlow := (contains_intervalOf (contains_shortest_intervalOf hc)).1
  rw [Nat.eq_zero_of_not_pos hzero, Nat.zero_mul] at hlow
  have hpos := hc.pos
  have hbelow := below_le m e
  exact (Nat.mul_pos (by omega) (quarter_pos e)).not_ge hlow

/-- The shortest decimal of a double rounds to it. -/
theorem roundsTo_shortest (hc : Canonical m e) :
    RoundsTo ((intervalOf m e).shortest.1 * 10 ^ (intervalOf m e).shortest.2 / 10 ^ 324) m e :=
  roundsTo_of_contains hc.pos (place_eq _ _ e) (contains_shortest_intervalOf hc)

/-! ## Reading back -/

theorem toFloat_eq_ofScientific {w : Scientific} (hd : 0 < w.digits) (hlow : -324 ≤ w.exponent)
    (hhigh : w.exponent ≤ 0) :
    w.toFloat = Float.ofScientific w.digits (w.exponent < 0) w.exponent.natAbs := by
  rw [Scientific.toFloat, if_neg hd.ne', if_neg (by omega), if_neg (by omega)]

theorem toFloat_places (hd : 0 < digits) (hc : Canonical m e)
    (hr : RoundsTo (digits * 10 ^ power / 10 ^ 324) m e) :
    (places digits power).toFloat = .ofModel (.pack (.finite .positive m e hc.pos)) := by
  unfold places
  split
  · rename_i hle
    obtain ⟨k, rfl⟩ := Nat.exists_eq_add_of_le hle
    have hpos : 0 < digits * tenTo k := Nat.mul_pos hd (tenTo_pos k)
    have hvalue : ((digits * tenTo k : ℕ) : ℚ) = digits * 10 ^ (324 + k) / 10 ^ 324 := by
      rw [pow_add, ← mul_assoc, mul_right_comm, mul_div_cancel_right₀ _ (by positivity)]
      simp [tenTo]
    rw [Nat.add_sub_cancel_left, toFloat_eq_ofScientific hpos (by simp) le_rfl]
    exact ofScientific_whole (hvalue ▸ hr) hc hpos
  · rename_i hlt
    obtain ⟨k, hk⟩ := Nat.exists_eq_add_of_le (Nat.not_le.mp hlt).le
    have hvalue : (digits : ℚ) * 10 ^ power / 10 ^ 324 = digits / 10 ^ k := by
      rw [hk, pow_add, mul_comm, mul_div_mul_left _ _ (by positivity)]
    have hexp : (power : ℤ) - 324 = -k := by omega
    have hneg : decide (-(k : ℤ) < 0) = true := by
      rw [decide_eq_true_iff]
      omega
    rw [hexp, toFloat_eq_ofScientific hd (by simp only; omega) (by simp)]
    simp only [hneg, Int.natAbs_neg, Int.natAbs_natCast]
    exact ofScientific_fraction (hvalue ▸ hr) hc hd (by omega) (by omega)

theorem unpack_zero : (0 : Float).toModel.unpack = .zero .positive := rfl

def signText : Sign → String
  | .positive => ""
  | .negative => "-"

theorem write_of_finite {hm : 0 < m} (h : x.toModel.unpack = .finite s m e hm) :
    write x = signText s ++ positional (intervalOf m e).shortest.1 (intervalOf m e).shortest.2 := by
  have hnan : x.isNaN = false := show x.toModel.unpack.isNaN = false by rw [h]; rfl
  have hinf : x.isInf = false := show x.toModel.unpack.isInf = false by rw [h]; rfl
  have hzero : (x == 0) = false := by
    show x.toModel.unpack.beq (0 : Float).toModel.unpack = false
    rw [h, unpack_zero]
    cases s <;> rfl
  have hsign : (if x.toBits.toNat < twoTo 63 then "" else "-") = signText s := by
    rw [(bits_of_finite h).1, show twoTo 63 = 2 ^ 63 from rfl]
    split_ifs <;> rfl
  rw [write, writeMagnitude, hnan, hinf, hzero, interval_eq_intervalOf h, hsign]
  rfl

theorem read?_positional :
    read? (positional digits power) = some (places digits power).toFloat := by
  rw [read?, splitSign_of_isNumeral fun _ hc => isNumeral_of_mem_positional hc]
  simp only [scientific?_positional]
  rfl

theorem read?_neg_positional :
    read? ("-" ++ positional digits power) = some (-(places digits power).toFloat) := by
  have hsplit : splitSign ("-" ++ positional digits power).toList =
      (true, (positional digits power).toList) := by
    rw [String.toList_append]
    rfl
  rw [read?, hsplit]
  simp only [scientific?_positional]
  rfl

theorem read?_write_of_finite {hm : 0 < m} (h : x.toModel.unpack = .finite s m e hm) :
    read? (write x) = some x := by
  obtain ⟨hc, he⟩ := canonical_of_finite h
  have hvalue := toFloat_places (shortest_pos hc) hc (roundsTo_shortest hc)
  rw [write_of_finite h]
  cases s with
  | positive =>
    rw [signText, String.empty_append, read?_positional, hvalue, ← h, ofModel_pack_unpack]
  | negative =>
    have hneg : -Float.ofModel (.pack (.finite .positive m e hm)) =
        .ofModel (.pack (.finite .negative m e hm)) := by
      show Float.ofModel (.pack (Float.Model.unpack _).neg) = _
      rw [hc.unpack_pack he]
      rfl
    rw [signText, read?_neg_positional, hvalue, hneg, ← h, ofModel_pack_unpack]

/-- A double is read back from what is written for it. -/
theorem read?_write (x : Float) : read? (write x) = some x := by
  cases h : x.toModel.unpack with
  | infinity s =>
    rw [← ofModel_pack_unpack x, h]
    cases s <;> decide +kernel
  | notANumber =>
    rw [← ofModel_pack_unpack x, h]
    decide +kernel
  | zero s =>
    rw [← ofModel_pack_unpack x, h]
    cases s <;> decide +kernel
  | finite s m e hm => exact read?_write_of_finite h

theorem write_injective : Function.Injective write := fun x y h => by
  rw [← Option.some.injEq, ← read?_write x, h, read?_write]

end MathMarkup.Decimal
