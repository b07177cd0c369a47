import MathMarkup.Proofs.Rounding

/-!
# The bits of a double

A finite double survives being packed into its bits, and a decimal significand over a power of ten
is read as the double it rounds to.
-/

namespace MathMarkup.Rounding

open Float.Model (Format)
open Float.Model.UnpackedFloat

variable {x : Float} {m n : ℕ} {e : ℤ} {s : Sign}

/-! ## Bits -/

section Unpack

variable {b : BitVec Format.binary64.numBits}

theorem toNat_unpackMantissa : (unpackMantissa b).toNat = b.toNat % 2 ^ 63 % 2 ^ 52 := by
  rw [unpackMantissa_def, BitVec.extractLsb'_toNat, Nat.shiftRight_eq_div_pow]
  show b.toNat / 2 ^ 0 % 2 ^ 52 = _
  omega

theorem toNat_unpackExponent : (unpackExponent b).toNat = b.toNat % 2 ^ 63 / 2 ^ 52 := by
  rw [unpackExponent_def, BitVec.extractLsb'_toNat, Nat.shiftRight_eq_div_pow]
  show b.toNat / 2 ^ 52 % 2 ^ 11 = _
  omega

theorem ofBitVec_unpackSign :
    Sign.ofBitVec (unpackSign b) = if b.toNat < 2 ^ 63 then .positive else .negative := by
  have hlt : b.toNat < 2 ^ 64 := b.isLt
  have hbit : (unpackSign b).toNat = b.toNat / 2 ^ 63 := by
    rw [unpackSign_def, BitVec.extractLsb'_toNat, Nat.shiftRight_eq_div_pow]
    show b.toNat / 2 ^ 63 % 2 ^ 1 = _
    omega
  split_ifs with h
  · have hzero : unpackSign b = 0#1 := BitVec.toNat_inj.mp (by rw [hbit, BitVec.toNat_zero]; omega)
    rw [hzero]
    rfl
  · have hone : unpackSign b = 1#1 := BitVec.toNat_inj.mp <| by
      rw [hbit]
      show _ = 1
      omega
    rw [hone]
    rfl

theorem toNat_one_append (v : BitVec 52) : (1#1 ++ v).toNat = 2 ^ 52 + v.toNat := by
  rw [BitVec.toNat_append, ← Nat.shiftLeft_add_eq_or_of_lt v.isLt]
  rfl

theorem unpack_normal (hpos : (unpackExponent b).toNat ≠ 0)
    (hlt : (unpackExponent b).toNat ≠ 2047) :
    unpack .binary64 b = .finite (.ofBitVec (unpackSign b)) (2 ^ 52 + (unpackMantissa b).toNat)
      ((unpackExponent b).toNat - 1075) (by positivity) := by
  have hnan : unpackExponent b ≠ -1#11 := fun h => hlt (h ▸ rfl)
  have hzero : unpackExponent b ≠ 0#11 := fun h => hpos (h ▸ rfl)
  unfold unpack
  simp only [if_neg hnan, if_neg hzero]
  congr 1
  exact toNat_one_append _

theorem unpack_subnormal (hexp : (unpackExponent b).toNat = 0)
    (hpos : 0 < (unpackMantissa b).toNat) :
    unpack .binary64 b =
      .finite (.ofBitVec (unpackSign b)) (unpackMantissa b).toNat (-1074) hpos := by
  have hexp : unpackExponent b = 0#11 := BitVec.toNat_inj.mp hexp
  have hzero : unpackMantissa b ≠ 0#52 := fun h => hpos.ne' (h ▸ rfl)
  have hnan : (0#11) ≠ -1#11 := by decide
  unfold unpack
  simp only [hexp, if_neg hnan, dif_neg hzero]
  rfl

theorem unpack_of_exponent_eq (h : (unpackExponent b).toNat = 2047) :
    unpack .binary64 b = .infinity (.ofBitVec (unpackSign b)) ∨
      unpack .binary64 b = .notANumber := by
  have hexp : unpackExponent b = -1#11 := BitVec.toNat_inj.mp h
  unfold unpack
  simp only [if_pos hexp]
  split_ifs <;> simp

theorem unpack_of_zero (hexp : (unpackExponent b).toNat = 0) (hman : (unpackMantissa b).toNat = 0) :
    unpack .binary64 b = .zero (.ofBitVec (unpackSign b)) := by
  have hexp : unpackExponent b = 0#11 := BitVec.toNat_inj.mp hexp
  have hman : unpackMantissa b = 0#52 := BitVec.toNat_inj.mp hman
  have hnan : (0#11) ≠ -1#11 := by decide
  unfold unpack
  simp only [hexp, hman, if_neg hnan]
  rfl

end Unpack

theorem bits_of_finite {hm : 0 < m} (h : x.toModel.unpack = .finite s m e hm) :
    let bits := x.toBits.toNat % 2 ^ 63
    s = (if x.toBits.toNat < 2 ^ 63 then .positive else .negative) ∧
      (bits / 2 ^ 52 = 0 ∧ m = bits % 2 ^ 52 ∧ e = -1074 ∨
        0 < bits / 2 ^ 52 ∧ bits / 2 ^ 52 < 2047 ∧
          m = 2 ^ 52 + bits % 2 ^ 52 ∧ e = (bits / 2 ^ 52 : ℕ) - 1075) := by
  obtain ⟨b, hb⟩ : ∃ b : BitVec Format.binary64.numBits, x.toBits.toBitVec = b := ⟨_, rfl⟩
  have h : unpack .binary64 b = .finite s m e hm := hb ▸ h
  simp only [← UInt64.toNat_toBitVec, hb]
  rw [← ofBitVec_unpackSign, ← toNat_unpackExponent, ← toNat_unpackMantissa]
  have hexp : (unpackExponent b).toNat < 2048 := (unpackExponent b).isLt
  by_cases hnan : (unpackExponent b).toNat = 2047
  · rcases unpack_of_exponent_eq hnan with hu | hu <;> rw [hu] at h <;> cases h
  · by_cases hzero : (unpackExponent b).toNat = 0
    · have hman : 0 < (unpackMantissa b).toNat := by
        by_contra hman
        rw [unpack_of_zero hzero (by omega)] at h
        cases h
      rw [unpack_subnormal hzero hman] at h
      cases h
      exact ⟨rfl, .inl ⟨hzero, rfl, rfl⟩⟩
    · rw [unpack_normal hzero hnan] at h
      cases h
      exact ⟨rfl, .inr ⟨by omega, by omega, rfl, rfl⟩⟩

theorem canonical_of_finite {hm : 0 < m} (h : x.toModel.unpack = .finite s m e hm) :
    Canonical m e ∧ e ≤ 971 := by
  have hbits := (bits_of_finite h).2
  refine ⟨⟨hm, ?_, ?_, ?_⟩, ?_⟩ <;> omega

theorem ofModel_pack_unpack (x : Float) : Float.ofModel (.pack x.toModel.unpack) = x := by
  obtain ⟨⟨bits, hvalid⟩⟩ := x
  rw [Float.Model.pack, Float.Model.unpack]
  simp only [pack_unpack_of_valid hvalid]

theorem Canonical.log2_eq_iff (hc : Canonical m e) :
    m.log2 + 1 = Format.binary64.mantissaBits ↔ 2 ^ 52 ≤ m := by
  rw [← Nat.le_log2 hc.pos.ne', show Format.binary64.mantissaBits = 53 from rfl]
  have : m.log2 < 53 := (Nat.log2_lt hc.pos.ne').mpr hc.lt
  omega

theorem Canonical.unpack_pack (hc : Canonical m e) (he : e ≤ 971) :
    (Float.Model.pack (.finite s m e hc.pos)).unpack = .finite s m e hc.pos := by
  have hlow := hc.exponent
  have hlt := hc.lt
  have hpos := hc.pos
  obtain ⟨b, hb⟩ : ∃ b : ℕ, (e + Format.binary64.exponentBias + (52 : ℕ)).toNat = b := ⟨_, rfl⟩
  have hexp : (e + 1023 + 52).toNat = b := hb
  show unpack .binary64 (pack .binary64 _) = _
  unfold pack
  simp only [hb]
  rw [if_neg (show ¬2048 ≤ b + 1 by omega)]
  by_cases hnormal : 2 ^ 52 ≤ m
  · have hbiased : (BitVec.ofNat 11 b).toNat = b := Nat.mod_eq_of_lt (by omega)
    have hfraction : (BitVec.ofNat 52 m).toNat = m - 2 ^ 52 := by
      rw [BitVec.toNat_ofNat]
      omega
    rw [if_pos (hc.log2_eq_iff.mpr hnormal), unpack_normal] <;>
      simp only [unpackMantissa_packComponents, unpackExponent_packComponents,
        unpackSign_packComponents, Sign.ofBitVec_toBitVec, hbiased, hfraction]
    · rw [Float.Model.UnpackedFloat.finite.injEq]
      exact ⟨rfl, by omega, by omega⟩
    · omega
    · omega
  · have hfraction : (BitVec.ofNat 52 m).toNat = m := Nat.mod_eq_of_lt (by omega)
    have hleast : e = -1074 := hc.normal.resolve_left hnormal
    rw [if_neg (mt hc.log2_eq_iff.mp hnormal), unpack_subnormal] <;>
      simp only [unpackMantissa_packComponents, unpackExponent_packComponents,
        unpackSign_packComponents, Sign.ofBitVec_toBitVec, hfraction, hleast]
    · rfl
    · exact hpos

/-! ## Decimals -/

theorem roundsTo_self (m : ℕ) (e : ℤ) : RoundsTo (m * 2 ^ e) m e := by
  have hself : (m : ℚ) * 2 ^ e / 2 ^ e = m := mul_div_cancel_right₀ _ (zpow_pos two_pos e).ne'
  constructor
  · have : (0 : ℚ) ≤ below m e := Nat.cast_nonneg _
    linarith
  · linarith
  · right
    constructor <;> linarith

theorem le_targetExponent (h : 2 ^ 52 ≤ m) (e : ℤ) :
    e ≤ Format.binary64.targetExponent (Float.Model.totalExponent m e) := by
  have hlog : 52 ≤ m.log2 := (Nat.le_log2 (by omega)).mpr h
  rw [targetExponent_binary64, Float.Model.totalExponent]
  omega

theorem unpack_toFloat (hpos : 0 < n) (hlt : n < 2 ^ 53) :
    ∃ (a : ℕ) (f : ℤ) (ha : 0 < a), n.toUInt64.toFloat.toModel.unpack = .finite .positive a f ha ∧
      2 ^ 52 ≤ a ∧ (a : ℚ) * 2 ^ f = n := by
  have hlog : n.log2 < 53 := (Nat.log2_lt hpos.ne').mpr hlt
  obtain ⟨k, hk⟩ : ∃ k, n.log2 + k = 52 := ⟨52 - n.log2, by omega⟩
  have hlow : 2 ^ 52 ≤ n <<< k := by
    rw [Nat.shiftLeft_eq, ← hk, pow_add]
    gcongr
    exact Nat.log2_self_le hpos.ne'
  have hhigh : n <<< k < 2 ^ 53 := by
    rw [Nat.shiftLeft_eq, show 53 = n.log2 + 1 + k by omega, pow_add _ (n.log2 + 1)]
    gcongr
    exact Nat.lt_log2_self
  have hc : Canonical (n <<< k) (-k) := ⟨by omega, hhigh, by omega, .inl hlow⟩
  have htarget : Format.binary64.targetExponent (Float.Model.totalExponent n 0) = -k := by
    rw [targetExponent_binary64, Float.Model.totalExponent]
    omega
  refine ⟨n <<< k, -k, hc.pos, ?_, hlow, ?_⟩
  · have hshift : (0 - -(k : ℤ)).toNat = k := by omega
    have hround : Float.Model.UnpackedFloat.round .binary64 .positive n 0 =
        .finite .positive (n <<< k) (-k) hc.pos := by
      simp only [Float.Model.UnpackedFloat.round, htarget, decreaseExponent, hshift]
      rw [zero_sub]
      exact (roundsTo_self _ _).roundWithAccuracy hc (represents_exact _) (le_targetExponent hlow _)
    have hnormal : normalize .binary64 n 0 .positive = .finite .positive (n <<< k) (-k) hc.pos := by
      simp only [Float.Model.UnpackedFloat.normalize]
      rw [compare_gt_iff_gt.mpr (Nat.cast_pos.mpr hpos)]
      exact hround
    have hword : n.toUInt64.toNat = n := Nat.mod_eq_of_lt (by omega)
    show (Float.Model.pack (normalize .binary64 n.toUInt64.toNat 0 .positive)).unpack = _
    rw [hword, hnormal, hc.unpack_pack (by omega)]
  · rw [Nat.shiftLeft_eq, zpow_neg, zpow_natCast]
    push_cast
    field_simp

def IsWhole (u : Float.Model.UnpackedFloat) (p : ℕ) : Prop :=
  match u with
  | .finite .positive m e _ => -52 ≤ e ∧ m * 2 ^ (e + 52).toNat = p * 2 ^ 52
  | _ => False

instance : DecidableRel IsWhole := fun u p =>
  match u with
  | .finite .positive m e _ =>
    inferInstanceAs (Decidable (-52 ≤ e ∧ m * 2 ^ (e + 52).toNat = p * 2 ^ 52))
  | .finite .negative _ _ _ | .infinity _ | .notANumber | .zero _ => inferInstanceAs (Decidable False)

theorem IsWhole.eq_finite {u : Float.Model.UnpackedFloat} {p : ℕ} (h : IsWhole u p) :
    ∃ (a : ℕ) (f : ℤ) (ha : 0 < a), u = .finite .positive a f ha ∧ (a : ℚ) * 2 ^ f = p := by
  unfold IsWhole at h
  split at h
  · rename_i m e hm
    obtain ⟨hle, h⟩ := h
    refine ⟨m, e, hm, rfl, ?_⟩
    obtain ⟨k, hk⟩ := Int.eq_ofNat_of_zero_le (show 0 ≤ e + 52 by omega)
    obtain rfl : e = k - 52 := by omega
    have hq : (m : ℚ) * 2 ^ k = p * 2 ^ 52 := by
      rw [hk] at h
      exact_mod_cast h
    rw [zpow_sub₀ two_ne_zero, zpow_natCast, ← mul_div_assoc, hq]
    norm_num
  · exact h.elim

theorem isWhole_powers : ∀ k : Fin 23,
    IsWhole (Float.exactlyRepresentablePowersOfTen[k.val]).toModel.unpack (10 ^ k.val) := by
  decide +kernel

/-- A decimal fraction is read as the double that it rounds to. -/
theorem ofScientific_fraction {d k : ℕ} (hr : RoundsTo (d / 10 ^ k) m e)
    (hc : Canonical m e) (hd : 0 < d) (hk : 0 < k) (hk' : k ≤ 324) :
    Float.ofScientific d true k = .ofModel (.pack (.finite .positive m e hc.pos)) := by
  have hdiv {a b : ℕ} {f g : ℤ} (ha : 0 < a) (hb : 0 < b) (hd : (a : ℚ) * 2 ^ f = d)
      (hk : (b : ℚ) * 2 ^ g = (10 ^ k : ℕ)) :
      div .binary64 (.finite .positive a f ha) (.finite .positive b g hb) =
        .finite .positive m e hc.pos := by
    refine div_of_roundsTo ha hb ?_ hc
    rw [hd, hk]
    exact_mod_cast hr
  rw [Float.ofScientific]
  split
  · rename_i hsmall
    obtain ⟨a, f, ha, hua, -, hqa⟩ := unpack_toFloat hd hsmall.1
    obtain ⟨b, g, hb, hub, hqb⟩ := (isWhole_powers ⟨k, by omega⟩).eq_finite
    rw [if_pos rfl]
    show Float.ofModel (.pack (Float.Model.UnpackedFloat.div .binary64 _ _)) = _
    rw [hua, hub, hdiv ha hb hqa hqb]
  · have hneg : Int.negOfNat k = -(k : ℤ) := Int.negOfNat_eq
    have hbits : (2 : ℤ) ^ Format.binary64.exponentBits = 2048 := rfl
    show Float.ofModel (.pack (ofScientific .binary64 d (Int.negOfNat k))) = _
    rw [hneg, ofScientific, dif_neg hd.ne', if_neg (by omega), if_neg (by omega),
      if_neg (by omega)]
    simp only [neg_neg, Int.toNat_natCast]
    rw [hdiv hd (Nat.pow_pos (by decide)) (by simp) (by simp)]

theorem ofScientific_whole {d : ℕ} (hr : RoundsTo d m e) (hc : Canonical m e) (hd : 0 < d) :
    Float.ofScientific d false 0 = .ofModel (.pack (.finite .positive m e hc.pos)) := by
  have hmul {a b : ℕ} {f g : ℤ} (ha : 0 < a) (hb : 0 < b) (hbits : 2 ^ 52 ≤ a)
      (hd : (a : ℚ) * 2 ^ f = d) (hone : (b : ℚ) * 2 ^ g = 1) :
      mul .binary64 (.finite .positive a f ha) (.finite .positive b g hb) =
        .finite .positive m e hc.pos := by
    refine mul_of_roundsTo ha hb ?_ hc
      (le_targetExponent (hbits.trans (Nat.le_mul_of_pos_right a hb)) _)
    have hvalue : ((a * b : ℕ) : ℚ) * 2 ^ (f + g) = d := by
      rw [zpow_add₀ two_ne_zero, ← hd, Nat.cast_mul, mul_mul_mul_comm, hone, mul_one]
    rwa [hvalue]
  rw [Float.ofScientific]
  split
  · rename_i hsmall
    obtain ⟨a, f, ha, hua, hbits, hqa⟩ := unpack_toFloat hd hsmall.1
    have hone : IsWhole (Float.exactlyRepresentablePowersOfTen[0]).toModel.unpack 1 :=
      isWhole_powers 0
    obtain ⟨b, g, hb, hub, hqb⟩ := hone.eq_finite
    rw [if_neg (by decide)]
    show Float.ofModel (.pack (Float.Model.UnpackedFloat.mul .binary64 _ _)) = _
    rw [hua, hub, hmul ha hb hbits hqa (by exact_mod_cast hqb)]
  · show Float.ofModel (.pack (ofScientific .binary64 d 0)) = _
    rw [ofScientific, dif_neg hd.ne', if_neg (by decide), 
      if_neg (by rw [show (2 : ℤ) ^ Format.binary64.exponentBits = 2048 from rfl]; omega),
      if_pos le_rfl]
    simp only [Int.toNat_zero, pow_zero]
    rw [hmul]
    · rw [Nat.shiftLeft_eq]
      calc 2 ^ 52 ≤ 1 * 2 ^ 53 := by norm_num
        _ ≤ d * 2 ^ 53 := by gcongr; exact hd
    · rw [Nat.shiftLeft_eq, show Format.binary64.mantissaBits = 53 from rfl, zpow_neg, zpow_natCast]
      push_cast
      exact mul_div_cancel_right₀ _ (by positivity)
    · simp

end MathMarkup.Rounding
