import MathMarkup.Decimal.Write
import MathMarkup.Proofs.Numerals

/-!
# Positional texts

A number is written as a row of digits, with at most one point in it, and such a row names the digits
and the power of ten that it was written for.
-/

namespace MathMarkup.Decimal

open Token (isNumeral)

variable {whole fraction : List Char} {c : Char} {digits power : Nat}

/-! ## Rows of digits -/

theorem scientific?_whole (hn : whole ≠ []) (hw : ∀ c ∈ whole, c.isDigit) :
    scientific? whole = some ⟨Nat.ofDigitChars 10 whole 0, 0⟩ := by
  have htake : whole.takeWhile Char.isDigit = whole := List.takeWhile_eq_self_iff.mpr hw
  have hdrop : whole.dropWhile Char.isDigit = [] := List.dropWhile_eq_nil_iff.mpr hw
  unfold scientific?
  simp [htake, hdrop, hn]

theorem scientific?_pointed (hn : whole ≠ []) (hw : ∀ c ∈ whole, c.isDigit)
    (hf : ∀ c ∈ fraction, c.isDigit) :
    scientific? (whole ++ '.' :: fraction) =
      some ⟨Nat.ofDigitChars 10 (whole ++ fraction) 0, -fraction.length⟩ := by
  have hstop : ∀ c ∈ ('.' :: fraction).head?, ¬ c.isDigit := by simp
  have htake : fraction.takeWhile Char.isDigit = fraction := List.takeWhile_eq_self_iff.mpr hf
  have hdrop : fraction.dropWhile Char.isDigit = [] := List.dropWhile_eq_nil_iff.mpr hf
  unfold scientific?
  simp [takeWhile_append_of_stop hw hstop, dropWhile_append_of_stop hw hstop, htake, hdrop, hn]

theorem isDigit_of_mem_toDigits {n : Nat} (h : c ∈ Nat.toDigits 10 n) : c.isDigit :=
  Nat.isDigit_of_mem_toDigits (by decide) (by decide) h

def lastDigits (places n : Nat) : List Char :=
  List.replicate (places - (Nat.toDigits 10 (n % tenTo places)).length) '0' ++
    Nat.toDigits 10 (n % tenTo places)

theorem isDigit_of_mem_lastDigits {places n : Nat} (h : c ∈ lastDigits places n) : c.isDigit := by
  rcases List.mem_append.mp h with h | h
  · rw [List.eq_of_mem_replicate h]
    decide
  · exact isDigit_of_mem_toDigits h

theorem length_lastDigits {places : Nat} (h : 0 < places) (n : Nat) :
    (lastDigits places n).length = places := by
  have hlt : n % tenTo places < 10 ^ places := Nat.mod_lt n (Nat.pow_pos (by decide))
  have hle := (Nat.length_toDigits_le_iff (by decide) h).mpr hlt
  rw [lastDigits, List.length_append, List.length_replicate]
  omega

theorem ofDigitChars_lastDigits (places n : Nat) :
    Nat.ofDigitChars 10 (lastDigits places n) 0 = n % tenTo places := by
  rw [lastDigits, Nat.ofDigitChars_append, Nat.ofDigitChars_replicate_zero, Nat.mul_zero,
    Nat.ofDigitChars_ten_toDigits]

/-! ## What is written -/

theorem toList_positional_of_le (h : 324 ≤ power) : (positional digits power).toList =
    Nat.toDigits 10 digits ++ List.replicate (power - 324) '0' := by
  simp [positional, h, zeros]

theorem toList_positional_of_lt (h : power < 324) : (positional digits power).toList =
    Nat.toDigits 10 (digits / tenTo (324 - power)) ++ '.' :: lastDigits (324 - power) digits := by
  have hlen : (digits % tenTo (324 - power)).repr.length =
      (Nat.toDigits 10 (digits % tenTo (324 - power))).length := by
    rw [← String.length_toList, Nat.toList_repr]
  simp [positional, Nat.not_le.mpr h, zeros, lastDigits, hlen]

def places (digits power : Nat) : Scientific :=
  if 324 ≤ power then ⟨digits * tenTo (power - 324), 0⟩ else ⟨digits, power - 324⟩

theorem scientific?_positional (digits power : Nat) :
    scientific? (positional digits power).toList = some (places digits power) := by
  by_cases h : 324 ≤ power
  · have hrow : ∀ c ∈ Nat.toDigits 10 digits ++ List.replicate (power - 324) '0', c.isDigit := by
      intro c hc
      rcases List.mem_append.mp hc with hc | hc
      · exact isDigit_of_mem_toDigits hc
      · rw [List.eq_of_mem_replicate hc]
        decide
    rw [toList_positional_of_le h, scientific?_whole (by simp) hrow, Nat.ofDigitChars_append,
      Nat.ofDigitChars_replicate_zero, Nat.ofDigitChars_ten_toDigits, places, if_pos h,
      Nat.mul_comm]
    rfl
  · have hlt : power < 324 := Nat.not_le.mp h
    have hlen : (lastDigits (324 - power) digits).length = 324 - power :=
      length_lastDigits (by omega) digits
    rw [toList_positional_of_lt hlt, scientific?_pointed Nat.toDigits_ne_nil
      (fun c hc => isDigit_of_mem_toDigits hc) (fun c hc => isDigit_of_mem_lastDigits hc),
      Nat.ofDigitChars_append, Nat.ofDigitChars_ten_toDigits, Nat.ofDigitChars_eq_ofDigitChars_zero,
      ofDigitChars_lastDigits, hlen, places, if_neg h, tenTo]
    have hpower : -((324 - power : Nat) : Int) = power - 324 := by omega
    rw [hpower]
    congr 2
    exact Nat.div_add_mod digits (10 ^ (324 - power))

theorem isNumeral_of_mem_positional (h : c ∈ (positional digits power).toList) : isNumeral c := by
  have hdigit : ∀ c : Char, c.isDigit → isNumeral c := fun c hc => by simp [isNumeral, hc]
  by_cases hp : 324 ≤ power
  · rw [toList_positional_of_le hp, List.mem_append] at h
    rcases h with h | h
    · exact hdigit c (isDigit_of_mem_toDigits h)
    · rw [List.eq_of_mem_replicate h]
      decide
  · rw [toList_positional_of_lt (Nat.not_le.mp hp), List.mem_append, List.mem_cons] at h
    rcases h with h | rfl | h
    · exact hdigit c (isDigit_of_mem_toDigits h)
    · decide
    · exact hdigit c (isDigit_of_mem_lastDigits h)

theorem positional_ne_empty : positional digits power ≠ "" := by
  rw [← String.toList_inj.ne]
  by_cases hp : 324 ≤ power
  · rw [toList_positional_of_le hp]
    simp
  · rw [toList_positional_of_lt (Nat.not_le.mp hp)]
    simp

end MathMarkup.Decimal
