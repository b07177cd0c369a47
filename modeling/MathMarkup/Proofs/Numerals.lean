import Mathlib.Data.List.TakeWhile
import MathMarkup.Decimal.Read
import MathMarkup.Proofs.Run
import MathMarkup.Token

/-!
# Numerals

A text of digits and points is a number exactly if it has a digit and not more than one point.
-/

namespace MathMarkup.Decimal

open Token (isNumeral)

variable {cs whole behind : List Char} {c : Char}

theorem isDigit_of_isNumeral (h : isNumeral c) (hp : c ≠ '.') : c.isDigit := by
  simpa [isNumeral, hp] using h

theorem not_isDigit_point : ¬ Char.isDigit '.' := by decide

theorem point_not_mem_digits (h : ∀ c ∈ cs, c.isDigit) : '.' ∉ cs :=
  fun hp => not_isDigit_point (h _ hp)

theorem digits_of_point_not_mem (h : ∀ c ∈ cs, isNumeral c) (hp : '.' ∉ cs) :
    ∀ c ∈ cs, c.isDigit := by
  intro c hc
  refine isDigit_of_isNumeral (h c hc) fun he => hp ?_
  rwa [← he]

theorem eq_point_of_dropWhile (h : ∀ c ∈ cs, isNumeral c)
    (hd : cs.dropWhile Char.isDigit = c :: behind) : c = '.' := by
  by_contra hne
  have hmem : c ∈ cs := (List.dropWhile_sublist _).subset (hd ▸ List.mem_cons_self)
  have hhead : c ∈ (cs.dropWhile Char.isDigit).head? := by
    rw [hd]
    rfl
  exact not_of_mem_head?_dropWhile hhead (isDigit_of_isNumeral (h c hmem) hne)

theorem isSome_scientific?_whole (hw : ∀ c ∈ whole, c.isDigit) :
    (scientific? whole).isSome ↔ whole ≠ [] := by
  have htake : whole.takeWhile Char.isDigit = whole := List.takeWhile_eq_self_iff.mpr hw
  have hdrop : whole.dropWhile Char.isDigit = [] := List.dropWhile_eq_nil_iff.mpr hw
  unfold scientific?
  simp only [htake, hdrop, List.head?_nil]
  cases whole with
  | nil => simp
  | cons c cs => simp

theorem isSome_scientific?_pointed (hw : ∀ c ∈ whole, c.isDigit) (hb : ∀ c ∈ behind, isNumeral c) :
    (scientific? (whole ++ '.' :: behind)).isSome ↔ '.' ∉ behind ∧ (whole ≠ [] ∨ behind ≠ []) := by
  have hstop : ∀ c ∈ ('.' :: behind).head?, ¬ c.isDigit := by simp
  unfold scientific?
  simp only [takeWhile_append_of_stop hw hstop, dropWhile_append_of_stop hw hstop,
    List.head?_cons, List.tail_cons, if_true]
  by_cases hp : '.' ∈ behind
  · obtain ⟨d, rest, hrest⟩ : ∃ d rest, behind.dropWhile Char.isDigit = d :: rest := by
      apply List.exists_cons_of_ne_nil
      intro hn
      exact point_not_mem_digits (List.dropWhile_eq_nil_iff.mp hn) hp
    simp [hrest, eq_point_of_dropWhile hb hrest, hp]
  · have hdigits := digits_of_point_not_mem hb hp
    rw [List.takeWhile_eq_self_iff.mpr hdigits, List.dropWhile_eq_nil_iff.mpr hdigits]
    cases whole with
    | nil => cases behind <;> simp_all
    | cons c cs => simp [hp]

theorem isSome_scientific?_iff (h : ∀ c ∈ cs, isNumeral c) :
    (scientific? cs).isSome ↔ cs.count '.' ≤ 1 ∧ ∃ c ∈ cs, c.isDigit := by
  cases hd : cs.dropWhile Char.isDigit with
  | nil =>
    have hdigits : ∀ c ∈ cs, c.isDigit := List.dropWhile_eq_nil_iff.mp hd
    rw [isSome_scientific?_whole hdigits,
      List.count_eq_zero_of_not_mem (point_not_mem_digits hdigits)]
    constructor
    · intro hn
      obtain ⟨c, hc⟩ := List.exists_mem_of_ne_nil cs hn
      exact ⟨Nat.zero_le 1, c, hc, hdigits c hc⟩
    · rintro ⟨_, c, hc, _⟩
      exact List.ne_nil_of_mem hc
  | cons d behind =>
    obtain ⟨whole, rfl, hw⟩ : ∃ whole, cs = whole ++ '.' :: behind ∧ ∀ c ∈ whole, c.isDigit := by
      refine ⟨cs.takeWhile Char.isDigit, ?_, fun c hc => of_mem_takeWhile hc⟩
      rw [← eq_point_of_dropWhile h hd, ← hd, List.takeWhile_append_dropWhile]
    have hb : ∀ c ∈ behind, isNumeral c := fun c hc => h c (by simp [hc])
    have hcount : (whole ++ '.' :: behind).count '.' = behind.count '.' + 1 := by
      rw [List.count_append, List.count_cons_self,
        List.count_eq_zero_of_not_mem (point_not_mem_digits hw), Nat.zero_add]
    have hpoint : behind.count '.' + 1 ≤ 1 ↔ '.' ∉ behind := by
      rw [← List.count_eq_zero]
      omega
    rw [isSome_scientific?_pointed hw hb, hcount, hpoint]
    refine and_congr_right fun hp => ?_
    have hdigits := digits_of_point_not_mem hb hp
    constructor
    · rintro (hn | hn)
      · obtain ⟨c, hc⟩ := List.exists_mem_of_ne_nil whole hn
        exact ⟨c, by simp [hc], hw c hc⟩
      · obtain ⟨c, hc⟩ := List.exists_mem_of_ne_nil behind hn
        exact ⟨c, by simp [hc], hdigits c hc⟩
    · rintro ⟨c, hc, hdigit⟩
      rcases List.mem_append.mp hc with hc | hc
      · exact .inl (List.ne_nil_of_mem hc)
      · rcases List.mem_cons.mp hc with rfl | hc
        · exact absurd hdigit not_isDigit_point
        · exact .inr (List.ne_nil_of_mem hc)

theorem splitSign_of_isNumeral (h : ∀ c ∈ cs, isNumeral c) : splitSign cs = (false, cs) := by
  cases cs with
  | nil => rfl
  | cons c cs =>
    have hc := h c List.mem_cons_self
    unfold splitSign
    split
    · simp_all [isNumeral]
    · simp_all [isNumeral]
    · rfl

theorem isSome_read?_of_isNumeral (h : ∀ c ∈ cs, isNumeral c) (hp : cs.count '.' ≤ 1)
    (hd : ∃ c ∈ cs, c.isDigit) : (read? (String.ofList cs)).isSome := by
  obtain ⟨s, hs⟩ := Option.isSome_iff_exists.mp ((isSome_scientific?_iff h).mpr ⟨hp, hd⟩)
  simp [read?, splitSign_of_isNumeral h, hs]

end MathMarkup.Decimal
