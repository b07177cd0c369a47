import Mathlib.Tactic.Common
import MathMarkup.Text

/-!
# Runs and cuts

A longest run at the front of a list ends where its first other member stands. A text can be cut
between any two of its characters, and the bytes in front of a cut say where it is.
-/

namespace MathMarkup

section Run

variable {α : Type} {p : α → Bool} {xs rest : List α} {x : α}

theorem takeWhile_of_stop (hr : ∀ x ∈ rest.head?, ¬ p x) : rest.takeWhile p = [] := by
  cases rest with
  | nil => rfl
  | cons x rest => exact List.takeWhile_cons_of_neg (hr x rfl)

theorem dropWhile_of_stop (hr : ∀ x ∈ rest.head?, ¬ p x) : rest.dropWhile p = rest := by
  cases rest with
  | nil => rfl
  | cons x rest => exact List.dropWhile_cons_of_neg (hr x rfl)

theorem takeWhile_append_of_stop (hx : ∀ x ∈ xs, p x) (hr : ∀ x ∈ rest.head?, ¬ p x) :
    (xs ++ rest).takeWhile p = xs := by
  rw [List.takeWhile_append_of_pos hx, takeWhile_of_stop hr, List.append_nil]

theorem dropWhile_append_of_stop (hx : ∀ x ∈ xs, p x) (hr : ∀ x ∈ rest.head?, ¬ p x) :
    (xs ++ rest).dropWhile p = rest := by
  rw [List.dropWhile_append_of_pos hx, dropWhile_of_stop hr]

theorem not_of_mem_head?_dropWhile (h : x ∈ (xs.dropWhile p).head?) : ¬ p x := by
  have hstop := List.head?_dropWhile_not p xs
  rw [h] at hstop
  simpa using hstop

theorem of_mem_takeWhile (h : x ∈ xs.takeWhile p) : p x :=
  List.all_eq_true.mp List.all_takeWhile x h

end Run

theorem byteLength_pos {cs : List Char} (h : cs ≠ []) : 0 < byteLength cs := by
  obtain ⟨c, cs, rfl⟩ := List.exists_cons_of_ne_nil h
  rw [byteLength]
  have := c.utf8Size_pos
  omega

theorem eq_nil_of_byteLength {cs : List Char} (h : byteLength cs = 0) : cs = [] := by
  by_contra hn
  have := byteLength_pos hn
  omega

theorem utf8ByteSize_ofList (cs : List Char) :
    (String.ofList cs).utf8ByteSize = byteLength cs := by
  induction cs with
  | nil => exact String.utf8ByteSize_empty
  | cons c cs ih =>
    rw [String.ofList_cons, String.utf8ByteSize_append, String.utf8ByteSize_singleton, ih, byteLength]

theorem append_eq_append_of_le {as bs cs ds : List Char} (h : as ++ bs = cs ++ ds)
    (hl : byteLength as ≤ byteLength cs) : ∃ es, cs = as ++ es ∧ bs = es ++ ds := by
  rcases List.append_eq_append_iff.mp h with ⟨es, rfl, rfl⟩ | ⟨es, rfl, rfl⟩
  · exact ⟨es, rfl, rfl⟩
  · rw [byteLength_append] at hl
    have he : es = [] := eq_nil_of_byteLength (by omega)
    exact ⟨[], by simp [he], by simp [he]⟩

end MathMarkup
