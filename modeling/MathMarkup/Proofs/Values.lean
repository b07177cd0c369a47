import Mathlib.Data.List.TakeWhile
import MathMarkup.CommandLine
import MathMarkup.Proofs.Leftmost
import MathMarkup.Proofs.Literals
import MathMarkup.Proofs.ReadBack
import MathMarkup.Proofs.Run

/-!
# Values between commas

A text is cut at its commas, and each field without the blanks around it is read as a number. The
leftmost field that is blank or no number is reported, a blank one with its position. What is written
for numbers has neither commas nor blanks in it, so that a list of numbers comes back from its text
whatever blanks stand around the commas.
-/

namespace MathMarkup

/-! ## Trimming -/

namespace Text

variable {text before after : String}

theorem trim_eq_empty_iff : trim text = "" ↔ ∀ c ∈ text.toList, isBlank c := by
  have hend : ∀ cs : List Char, dropBlankEnd cs = [] ↔ ∀ c ∈ cs, isBlank c := by
    intro cs
    rw [dropBlankEnd, List.reverse_eq_nil_iff, List.dropWhile_eq_nil_iff]
    simp only [List.mem_reverse]
  have hstop : ∀ cs : List Char, (cs.dropWhile isBlank).dropWhile isBlank = cs.dropWhile isBlank :=
    fun _ => dropWhile_of_stop fun _ hc => not_of_mem_head?_dropWhile hc
  rw [trim, ← String.ofList_nil, String.ofList_inj, hend, ← List.dropWhile_eq_nil_iff, hstop,
    List.dropWhile_eq_nil_iff]

theorem trim_padded (hb : ∀ c ∈ before.toList, isBlank c) (ha : ∀ c ∈ after.toList, isBlank c)
    (ht : ∀ c ∈ text.toList, ¬ isBlank c) (hne : text ≠ "") :
    trim (before ++ text ++ after) = text := by
  have hnil : text.toList ≠ [] := by simpa using hne
  have hfront : (before.toList ++ (text.toList ++ after.toList)).dropWhile isBlank =
      text.toList ++ after.toList := by
    refine dropWhile_append_of_stop hb fun c hc => ht c ?_
    obtain ⟨first, more, hcons⟩ := List.exists_cons_of_ne_nil hnil
    rw [hcons] at hc ⊢
    exact List.mem_of_mem_head? hc
  have hback : (after.toList.reverse ++ text.toList.reverse).dropWhile isBlank =
      text.toList.reverse := by
    refine dropWhile_append_of_stop (fun c hc => ha c (List.mem_reverse.mp hc)) fun c hc => ht c ?_
    exact List.mem_reverse.mp (List.mem_of_mem_head? hc)
  rw [trim, String.toList_append, String.toList_append, List.append_assoc, hfront, dropBlankEnd,
    List.reverse_append, hback, List.reverse_reverse, String.ofList_toList]

end Text

/-! ## What is written for a number -/

namespace Decimal

variable {x : Float} {c : Char}

def Solid (c : Char) : Prop := ¬ Text.isBlank c ∧ c ≠ ','

theorem solid_of_mem_word {word : String}
    (hw : word.toList.all fun c => !Text.isBlank c && c ≠ ',') (h : c ∈ word.toList) : Solid c := by
  simpa [Solid] using List.all_eq_true.mp hw c h

theorem solid_of_isNumeral (h : Token.isNumeral c) : Solid c := by
  refine ⟨not_isBlank_of_isNumeral h, ?_⟩
  rintro rfl
  revert h
  decide

theorem solid_of_mem_writeMagnitude (h : c ∈ (writeMagnitude x).toList) : Solid c := by
  unfold writeMagnitude at h
  split_ifs at h
  · exact solid_of_mem_word (by decide) h
  · exact solid_of_mem_word (by decide) h
  · exact solid_of_isNumeral (isNumeral_of_mem_positional h)

theorem solid_of_mem_write (h : c ∈ (write x).toList) : Solid c := by
  unfold write at h
  split_ifs at h
  · exact solid_of_mem_word (by decide) h
  · rw [String.empty_append] at h
    exact solid_of_mem_writeMagnitude h
  · rw [String.toList_append, List.mem_append] at h
    exact h.elim (solid_of_mem_word (by decide)) solid_of_mem_writeMagnitude

theorem write_ne_empty : write x ≠ "" := by
  have hmagnitude : (writeMagnitude x).toList ≠ [] := by
    unfold writeMagnitude
    split_ifs
    · decide
    · decide
    · simpa using positional_ne_empty
  rw [← String.toList_inj.ne]
  unfold write
  split_ifs
  · decide
  · simpa using hmagnitude
  · simp

end Decimal

namespace CommandLine

/-! ## Fields -/

/-- The fields of a text are what stands between its commas. -/
structure Splits (text : String) (fields : List String) : Prop where
  joined : ",".intercalate fields = text
  whole : ∀ field ∈ fields, ',' ∉ field.toList
  ne_nil : fields ≠ []

theorem fields_eq_splitOn (cs : List Char) : fields cs = cs.splitOn ',' := by
  induction cs with
  | nil => rfl
  | cons c cs ih =>
    rw [fields, ih, List.splitOn_eq_splitOnP, List.splitOn_eq_splitOnP,
      List.splitOnP_cons_eq_if_modifyHead]
    by_cases hc : c = ','
    · simp [hc]
    · cases hs : cs.splitOnP (· == ',') with
      | nil => exact absurd hs (List.splitOnP_ne_nil _ _)
      | cons field more => simp [hc]

theorem length_fields (cs : List Char) : (fields cs).length = cs.count ',' + 1 := by
  induction cs with
  | nil => rfl
  | cons c cs ih =>
    rw [fields]
    by_cases hc : c = ','
    · rw [if_pos hc, hc, List.length_cons, ih, List.count_cons_self]
    · rw [if_neg hc, List.count_cons_of_ne hc, ← ih]
      split
      · next hs => simp [hs] at ih
      · next first more hs => simp [hs]

theorem comma_not_mem_of_mem_fields {cs field : List Char} (h : field ∈ fields cs) :
    ',' ∉ field := by
  induction cs generalizing field with
  | nil =>
    cases List.mem_singleton.mp h
    exact List.not_mem_nil
  | cons c cs ih =>
    rw [fields] at h
    by_cases hc : c = ','
    · rw [if_pos hc, List.mem_cons] at h
      rcases h with rfl | h
      · exact List.not_mem_nil
      · exact ih h
    · have hcons : ∀ first, ',' ∉ first → ',' ∉ c :: first := fun first hf hm =>
        (List.mem_cons.mp hm).elim (fun he => hc he.symm) hf
      rw [if_neg hc] at h
      split at h
      · cases List.mem_singleton.mp h
        exact hcons [] List.not_mem_nil
      · next first more hs =>
        rcases List.mem_cons.mp h with rfl | h
        · exact hcons first (ih (hs ▸ List.mem_cons_self))
        · exact ih (hs ▸ List.mem_cons_of_mem first h)

theorem splits_iff {text : String} {fs : List String} :
    Splits text fs ↔ fs.map String.toList = fields text.toList := by
  constructor
  · rintro ⟨rfl, hwhole, hne⟩
    have hsplit : ([','].intercalate (fs.map String.toList)).splitOn ',' = fs.map String.toList :=
      List.splitOn_intercalate ',' (by simpa using hwhole) (by simpa using hne)
    rw [fields_eq_splitOn, String.toList_intercalate]
    exact hsplit.symm
  · intro h
    refine ⟨?_, fun field hf => ?_, ?_⟩
    · rw [← String.toList_inj, String.toList_intercalate, h, fields_eq_splitOn]
      exact List.intercalate_splitOn ','
    · exact comma_not_mem_of_mem_fields (h ▸ List.mem_map_of_mem hf)
    · rintro rfl
      have hlength := length_fields text.toList
      rw [← h] at hlength
      cases hlength

section Splits

variable {text : String} {fs other : List String}

theorem exists_splits (text : String) : ∃ fs, Splits text fs := by
  refine ⟨(fields text.toList).map String.ofList, splits_iff.mpr ?_⟩
  rw [List.map_map]
  exact List.map_id'' (fun _ => String.toList_ofList) _

theorem Splits.unique (h : Splits text fs) (ho : Splits text other) : fs = other := by
  refine List.map_injective_iff.mpr (fun _ _ => String.toList_inj.mp) ?_
  rw [splits_iff.mp h, splits_iff.mp ho]

theorem Splits.length (h : Splits text fs) : fs.length = text.toList.count ',' + 1 := by
  rw [← length_fields, ← splits_iff.mp h, List.length_map]

end Splits

def Holds (field : String) (value : Float) : Prop :=
  Text.trim field ≠ "" ∧ Decimal.read? (Text.trim field) = some value

instance : DecidableRel Holds := fun field value =>
  inferInstanceAs (Decidable (Text.trim field ≠ "" ∧ Decimal.read? (Text.trim field) = some value))

inductive Unfilled : String × Nat → ValueError → Prop
  | blank {field : String} {position : Nat} : Text.trim field = "" →
    Unfilled (field, position) (.blank position)
  | invalid {field : String} {position : Nat} : Text.trim field ≠ "" →
    Decimal.read? (Text.trim field) = none →
    Unfilled (field, position) (.invalid (Text.trim field))

section Fields

variable {field text : String} {fs : List String} {value : Float} {values : List Float}
  {position : Nat}

theorem readField_eq_ok :
    readField position (Text.trim field) = .ok value ↔ Holds field value := by
  unfold readField Holds
  split_ifs with hblank
  · simp [hblank]
  · cases hv : Decimal.read? (Text.trim field) <;> simp [hblank]

theorem readField_surveys (position : Nat) (field : String) :
    Surveys Unfilled [(field, position)] (readField position (Text.trim field)) := by
  unfold readField
  split_ifs with hblank
  · refine .error fun reason => ⟨?_, ?_⟩
    · rintro (_ | ⟨hne, _⟩)
      · rfl
      · exact absurd hblank hne
    · rintro rfl
      exact .blank hblank
  · cases hv : Decimal.read? (Text.trim field) with
    | some value =>
      refine (Surveys.ok _).cons ?_
      rintro _ (hb | ⟨_, hnone⟩)
      · exact hblank hb
      · rw [hv] at hnone
        cases hnone
    | none =>
      refine .error fun reason => ⟨?_, ?_⟩
      · rintro (hb | _)
        · exact absurd hb hblank
        · rfl
      · rintro rfl
        exact .invalid hblank hv

theorem readFields_surveys (position : Nat) (fs : List String) :
    Surveys Unfilled (fs.zipIdx position) (readFields position (fs.map String.toList)) := by
  induction fs generalizing position with
  | nil => exact .ok _
  | cons field fs ih =>
    rw [List.map_cons, readFields, String.ofList_toList, List.zipIdx_cons]
    exact (readField_surveys position field).bind fun _ _ => (ih (position + 1)).bind_pure

theorem readFields_eq_ok :
    readFields position (fs.map String.toList) = .ok values ↔ List.Forall₂ Holds fs values := by
  induction fs generalizing position values with
  | nil => simp [readFields, eq_comm]
  | cons field fs ih =>
    rw [List.map_cons, readFields, String.ofList_toList, List.forall₂_cons_left_iff]
    constructor
    · intro h
      obtain ⟨value, hvalue, h⟩ := Grammar.bind_eq_ok.mp h
      obtain ⟨more, hmore, ⟨⟩⟩ := Grammar.bind_eq_ok.mp h
      exact ⟨value, more, readField_eq_ok.mp hvalue, ih.mp hmore, rfl⟩
    · rintro ⟨value, more, hvalue, hmore, rfl⟩
      exact Grammar.bind_eq_ok.mpr ⟨value, readField_eq_ok.mpr hvalue,
        Grammar.bind_eq_ok.mpr ⟨more, ih.mpr hmore, rfl⟩⟩

theorem parseValues_of_blank (h : ∀ c ∈ text.toList, Text.isBlank c) :
    parseValues text = .ok [] := if_pos (Text.trim_eq_empty_iff.mpr h)

theorem parseValues_of_splits (h : Splits text fs) (hc : ∃ c ∈ text.toList, ¬ Text.isBlank c) :
    parseValues text = readFields 1 (fs.map String.toList) := by
  have hne : Text.trim text ≠ "" := by
    obtain ⟨c, hm, hsolid⟩ := hc
    exact fun hempty => hsolid (Text.trim_eq_empty_iff.mp hempty c hm)
  rw [splits_iff.mp h, parseValues, if_neg hne]

end Fields

/-! ## Lists of numbers -/

structure Padded where
  before : String
  value : Float
  after : String
  blank : ∀ c ∈ before.toList ++ after.toList, Text.isBlank c

namespace Padded

def text (p : Padded) : String := p.before ++ Decimal.write p.value ++ p.after

variable (p : Padded)

theorem trim_text : Text.trim p.text = Decimal.write p.value :=
  Text.trim_padded (fun c hc => p.blank c (List.mem_append_left _ hc))
    (fun c hc => p.blank c (List.mem_append_right _ hc))
    (fun _ hc => (Decimal.solid_of_mem_write hc).1) Decimal.write_ne_empty

theorem holds : Holds p.text p.value := by
  rw [Holds, p.trim_text]
  exact ⟨Decimal.write_ne_empty, Decimal.read?_write p.value⟩

theorem comma_not_mem : ',' ∉ p.text.toList := by
  have hblank : ¬ Text.isBlank ',' := by decide
  intro h
  rw [text, String.toList_append, String.toList_append, List.append_assoc, List.mem_append,
    List.mem_append] at h
  rcases h with h | h | h
  · exact hblank (p.blank _ (List.mem_append_left _ h))
  · exact (Decimal.solid_of_mem_write h).2 rfl
  · exact hblank (p.blank _ (List.mem_append_right _ h))

theorem exists_solid : ∃ c ∈ p.text.toList, ¬ Text.isBlank c := by
  by_contra h
  have hblank : ∀ c ∈ p.text.toList, Text.isBlank c := by simpa using h
  have htrim := p.trim_text
  rw [Text.trim_eq_empty_iff.mpr hblank] at htrim
  exact Decimal.write_ne_empty htrim.symm

theorem splits {ps : List Padded} (hne : ps ≠ []) :
    Splits (",".intercalate (ps.map text)) (ps.map text) where
  joined := rfl
  whole := by simpa using fun p _ => p.comma_not_mem
  ne_nil := by simpa using hne

theorem exists_solid_joined {ps : List Padded} (hne : ps ≠ []) :
    ∃ c ∈ (",".intercalate (ps.map text)).toList, ¬ Text.isBlank c := by
  obtain ⟨p, rest, rfl⟩ := List.exists_cons_of_ne_nil hne
  obtain ⟨c, hm, hc⟩ := p.exists_solid
  refine ⟨c, ?_, hc⟩
  cases rest with
  | nil => simpa using hm
  | cons q rest => simp [String.intercalate_cons_of_ne_nil, hm]

theorem parseValues_joined (ps : List Padded) :
    parseValues (",".intercalate (ps.map text)) = .ok (ps.map value) := by
  by_cases hne : ps = []
  · rw [hne]
    exact parseValues_of_blank (List.forall_mem_nil _)
  · rw [parseValues_of_splits (splits hne) (exists_solid_joined hne), readFields_eq_ok,
      List.forall₂_map_left_iff, List.forall₂_map_right_iff, List.forall₂_same]
    exact fun p _ => p.holds

end Padded

/-- A blank text holds no values. Any other text is cut at its commas in one way, and holds the values
of its fields if each of them is a number between blanks; else the leftmost field that is none is
reported. So numbers come back from their texts between commas, whatever blanks stand around them. -/
theorem parseValues_reads_fields :
    (∀ text, (∀ c ∈ text.toList, Text.isBlank c) → parseValues text = .ok []) ∧
    (∀ text, ∃ fs, Splits text fs ∧ (∀ other, Splits text other → other = fs) ∧
      fs.length = text.toList.count ',' + 1 ∧
      ((∃ c ∈ text.toList, ¬ Text.isBlank c) →
        (∀ values, parseValues text = .ok values ↔ List.Forall₂ Holds fs values) ∧
        ∀ reason, parseValues text = .error reason ↔ Leftmost Unfilled (fs.zipIdx 1) reason)) ∧
    (∀ position, (ValueError.blank position).message =
      "empty value at position " ++ toString position) ∧
    (∀ field, (ValueError.invalid field).message = "invalid value `" ++ field ++ "`") ∧
    ∀ ps : List Padded,
      parseValues (",".intercalate (ps.map Padded.text)) = .ok (ps.map Padded.value) := by
  refine ⟨fun text => parseValues_of_blank, fun text => ?_, fun _ => rfl, fun _ => rfl,
    Padded.parseValues_joined⟩
  obtain ⟨fs, hfs⟩ := exists_splits text
  refine ⟨fs, hfs, fun other hother => hother.unique hfs, hfs.length, fun hc => ?_⟩
  rw [parseValues_of_splits hfs hc]
  exact ⟨fun values => readFields_eq_ok, readFields_surveys 1 fs⟩

theorem parseValues_reads_fields_spaced :
    parseValues " \t" = .ok [] ∧ parseValues " 1,\t-2.5 " = .ok [1, -2.5] ∧
      parseValues "1, ,x" = .error (.blank 2) := by
  obtain ⟨hblank, hfields, -⟩ := parseValues_reads_fields
  obtain ⟨pair, -, hpair, -, hread⟩ := hfields " 1,\t-2.5 "
  obtain ⟨triple, -, htriple, -, herror⟩ := hfields "1, ,x"
  obtain rfl := hpair [" 1", "\t-2.5 "] ⟨by decide +kernel, by decide, by decide⟩
  obtain rfl := htriple ["1", " ", "x"] ⟨by decide +kernel, by decide, by decide⟩
  refine ⟨hblank " \t" (List.all_eq_true.mp (by decide)),
    ((hread ⟨'1', by decide, by decide⟩).1 _).mpr ?_,
    ((herror ⟨'1', by decide, by decide⟩).2 _).mpr ?_⟩
  · exact .cons (by decide +kernel) (.cons (by decide +kernel) .nil)
  · refine ⟨[("1", 1)], (" ", 2), [("x", 3)], rfl, .blank (by decide +kernel), ?_⟩
    have hone : Holds "1" 1 := by decide +kernel
    rintro p hp reason hfault
    cases List.mem_singleton.mp hp
    cases hfault with
    | blank hempty => exact hone.1 hempty
    | invalid _ hnone => exact absurd (hone.2.symm.trans hnone) (by simp)

end CommandLine
end MathMarkup
