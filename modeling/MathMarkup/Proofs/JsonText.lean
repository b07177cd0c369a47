import Mathlib.Tactic.Common
import MathMarkup.Json.Read
import MathMarkup.Proofs.Run

/-!
# Written values read back

What is written in front of a text is read from its front again, in every layout: a string character
by character, then items and members one after the other, then values. A value whose brackets stand
too deep is refused as malformed instead, at the first bracket too many.
-/

namespace MathMarkup.Json

def plain {α : Type} {cs : List Char} (r : Except Fault (Reading α cs)) :
    Except Fault (α × List Char) :=
  r.map fun r => (r.value, r.rest)

section Plain

variable {α β : Type} {cs ds : List Char}

theorem plain_ok (r : Reading α cs) : plain (.ok r) = .ok (r.value, r.rest) := rfl

theorem plain_error (fault : Fault) : plain (.error fault : Except Fault (Reading α cs)) =
    .error fault := rfl

theorem plain_eq_ok {r : Except Fault (Reading α cs)} {a : α} {rest : List Char}
    (h : plain r = .ok (a, rest)) : ∃ x, r = .ok x ∧ x.value = a ∧ x.rest = rest := by
  cases r with
  | error fault => cases h
  | ok x =>
    cases h
    exact ⟨x, rfl, rfl, rfl⟩

theorem plain_widen (r : Except Fault (Reading α cs)) (h : cs.length ≤ ds.length) :
    plain (r.map (·.widen h)) = plain r := by
  cases r <;> rfl

theorem plain_map (f : α → β) (r : Except Fault (Reading α cs)) (h : cs.length ≤ ds.length) :
    plain (r.map fun r => (r.map f).widen h) = (plain r).map fun (a, rest) => (f a, rest) := by
  cases r <;> rfl

theorem plain_bind {r : Except Fault (Reading α cs)} {f : Reading α cs → Except Fault (Reading β ds)}
    {g : α × List Char → Except Fault (β × List Char)}
    (h : ∀ x, plain (f x) = g (x.value, x.rest)) : plain (r >>= f) = plain r >>= g := by
  cases r with
  | error fault => rfl
  | ok x => exact h x

theorem plain_bind_pure (f : α → β) (r : Except Fault (Reading α cs)) (h : cs.length ≤ ds.length) :
    plain (r >>= fun r => pure ((r.map f).widen h)) =
      (plain r).map fun (a, rest) => (f a, rest) := by
  cases r <;> rfl

end Plain

/-! ## Strings -/

theorem hexValue?_hexDigit : ∀ n < 16, hexValue? (hexDigit n) = some n := by
  decide

theorem plain_stringBody_quote (cs : List Char) : plain (stringBody ('"' :: cs)) = .ok ([], cs) := by
  rw [stringBody]
  rfl

theorem plain_stringBody_escape {c x : Char} {cs rest : List Char}
    (h : plain (escape (c :: cs)) = .ok (x, rest)) :
    plain (stringBody ('\\' :: c :: cs)) =
      (plain (stringBody rest)).map fun (body, rest) => (x :: body, rest) := by
  have hs : plain (stringBody ('\\' :: c :: cs)) = plain (escape (c :: cs)) >>= fun (x, rest) =>
      (plain (stringBody rest)).map fun (body, rest) => (x :: body, rest) := by
    rw [stringBody]
    exact plain_bind fun x => plain_bind_pure _ _ _
  rw [hs, h]
  rfl

theorem plain_stringBody_cons {c : Char} {cs : List Char} (hq : c ≠ '"') (hb : c ≠ '\\')
    (hc : ' ' ≤ c) :
    plain (stringBody (c :: cs)) =
      (plain (stringBody cs)).map fun (body, rest) => (c :: body, rest) := by
  rw [stringBody, if_neg hq, if_neg hb, if_neg (by simpa using hc)]
  exact plain_bind_pure _ _ _

theorem plain_escape_simple {c x : Char} (h : simpleEscape? c = some x) (cs : List Char) :
    plain (escape (c :: cs)) = .ok (x, cs) := by
  have hu : c ≠ 'u' := by
    rintro rfl
    cases h
  simp only [escape, if_neg hu, h, plain_ok]

theorem plain_escape_unicode {n : Nat} (hn : n < 256) (cs : List Char) :
    plain (escape ('u' :: '0' :: '0' :: hexDigit (n / 16) :: hexDigit (n % 16) :: cs)) =
      .ok (Char.ofNat n, cs) := by
  have hzero : hexValue? '0' = some 0 := rfl
  have hhigh := hexValue?_hexDigit (n / 16) (by omega)
  have hlow := hexValue?_hexDigit (n % 16) (by omega)
  have hunit : codeUnit ('0' :: '0' :: hexDigit (n / 16) :: hexDigit (n % 16) :: cs) =
      .ok ⟨n, cs, by simp only [List.length_cons]; omega⟩ := by
    simp only [codeUnit, hzero, hhigh, hlow, Except.ok.injEq, Reading.mk.injEq, and_true]
    omega
  have hl : isLowSurrogate n = false := by simp [isLowSurrogate]; omega
  have hh : isHighSurrogate n = false := by simp [isHighSurrogate]; omega
  rw [escape, if_pos rfl, plain_widen, unicodeEscape, hunit]
  simp only [bind, Except.bind, hl, hh]
  rfl

theorem escaped_cases (c : Char) (rest : List Char) :
    (c ≠ '"' ∧ c ≠ '\\' ∧ ' ' ≤ c ∧ escaped c rest = c :: rest) ∨
      (∃ d, simpleEscape? d = some c ∧ escaped c rest = '\\' :: d :: rest) ∨
      (c.toNat < 256 ∧ escaped c rest =
        '\\' :: 'u' :: '0' :: '0' :: hexDigit (c.toNat / 16) :: hexDigit (c.toNat % 16) :: rest) := by
  unfold escaped
  split_ifs with hq hb hc
  · exact .inr (.inl ⟨'"', by rw [hq]; rfl, rfl⟩)
  · exact .inr (.inl ⟨'\\', by rw [hb]; rfl, rfl⟩)
  · exact .inl ⟨hq, hb, hc, rfl⟩
  · split
    · exact .inr (.inl ⟨'b', rfl, rfl⟩)
    · exact .inr (.inl ⟨'t', rfl, rfl⟩)
    · exact .inr (.inl ⟨'n', rfl, rfl⟩)
    · exact .inr (.inl ⟨'f', rfl, rfl⟩)
    · exact .inr (.inl ⟨'r', rfl, rfl⟩)
    · refine .inr (.inr ⟨?_, rfl⟩)
      have hlt : c.toNat < ' '.toNat := Nat.lt_of_not_le hc
      exact Nat.lt_trans hlt (by decide)

theorem plain_stringBody_escaped (c : Char) (rest : List Char) :
    plain (stringBody (escaped c rest)) =
      (plain (stringBody rest)).map fun (body, rest) => (c :: body, rest) := by
  rcases escaped_cases c rest with ⟨hq, hb, hc, he⟩ | ⟨d, hd, he⟩ | ⟨hn, he⟩
  · rw [he]
    exact plain_stringBody_cons hq hb hc
  · rw [he]
    exact plain_stringBody_escape (plain_escape_simple hd rest)
  · have hu := plain_stringBody_escape (plain_escape_unicode hn rest)
    rw [Char.ofNat_toNat] at hu
    rwa [he]

theorem plain_text_escaped (s : String) (rest : List Char) :
    plain (text (s.toList.foldr escaped ('"' :: rest))) = .ok (s, rest) := by
  have hbody : ∀ cs : List Char,
      plain (stringBody (cs.foldr escaped ('"' :: rest))) = .ok (cs, rest) := by
    intro cs
    induction cs with
    | nil => exact plain_stringBody_quote rest
    | cons c cs ih =>
      rw [List.foldr_cons, plain_stringBody_escaped, ih]
      rfl
  refine (plain_bind_pure String.ofList _ (Nat.le_refl _)).trans ?_
  rw [hbody]
  simp [Except.map]

theorem plain_scalar_quoted (s : String) (rest : List Char) :
    plain (scalar (quoted s rest)) = .ok (.string s, rest) := by
  refine (plain_map Json.string (text _) (Nat.le_succ _)).trans ?_
  rw [plain_text_escaped]
  rfl

/-! ## Blanks -/

theorem skip_blank {c : Char} (hc : isBlank c) (cs : List Char) : skip (c :: cs) = skip cs :=
  List.dropWhile_cons_of_pos hc

theorem skip_cons {c : Char} (hc : ¬ isBlank c) (cs : List Char) : skip (c :: cs) = c :: cs :=
  List.dropWhile_cons_of_neg hc

theorem skip_skip (cs : List Char) : skip (skip cs) = skip cs := by
  cases h : skip cs with
  | nil => rfl
  | cons c rest =>
    have hc : c ∈ (cs.dropWhile isBlank).head? := by
      rw [← skip, h]
      rfl
    exact skip_cons (not_of_mem_head?_dropWhile hc) rest

theorem skip_quoted (s : String) (cs : List Char) : skip (quoted s cs) = quoted s cs :=
  skip_cons (by decide) _

theorem skip_break (layout : Layout) (level : Nat) (cs : List Char) :
    skip (layout.break level cs) = skip cs := by
  cases layout with
  | none => rfl
  | some width =>
    rw [Layout.break, skip_blank (by decide), skip, List.dropWhile_append_of_pos]
    · rfl
    · intro c hc
      rw [List.eq_of_mem_replicate hc]
      decide

theorem skip_colon (layout : Layout) (cs : List Char) :
    ∃ ds, skip (layout.colon cs) = ':' :: ds ∧ skip ds = skip cs := by
  cases layout with
  | none => exact ⟨cs, skip_cons (by decide) cs, rfl⟩
  | some width => exact ⟨' ' :: cs, skip_cons (by decide) _, skip_blank (by decide) cs⟩

def PassesBlanks {α : Type} (read : Reader α) : Prop :=
  ∀ cs ds, skip cs = skip ds → plain (read cs) = plain (read ds)

section Value

variable {depth : Nat} {cs rest : List Char}

theorem plain_value_array (h : skip cs = '[' :: rest) :
    plain (value (depth + 1) cs) = (plain (items (value depth) (value depth) rest)).map
      fun (vs, rest) => (.array vs, rest) := by
  rw [value]
  split
  · next h' =>
    rw [h] at h'
    cases h'
    exact plain_map _ _ _
  · next h' =>
    rw [h] at h'
    cases h'
  · next hn _ =>
    exact absurd h (hn _)

theorem plain_value_object (h : skip cs = '\x7b' :: rest) :
    plain (value (depth + 1) cs) = (plain (members (.uniform (value depth)) rest)).map
      fun (ms, rest) => (.object ms, rest) := by
  rw [value]
  split
  · next h' =>
    rw [h] at h'
    cases h'
  · next h' =>
    rw [h] at h'
    cases h'
    exact plain_map _ _ _
  · next hn =>
    exact absurd h (hn _)

theorem plain_value_scalar (h : ∀ c ∈ (skip cs).head?, c ≠ '[' ∧ c ≠ '\x7b') :
    plain (value depth cs) = plain (scalar (skip cs)) := by
  cases depth with
  | zero => rw [value, plain_widen]
  | succ depth =>
    rw [value]
    split
    · next h' => simp [h'] at h
    · next h' => simp [h'] at h
    · exact plain_widen _ _

theorem plain_value_bracket {c : Char} (h : skip cs = c :: rest) (hc : c = '[' ∨ c = '\x7b') :
    plain (value 0 cs) = .error .malformed := by
  rw [value, plain_widen, h]
  rcases hc with rfl | rfl <;> rfl

theorem passesBlanks_value : PassesBlanks (value depth) := by
  intro cs ds h
  by_cases hc : ∀ c ∈ (skip ds).head?, c ≠ '[' ∧ c ≠ '\x7b'
  · rw [plain_value_scalar hc, plain_value_scalar (h ▸ hc), h]
  · obtain ⟨c, rest, hs, hc⟩ : ∃ c rest, skip ds = c :: rest ∧ (c = '[' ∨ c = '\x7b') := by
      cases hs : skip ds with
      | nil => simp [hs] at hc
      | cons c rest =>
        refine ⟨c, rest, rfl, or_iff_not_imp_left.mpr fun hn => ?_⟩
        simpa [hs, hn] using hc
    cases depth with
    | zero => rw [plain_value_bracket hs hc, plain_value_bracket (h.trans hs) hc]
    | succ depth =>
      rcases hc with rfl | rfl
      · rw [plain_value_array hs, plain_value_array (h.trans hs)]
      · rw [plain_value_object hs, plain_value_object (h.trans hs)]

end Value

/-! ## Parts -/

mutual

/-- The number of brackets of a value that stand open at once. -/
def nest : Json → Nat
  | null | bool _ | number _ | string _ => 0
  | array items => 1 + nestItems items
  | object members => 1 + nestMembers members

def nestItems : List Json → Nat
  | [] => 0
  | item :: items => max item.nest (nestItems items)

def nestMembers : List (String × Json) → Nat
  | [] => 0
  | (_, value) :: members => max value.nest (nestMembers members)

end

section Parts

variable {rule : MemberRule} {seen : List String} {first item : Reader Json} {depth level : Nat}
  {layout : Layout} {cs rest : List Char}

theorem plain_moreItems_close (h : skip cs = ']' :: rest) :
    plain (moreItems item cs) = .ok ([], rest) := by
  rw [moreItems]
  split <;> simp_all [plain_ok]

theorem plain_moreItems_comma (h : skip cs = ',' :: rest) :
    plain (moreItems item cs) = plain (item rest) >>= fun (v, rest) =>
      (plain (moreItems item rest)).map fun (vs, rest) => (v :: vs, rest) := by
  rw [moreItems]
  split
  · simp_all
  · simp_all
  · next h' =>
    rw [h] at h'
    cases h'
    exact plain_bind fun v => plain_bind_pure _ _ _
  · simp_all

theorem plain_items_close (h : skip cs = ']' :: rest) :
    plain (items first item cs) = .ok ([], rest) := by
  rw [items]
  split <;> simp_all [plain_ok]

theorem plain_items_first (hfirst : PassesBlanks first) (h : (skip cs).head? ≠ some ']') :
    plain (items first item cs) = plain (first cs) >>= fun (v, rest) =>
      (plain (moreItems item rest)).map fun (vs, rest) => (v :: vs, rest) := by
  rw [items]
  split
  · simp_all
  · rw [hfirst cs (skip cs) (skip_skip cs).symm]
    exact plain_bind fun v => plain_bind_pure _ _ _

theorem plain_member {key : String} (hadm : rule.admits seen key = .ok ())
    (hvalue : PassesBlanks (rule.value key)) :
    plain (member rule seen (quoted key (layout.colon cs))) =
      (plain (rule.value key cs)).map fun (v, rest) => ((key, v), rest) := by
  obtain ⟨ds, hds, hskip⟩ := skip_colon layout cs
  obtain ⟨r, hr, hkey, hrest⟩ := plain_eq_ok (plain_text_escaped key (layout.colon cs))
  rw [← hrest] at hds
  rw [quoted, member, hr]
  simp only [bind, Except.bind, hkey, hadm]
  split
  · simp_all
  · next h' =>
    rw [hds] at h'
    cases h'
    rw [← hvalue _ _ hskip]
    exact plain_bind_pure _ _ _
  · simp_all

theorem plain_moreMembers_close (h : skip cs = '\x7d' :: rest) :
    plain (moreMembers rule seen cs) = .ok ([], rest) := by
  rw [moreMembers]
  split <;> simp_all [plain_ok]

theorem plain_moreMembers_comma (h : skip cs = ',' :: rest) :
    plain (moreMembers rule seen cs) = plain (member rule seen (skip rest)) >>= fun (m, rest) =>
      (plain (moreMembers rule (m.1 :: seen) rest)).map fun (ms, rest) => (m :: ms, rest) := by
  rw [moreMembers]
  split
  · simp_all
  · simp_all
  · next h' =>
    rw [h] at h'
    cases h'
    exact plain_bind fun v => plain_bind_pure _ _ _
  · simp_all

theorem plain_members_close (h : skip cs = '\x7d' :: rest) :
    plain (members rule cs) = .ok ([], rest) := by
  rw [members]
  split <;> simp_all [plain_ok]

theorem plain_members_first (h : (skip cs).head? ≠ some '\x7d') :
    plain (members rule cs) = plain (member rule [] (skip cs)) >>= fun (m, rest) =>
      (plain (moreMembers rule [m.1] rest)).map fun (ms, rest) => (m :: ms, rest) := by
  rw [members]
  split
  · simp_all
  · exact plain_bind fun v => plain_bind_pure _ _ _

end Parts

/-! ## Values -/

/-- A result that asks for `nest` open brackets where at most `depth` may stand open. -/
def within {α : Type} (depth nest : Nat) (a : α) : Except Fault α :=
  if nest ≤ depth then .ok a else .error .malformed

section Within

variable {α β : Type} {depth m n : Nat} {a : α} {b : β}

theorem within_zero : within depth 0 a = .ok a := if_pos (Nat.zero_le _)

theorem within_succ : within (depth + 1) (1 + n) a = within depth n a := by
  unfold within
  congr 1
  exact propext ⟨fun h => by omega, fun h => by omega⟩

theorem within_error (h : depth < n) : within depth n a = .error .malformed :=
  if_neg (Nat.not_le.mpr h)

theorem within_map (f : α → β) : (within depth n a).map f = within depth n (f a) := by
  unfold within
  split <;> rfl

theorem within_bind {k : α → Except Fault β} (h : k a = within depth n b) :
    within depth m a >>= k = within depth (max m n) b := by
  by_cases hm : m ≤ depth
  · have hk : within depth m a >>= k = k a := by rw [within, if_pos hm]; rfl
    rw [hk, h]
    unfold within
    congr 1
    exact propext ⟨fun hn => Nat.max_le.mpr ⟨hm, hn⟩, fun hn => (Nat.max_le.mp hn).2⟩
  · have hlt := Nat.not_le.mp hm
    rw [within_error hlt, within_error (Nat.lt_of_lt_of_le hlt (Nat.le_max_left m n))]
    rfl

end Within

/-- Numbers stay as they are written, so that any text may stand for one. Values without them are
read back from what is written. -/
inductive NumberFree : Json → Prop
  | null : NumberFree .null
  | bool (value : Bool) : NumberFree (.bool value)
  | string (value : String) : NumberFree (.string value)
  | array {items : List Json} (h : ∀ v ∈ items, NumberFree v) : NumberFree (.array items)
  | object {members : List (String × Json)} (h : ∀ m ∈ members, NumberFree m.2) :
    NumberFree (.object members)

def ReadsBack (v : Json) : Prop :=
  ∀ depth layout level rest,
    plain (value depth (write layout level v rest)) = within depth v.nest (v, rest)

section Write

variable {rule : MemberRule} {seen : List String} {items : List Json}
  {members : List (String × Json)} {layout : Layout} {depth level : Nat} {rest : List Char}

theorem plain_moreItems_write (h : ∀ v ∈ items, ReadsBack v) :
    plain (moreItems (value depth) (writeItems layout level items rest)) =
      within depth (nestItems items) (items, rest) := by
  induction items with
  | nil =>
    rw [writeItems, nestItems, within_zero]
    exact plain_moreItems_close (by rw [skip_break, skip_cons (by decide)])
  | cons v items ih =>
    rw [writeItems, plain_moreItems_comma (skip_cons (by decide) _),
      passesBlanks_value _ _ (skip_break _ _ _), h v List.mem_cons_self, nestItems]
    apply within_bind
    dsimp only
    rw [ih fun v hv => h v (List.mem_cons_of_mem _ hv), within_map]

theorem plain_moreMembers_write
    (hrule : ∀ m ∈ members, rule.value m.1 = value depth ∧ ∀ seen, rule.admits seen m.1 = .ok ())
    (h : ∀ m ∈ members, ReadsBack m.2) :
    plain (moreMembers rule seen (writeMembers layout level members rest)) =
      within depth (nestMembers members) (members, rest) := by
  induction members generalizing seen with
  | nil =>
    rw [writeMembers, nestMembers, within_zero]
    exact plain_moreMembers_close (by rw [skip_break, skip_cons (by decide)])
  | cons m members ih =>
    obtain ⟨hvalue, hadm⟩ := hrule m List.mem_cons_self
    rw [writeMembers, plain_moreMembers_comma (skip_cons (by decide) _), skip_break,
      skip_quoted, plain_member (hadm seen) (hvalue ▸ passesBlanks_value), hvalue, h m List.mem_cons_self,
      within_map, nestMembers]
    apply within_bind
    dsimp only
    rw [ih (fun m hm => hrule m (List.mem_cons_of_mem _ hm))
      (fun m hm => h m (List.mem_cons_of_mem _ hm)), within_map]

theorem write_eq_cons {v : Json} (layout : Layout) (level : Nat) (rest : List Char)
    (h : NumberFree v) :
    ∃ c cs, write layout level v rest = c :: cs ∧ ¬ isBlank c ∧ c ≠ ']' := by
  cases h with
  | null => exact ⟨'n', _, by rw [write]; rfl, by decide, by decide⟩
  | bool b =>
    cases b with
    | false => exact ⟨'f', _, by rw [write]; rfl, by decide, by decide⟩
    | true => exact ⟨'t', _, by rw [write]; rfl, by decide, by decide⟩
  | string s => exact ⟨'"', _, by rw [write]; rfl, by decide, by decide⟩
  | @array items _ =>
    cases items with
    | nil => exact ⟨'[', _, by rw [write], by decide, by decide⟩
    | cons v items => exact ⟨'[', _, by rw [write], by decide, by decide⟩
  | @object members _ =>
    cases members with
    | nil => exact ⟨'\x7b', _, by rw [write], by decide, by decide⟩
    | cons m members => exact ⟨'\x7b', _, by rw [write], by decide, by decide⟩

theorem plain_word (w : List Char) (v : Json) (hw : w ≠ []) :
    plain (word w v hw (w ++ rest)) = .ok (v, rest) := by
  rw [word, dif_pos (List.prefix_append w rest), plain_ok]
  exact congrArg (fun rest => Except.ok (v, rest)) List.drop_left

theorem readsBack_array (hitems : ∀ v ∈ items, NumberFree v) (h : ∀ v ∈ items, ReadsBack v) :
    ReadsBack (.array items) := by
  intro depth layout level rest
  have hwrite : ∃ cs, write layout level (.array items) rest = '[' :: cs ∧ ∀ depth,
      plain (Json.items (value depth) (value depth) cs) =
        within depth (nestItems items) (items, rest) := by
    cases items with
    | nil =>
      refine ⟨_, by rw [write], fun depth => ?_⟩
      rw [plain_items_close (skip_cons (by decide) _), nestItems, within_zero]
    | cons v items =>
      refine ⟨_, by rw [write], fun depth => ?_⟩
      obtain ⟨c, cs, hcs, hb, hc⟩ := write_eq_cons layout (level + 1)
        (writeItems layout level items rest) (hitems v List.mem_cons_self)
      rw [plain_items_first passesBlanks_value (by rw [skip_break, hcs, skip_cons hb]; simpa using hc),
        passesBlanks_value _ _ (skip_break _ _ _), h v List.mem_cons_self, nestItems]
      apply within_bind
      dsimp only
      rw [plain_moreItems_write fun v hv => h v (List.mem_cons_of_mem _ hv), within_map]
  obtain ⟨cs, hcs, hread⟩ := hwrite
  rw [hcs, nest]
  cases depth with
  | zero =>
    rw [within_error (by omega)]
    exact plain_value_bracket (skip_cons (by decide) _) (.inl rfl)
  | succ depth =>
    rw [plain_value_array (skip_cons (by decide) _), hread, within_map, within_succ]

theorem readsBack_object (h : ∀ m ∈ members, ReadsBack m.2) : ReadsBack (.object members) := by
  intro depth layout level rest
  have hwrite : ∃ cs, write layout level (.object members) rest = '\x7b' :: cs ∧ ∀ depth,
      plain (Json.members (.uniform (value depth)) cs) =
        within depth (nestMembers members) (members, rest) := by
    cases members with
    | nil =>
      refine ⟨_, by rw [write], fun depth => ?_⟩
      rw [plain_members_close (skip_cons (by decide) _), nestMembers, within_zero]
    | cons m members =>
      refine ⟨_, by rw [write], fun depth => ?_⟩
      rw [plain_members_first, skip_break, skip_quoted, plain_member rfl passesBlanks_value]
      · simp only [MemberRule.uniform]
        rw [h m List.mem_cons_self, within_map, nestMembers]
        apply within_bind
        dsimp only
        rw [plain_moreMembers_write (fun _ _ => ⟨rfl, fun _ => rfl⟩)
          fun m hm => h m (List.mem_cons_of_mem _ hm), within_map]
      · rw [skip_break, skip_quoted, quoted]
        simp
  obtain ⟨cs, hcs, hread⟩ := hwrite
  rw [hcs, nest]
  cases depth with
  | zero =>
    rw [within_error (by omega)]
    exact plain_value_bracket (skip_cons (by decide) _) (.inr rfl)
  | succ depth =>
    rw [plain_value_object (skip_cons (by decide) _), hread, within_map, within_succ]

/-- What is written for a value without numbers is read as this value, or refused if too many
brackets stand open in it. -/
theorem NumberFree.readsBack {v : Json} (h : NumberFree v) : ReadsBack v := by
  induction h with
  | null =>
    intro depth layout level rest
    have hskip : skip ("null".toList ++ rest) = "null".toList ++ rest := skip_cons (by decide) _
    rw [nest, within_zero, write, plain_value_scalar (by rw [hskip]; simp), hskip]
    exact plain_word "null".toList .null (by decide)
  | bool b =>
    intro depth layout level rest
    cases b with
    | false =>
      have hskip : skip ("false".toList ++ rest) = "false".toList ++ rest := skip_cons (by decide) _
      rw [nest, within_zero, write, if_neg (by decide), plain_value_scalar (by rw [hskip]; simp),
        hskip]
      exact plain_word "false".toList (.bool false) (by decide)
    | true =>
      have hskip : skip ("true".toList ++ rest) = "true".toList ++ rest := skip_cons (by decide) _
      rw [nest, within_zero, write, if_pos rfl, plain_value_scalar (by rw [hskip]; simp), hskip]
      exact plain_word "true".toList (.bool true) (by decide)
  | string s =>
    intro depth layout level rest
    rw [nest, within_zero, write, plain_value_scalar (by rw [skip_quoted, quoted]; simp),
      skip_quoted, plain_scalar_quoted]
  | array h ih => exact readsBack_array h ih
  | object _ ih => exact readsBack_object ih

end Write

/-! ## What follows -/

section Append

variable (layout : Layout) (xs ys : List Char)

theorem break_append (level : Nat) :
    layout.break level (xs ++ ys) = layout.break level xs ++ ys := by
  cases layout with
  | none => rfl
  | some width => simp [Layout.break]

theorem colon_append : layout.colon (xs ++ ys) = layout.colon xs ++ ys := by
  cases layout <;> rfl

theorem escaped_append (c : Char) : escaped c (xs ++ ys) = escaped c xs ++ ys := by
  unfold escaped
  split_ifs
  · rfl
  · rfl
  · rfl
  · split <;> rfl

theorem quoted_append (s : String) : quoted s (xs ++ ys) = quoted s xs ++ ys := by
  have hbody : ∀ cs : List Char,
      cs.foldr escaped ('"' :: (xs ++ ys)) = cs.foldr escaped ('"' :: xs) ++ ys := by
    intro cs
    induction cs with
    | nil => rfl
    | cons c cs ih => rw [List.foldr_cons, List.foldr_cons, ih, escaped_append]
  rw [quoted, quoted, hbody, List.cons_append]

mutual

theorem write_append (level : Nat) : ∀ (v : Json) (xs : List Char),
    write layout level v (xs ++ ys) = write layout level v xs ++ ys
  | null, xs | bool _, xs | number _, xs => by rw [write, write, List.append_assoc]
  | string value, xs => by rw [write, write, quoted_append]
  | array [], xs => by rw [write, write]; rfl
  | array (item :: items), xs => by
    rw [write, write, writeItems_append level items xs, write_append (level + 1) item,
      break_append, List.cons_append]
  | object [], xs => by rw [write, write]; rfl
  | object ((key, value) :: members), xs => by
    rw [write, write, writeMembers_append level members xs, write_append (level + 1) value,
      colon_append, quoted_append, break_append, List.cons_append]

theorem writeItems_append (level : Nat) : ∀ (items : List Json) (xs : List Char),
    writeItems layout level items (xs ++ ys) = writeItems layout level items xs ++ ys
  | [], xs => by rw [writeItems, writeItems, ← List.cons_append, break_append]
  | item :: items, xs => by
    rw [writeItems, writeItems, writeItems_append level items xs, write_append (level + 1) item,
      break_append, List.cons_append]

theorem writeMembers_append (level : Nat) : ∀ (members : List (String × Json)) (xs : List Char),
    writeMembers layout level members (xs ++ ys) = writeMembers layout level members xs ++ ys
  | [], xs => by rw [writeMembers, writeMembers, ← List.cons_append, break_append]
  | (key, value) :: members, xs => by
    rw [writeMembers, writeMembers, writeMembers_append level members xs,
      write_append (level + 1) value, colon_append, quoted_append, break_append, List.cons_append]

end

theorem render_append (v : Json) (after : String) :
    v.render layout ++ after = String.ofList (write layout 0 v after.toList) := by
  rw [← String.toList_inj, String.toList_append, render, String.toList_ofList, String.toList_ofList,
    ← write_append, List.nil_append]

end Append

end MathMarkup.Json
