import Mathlib.Tactic.Common
import MathMarkup.Wire.Document
import MathMarkup.Proofs.JsonText

/-!
# Wire forms read back

Every wire form is found again in its own value, and in the text of this value whenever at most 127
brackets stand open in it. An expression without unary operators comes back from its text as it was,
as far as its numbers come back from theirs.
-/

namespace MathMarkup.Wire

open Json (plain plain_error plain_bind within NumberFree PassesBlanks)

theorem mem_induction {motive : Wire → Prop} (number : ∀ text, motive (.number text))
    (var : ∀ name, motive (.var name)) (arg : ∀ value, motive (.arg value))
    (binary : ∀ op left right, motive left → motive right → motive (.binary op left right))
    (expression : ∀ children, (∀ w ∈ children, motive w) → motive (.expression children)) :
    ∀ w, motive w
  | .number text => number text
  | .var name => var name
  | .arg value => arg value
  | .binary op left right => binary op left right
      (mem_induction number var arg binary expression left)
      (mem_induction number var arg binary expression right)
  | .expression children => expression children fun w _ =>
      mem_induction number var arg binary expression w

/-! ## Values -/

theorem parts?_object {tag : Tag} {values : List Json} (h : values.length = tag.fields.length) :
    parts? (object tag values) = some (tag, values) := by
  cases tag with
  | binary =>
    match values, h with
    | [op, left, right], _ => rfl
  | number | var | arg | expression =>
    obtain ⟨v, rfl⟩ := List.length_eq_one_iff.mp h
    rfl

theorem opOfJson?_symbol (op : BinaryOp) : opOfJson? (.string op.symbol) = some op :=
  BinaryOp.ofSymbol?_symbol op

theorem ofJson?_eq (v : Json) : ofJson? v =
    match parts? v with
    | some (.number, [.string text]) => some (.number text)
    | some (.var, [.string name]) => some (.var name)
    | some (.arg, [.string value]) => some (.arg value)
    | some (.binary, [op, left, right]) => do
      let op ← opOfJson? op
      let l ← ofJson? left
      let r ← ofJson? right
      return .binary op l r
    | some (.expression, [.array children]) => do
      let decoded ← children.mapM ofJson?
      return .expression decoded
    | _ => none := by
  rw [ofJson?]
  split
  · next h => rw [h]
  · next h => rw [h]
  · next h => rw [h]
  · next h => simp only [h]
  · next children h =>
    have hm : children.attach.mapM (fun child => ofJson? child.1) = children.mapM ofJson? := by
      rw [List.mapM_subtype fun _ _ => rfl, List.unattach_attach]
    simp only [h, hm]
  · split <;> simp_all

theorem mapM_ofJson? {ws : List Wire} (h : ∀ w ∈ ws, ofJson? w.toJson = some w) :
    (ws.map toJson).mapM ofJson? = some ws := by
  induction ws with
  | nil => rfl
  | cons w ws ih =>
    rw [List.map_cons, List.mapM_cons, h w List.mem_cons_self,
      ih fun v hv => h v (List.mem_cons_of_mem w hv)]
    rfl

theorem ofJson?_toJson (w : Wire) : ofJson? w.toJson = some w := by
  induction w using mem_induction with
  | number text => rw [toJson, ofJson?_eq, parts?_object rfl]
  | var name => rw [toJson, ofJson?_eq, parts?_object rfl]
  | arg value => rw [toJson, ofJson?_eq, parts?_object rfl]
  | binary op left right ihl ihr =>
    rw [toJson, ofJson?_eq, parts?_object rfl]
    simp only [opOfJson?_symbol, ihl, ihr]
    rfl
  | expression children ih =>
    rw [toJson, ofJson?_eq, parts?_object rfl]
    simp only [mapM_ofJson? ih]
    rfl

theorem numberFree_object {tag : Tag} {values : List Json} (h : ∀ v ∈ values, NumberFree v) :
    NumberFree (object tag values) := by
  apply NumberFree.object
  intro m hm
  rcases List.mem_cons.mp hm with rfl | hm
  · exact .string _
  · exact h m.2 (List.of_mem_zip hm).2

theorem exists_object (w : Wire) :
    ∃ tag values, w.toJson = object tag values ∧ ∀ v ∈ values, NumberFree v := by
  have hfree : ∀ {w : Wire}, (∃ tag values, w.toJson = object tag values ∧
      ∀ v ∈ values, NumberFree v) → NumberFree w.toJson := by
    rintro w ⟨tag, values, hw, hv⟩
    exact hw ▸ numberFree_object hv
  induction w using mem_induction with
  | number text => exact ⟨.number, _, by rw [toJson], by simpa using .string text⟩
  | var name => exact ⟨.var, _, by rw [toJson], by simpa using .string name⟩
  | arg value => exact ⟨.arg, _, by rw [toJson], by simpa using .string value⟩
  | binary op left right ihl ihr =>
    exact ⟨.binary, _, by rw [toJson], by simpa using ⟨.string op.symbol, hfree ihl, hfree ihr⟩⟩
  | expression children ih =>
    have hc : NumberFree (.array (children.map toJson)) :=
      .array (by simpa using fun w hw => hfree (ih w hw))
    exact ⟨.expression, _, by rw [toJson], by simpa using hc⟩

theorem nest_object_string (tag : Tag) (text : String) : (object tag [.string text]).nest = 1 := by
  cases tag <;> rfl

theorem nest_toJson_binary (op : BinaryOp) (left right : Wire) :
    (binary op left right).toJson.nest = 1 + max left.toJson.nest right.toJson.nest := by
  simp [toJson, object, Tag.fields, Json.nest, Json.nestMembers]

theorem nest_toJson_expression (children : List Wire) :
    (expression children).toJson.nest = 2 + Json.nestItems (children.map toJson) := by
  simp only [toJson, object, Tag.fields, List.zip_cons_cons, List.zip_nil_left, Json.nest,
    Json.nestMembers]
  omega

/-! ## Texts -/

theorem plain_tagName_eq (cs : List Char) : plain (tagName cs) =
    match Json.skip cs with
    | '[' :: _ | '\x7b' :: _ => .error .unfit
    | rest => plain (Json.scalar rest) >>= fun (v, rest) =>
      match v with
      | .string name => if (Tag.ofName? name).isSome then .ok (v, rest) else .error .unfit
      | _ => .error .unfit := by
  rw [tagName]
  split
  · next h => simp only [h, plain_error]
  · next h => simp only [h, plain_error]
  · split
    · simp_all
    · simp_all
    · apply plain_bind
      intro x
      split
      · next hv =>
        simp only [hv]
        split
        · rw [← hv]
          rfl
        · rfl
      · next hn =>
        cases hv : x.value with
        | string name => exact absurd hv (hn name)
        | null | bool | number | array | object => rfl

theorem passesBlanks_tagName : PassesBlanks tagName := by
  intro cs ds h
  rw [plain_tagName_eq, plain_tagName_eq, h]

theorem plain_tagName (tag : Tag) (cs : List Char) :
    plain (tagName (Json.quoted tag.name cs)) = .ok (.string tag.name, cs) := by
  rw [plain_tagName_eq, Json.skip_quoted]
  show plain (Json.scalar (Json.quoted tag.name cs)) >>= _ = _
  rw [Json.plain_scalar_quoted]
  exact if_pos (by rw [Tag.ofName?_name]; rfl)

theorem type_not_mem_fields (tag : Tag) : "type" ∉ tag.fields := by
  cases tag <;> decide

theorem readOutermost_members (cs : List Char) : readOutermost ('\x7b' :: cs) =
    (plain (Json.members outermost cs)).map fun (ms, rest) => (.object ms, rest) := by
  rw [readOutermost]
  cases Json.members outermost cs <;> rfl

theorem readOutermost_object (layout : Json.Layout) (tag : Tag) {values : List Json}
    (h : ∀ v ∈ values, NumberFree v) (rest : List Char) :
    readOutermost (Json.write layout 0 (object tag values) rest) =
      within 127 (object tag values).nest (object tag values, rest) := by
  have hrule : ∀ m ∈ tag.fields.zip values, outermost.value m.1 = Json.value innerDepth ∧
      ∀ seen, outermost.admits seen m.1 = .ok () := by
    intro m hm
    have hn : m.1 ≠ "type" := fun he => type_not_mem_fields tag (he ▸ (List.of_mem_zip hm).1)
    exact ⟨if_neg hn, fun seen => if_neg fun ht => hn ht.1⟩
  have hmore : ∀ seen, plain (Json.moreMembers outermost seen
      (Json.writeMembers layout 0 (tag.fields.zip values) rest)) =
        within innerDepth (Json.nestMembers (tag.fields.zip values)) (tag.fields.zip values, rest) :=
    fun _ => Json.plain_moreMembers_write hrule fun m hm => (h m.2 (List.of_mem_zip hm).2).readsBack
  have htag : outermost.value "type" = tagName := by simp only [outermost, if_pos]
  have hadm : outermost.admits [] "type" = .ok () := by simp [outermost]
  rw [object, Json.write, readOutermost_members, Json.plain_members_first, Json.skip_break,
    Json.skip_quoted, Json.plain_member hadm (htag ▸ passesBlanks_tagName), htag,
    Json.write, plain_tagName]
  · simp only [Json.nest, Json.nestMembers, Nat.zero_max]
    show (Except.map _ (plain (Json.moreMembers outermost ["type"] _))).map _ = _
    rw [hmore, Json.within_map, Json.within_map]
    exact Json.within_succ.symm
  · rw [Json.skip_break, Json.skip_quoted, Json.quoted]
    simp

/-- Nothing but the depth of the outermost value stands in the way of the wire form that it is. -/
theorem read_of_outermost {text : String} {v : Json} {w : Wire} {n : Nat} {rest : List Char}
    (hrest : Json.skip rest = [])
    (hv : readOutermost (Json.skip text.toList) = within 127 n (v, rest)) (hw : ofJson? v = some w) :
    read text = within 127 n w := by
  rw [read, hv]
  refine (Json.within_bind (n := 0) ?_).trans (by rw [Nat.max_zero])
  rw [Json.within_zero]
  simp only [hw, hrest]
  rfl

theorem read_render_append (layout : Json.Layout) (w : Wire) {after : String}
    (h : Json.skip after.toList = []) :
    read (w.toJson.render layout ++ after) = within 127 w.toJson.nest w := by
  obtain ⟨tag, values, hw, hv⟩ := w.exists_object
  have hskip : Json.skip (Json.write layout 0 w.toJson after.toList) =
      Json.write layout 0 w.toJson after.toList := by
    rw [hw, object, Json.write]
    exact Json.skip_cons (by decide) _
  have hout := readOutermost_object layout tag hv after.toList
  rw [← hw] at hout
  refine read_of_outermost h ?_ w.ofJson?_toJson
  rw [Json.render_append, String.toList_ofList, hskip, hout]

theorem read_render (layout : Json.Layout) (w : Wire) :
    read (w.toJson.render layout) = within 127 w.toJson.nest w := by
  rw [← String.append_empty (s := w.toJson.render layout)]
  exact read_render_append layout w rfl

end MathMarkup.Wire

namespace MathMarkup

/-- The decimal text of a number that is defined names this number. -/
def Decimal.ReadsBack (x : Float) : Prop := x.isNaN = false → read? (write x) = some x

instance : DecidablePred Decimal.ReadsBack := fun x =>
  inferInstanceAs (Decidable (x.isNaN = false → Decimal.read? (Decimal.write x) = some x))

namespace Expr

def unaryFree : Expr → Bool
  | number _ | var _ | arg _ => true
  | binary _ left right => left.unaryFree && right.unaryFree
  | group inner => inner.unaryFree
  | unary _ _ => false

def numbers : Expr → List Float
  | number value => [value]
  | var _ | arg _ => []
  | binary _ left right => left.numbers ++ right.numbers
  | group inner | unary _ inner => inner.numbers

/-- The number of brackets that stand open at once in the text of an expression. -/
def nest : Expr → Nat
  | number _ | var _ | arg _ => 1
  | binary _ left right => 1 + max left.nest right.nest
  | group inner => 2 + inner.nest
  | unary _ operand => operand.nest

theorem exists_ofExpr {e : Expr} (h : e.unaryFree) :
    ∃ w, Wire.ofExpr e = .ok w ∧ w.toJson.nest = e.nest ∧
      ((∀ x ∈ e.numbers, Decimal.read? (Decimal.write x) = some x) → w.toExpr = .ok e) := by
  induction e with
  | number value =>
    refine ⟨_, rfl, by rw [Wire.toJson, Wire.nest_object_string]; rfl, fun hx => ?_⟩
    rw [Wire.toExpr, hx value List.mem_cons_self]
  | var name =>
    exact ⟨_, rfl, by rw [Wire.toJson, Wire.nest_object_string]; rfl, fun _ => by rw [Wire.toExpr]⟩
  | arg raw =>
    exact ⟨_, rfl, by rw [Wire.toJson, Wire.nest_object_string]; rfl, fun _ => by rw [Wire.toExpr]⟩
  | binary op left right ihl ihr =>
    simp only [unaryFree, Bool.and_eq_true] at h
    obtain ⟨l, hl, hln, hle⟩ := ihl h.1
    obtain ⟨r, hr, hrn, hre⟩ := ihr h.2
    refine ⟨.binary op l r, by rw [Wire.ofExpr, hl, hr]; rfl, ?_, fun hx => ?_⟩
    · rw [Wire.nest_toJson_binary, nest, hln, hrn]
    · rw [Wire.toExpr, hle fun x hm => hx x (List.mem_append_left _ hm),
        hre fun x hm => hx x (List.mem_append_right _ hm)]
      rfl
  | group inner ih =>
    obtain ⟨w, hw, hn, he⟩ := ih h
    refine ⟨.expression [w], by rw [Wire.ofExpr, hw]; rfl, ?_, fun hx => ?_⟩
    · simp [Wire.nest_toJson_expression, Json.nestItems, nest, hn]
    · rw [Wire.toExpr, he hx]
      rfl
  | unary op operand => cases h

/-- In every layout an expression without unary operators has a text, from which it comes back as it
was if at most 127 brackets stand open there at once; any other such text is refused as malformed. -/
theorem ofJson_toJson (layout : Json.Layout) (e : Expr) (hu : e.unaryFree)
    (hn : ∀ x ∈ e.numbers, x.isNaN = false) (hd : ∀ x ∈ e.numbers, Decimal.ReadsBack x) :
    ∃ text, e.toJson layout = .ok text ∧ (ofJson text = .ok e ↔ e.nest ≤ 127) ∧
      (127 < e.nest → ofJson text = .error (.json .malformed)) := by
  obtain ⟨w, hw, hnest, hexpr⟩ := exists_ofExpr hu
  have hread := Wire.read_render layout w
  rw [hnest] at hread
  have hdeep : 127 < e.nest → ofJson (w.toJson.render layout) = .error (.json .malformed) := by
    intro h
    rw [ofJson, hread, Json.within_error h]
  refine ⟨w.toJson.render layout, by rw [toJson, hw]; rfl, ⟨fun h => ?_, fun h => ?_⟩, hdeep⟩
  · by_contra hlt
    rw [hdeep (by omega)] at h
    cases h
  · rw [ofJson, hread, Json.within, if_pos h]
    simp only [hexpr fun x hx => hd x hx (hn x hx)]
    rfl

theorem ofJson_toJson_power :
    ∃ text, toJson Json.pretty (.binary .pow (.group (.number 2.5)) (.arg "\t")) = .ok text ∧
      ofJson text = .ok (.binary .pow (.group (.number 2.5)) (.arg "\t")) := by
  obtain ⟨text, ht, hr, _⟩ := ofJson_toJson Json.pretty
    (.binary .pow (.group (.number 2.5)) (.arg "\t")) rfl (by decide +kernel) (by decide +kernel)
  exact ⟨text, ht, hr.mpr (by decide)⟩

end Expr
end MathMarkup
