import MathMarkup.Proofs.Depth
import MathMarkup.Proofs.Reading
import MathMarkup.Proofs.WireForm

/-!
# Canonical texts

A text from which an expression is read need not be the one that is written for it: members may
stand in any order, nodes may be arrays, and numbers have many spellings. But what was read can
always be written, and the written text is its own rewriting: it is no deeper than the one that was
read, and from it the same expression comes back, except that one undefined number stands for all.
-/

namespace MathMarkup.Wire

open Json (plain within Reads NumberFree nestItems nestMembers)

/-! ## Depth of wire forms -/

variable {v u : Json} {w : Wire} {tag : Tag} {values : List Json}

theorem nest_field?_le {members : List (String × Json)} {name : String}
    (h : field? members name = some v) : v.nest ≤ nestMembers members := by
  unfold field? at h
  split at h
  · next key value hf =>
    cases h
    have hm : (key, v) ∈ members.filter (·.1 = name) := hf ▸ List.mem_singleton_self _
    exact Json.nestMembers_le.mp (Nat.le_refl _) (key, v) (List.mem_filter.mp hm).1
  · cases h

theorem nest_values?_le {members : List (String × Json)} {names : List String}
    (h : values? members names = some values) (hu : u ∈ values) :
    u.nest ≤ nestMembers members := by
  induction names generalizing values with
  | nil =>
    cases h
    cases hu
  | cons name names ih =>
    simp only [values?, Option.bind_eq_bind, Option.bind_eq_some_iff, Option.pure_def,
      Option.some.injEq] at h
    obtain ⟨first, hf, more, hm, rfl⟩ := h
    rcases List.mem_cons.mp hu with rfl | hu
    · exact nest_field?_le hf
    · exact ih hm hu

theorem nest_parts?_lt (h : parts? v = some (tag, values)) (hu : u ∈ values) :
    u.nest < v.nest := by
  unfold parts? at h
  split at h
  · next members =>
    simp only [Option.bind_eq_bind, Option.bind_eq_some_iff, Option.pure_def, Option.some.injEq,
      Prod.mk.injEq] at h
    obtain ⟨_, _, _, hv, rfl, rfl⟩ := h
    have := nest_values?_le hv hu
    rw [Json.nest]
    omega
  · next head rest =>
    simp only [Option.bind_eq_bind, Option.bind_eq_some_iff] at h
    obtain ⟨t, _, h⟩ := h
    split at h
    · cases h
      have := Json.nestItems_le.mp (Nat.le_refl _) u (List.mem_cons_of_mem head hu)
      rw [Json.nest]
      omega
    · cases h
  · cases h

theorem nest_leaf_le {text : String} (h : parts? v = some (tag, [.string text])) :
    (object tag [.string text]).nest ≤ v.nest := by
  rw [nest_object_string]
  exact Nat.zero_lt_of_lt (nest_parts?_lt h List.mem_cons_self)

theorem exists_of_mem_mapM {children : List Json} {ws : List Wire}
    (h : children.mapM ofJson? = some ws) (hw : w ∈ ws) : ∃ c ∈ children, ofJson? c = some w := by
  induction children generalizing ws with
  | nil =>
    cases h
    cases hw
  | cons c children ih =>
    simp only [List.mapM_cons, Option.bind_eq_bind, Option.bind_eq_some_iff, Option.pure_def,
      Option.some.injEq] at h
    obtain ⟨first, hf, more, hm, rfl⟩ := h
    rcases List.mem_cons.mp hw with rfl | hw
    · exact ⟨c, List.mem_cons_self, hf⟩
    · obtain ⟨d, hd, hdw⟩ := ih hm hw
      exact ⟨d, List.mem_cons_of_mem c hd, hdw⟩

theorem nest_toJson_le (h : ofJson? v = some w) : w.toJson.nest ≤ v.nest := by
  induction hn : sizeOf v using Nat.strongRecOn generalizing v w with
  | ind n ih =>
    rw [ofJson?_eq] at h
    split at h
    · next hp =>
      cases h
      rw [toJson]
      exact nest_leaf_le hp
    · next hp =>
      cases h
      rw [toJson]
      exact nest_leaf_le hp
    · next hp =>
      cases h
      rw [toJson]
      exact nest_leaf_le hp
    · next o l r hp =>
      simp only [Option.bind_eq_bind, Option.bind_eq_some_iff, Option.pure_def,
        Option.some.injEq] at h
      obtain ⟨op, _, left, hl, right, hr, rfl⟩ := h
      have hleft := ih (sizeOf l) (hn ▸ sizeOf_left_lt hp) hl rfl
      have hright := ih (sizeOf r) (hn ▸ sizeOf_right_lt hp) hr rfl
      have hlv : l.nest < v.nest := nest_parts?_lt hp (by simp)
      have hrv : r.nest < v.nest := nest_parts?_lt hp (by simp)
      rw [nest_toJson_binary]
      omega
    · next children hp =>
      simp only [Option.bind_eq_bind, Option.bind_eq_some_iff, Option.pure_def,
        Option.some.injEq] at h
      obtain ⟨ws, hm, rfl⟩ := h
      have harray := nest_parts?_lt hp List.mem_cons_self
      rw [Json.nest] at harray
      have hws : nestItems (ws.map toJson) ≤ nestItems children := by
        rw [Json.nestItems_le, List.forall_mem_map]
        intro w hw
        obtain ⟨c, hc, hcw⟩ := exists_of_mem_mapM hm hw
        have hcv := Json.nestItems_le.mp (Nat.le_refl _) c hc
        have hw := ih (sizeOf c) (hn ▸ sizeOf_child_lt hp ⟨c, hc⟩) hcw rfl
        omega
      rw [nest_toJson_expression]
      omega
    · cases h

/-! ## Depth of texts -/

variable {n : Nat}

theorem reads_tagName (cs : List Char) : Reads (Json.nest · ≤ n) (tagName cs) := by
  rw [tagName]
  split
  · exact .error _
  · exact .error _
  · refine .bind (Json.reads_scalar (n := n) _) fun scalar hscalar => ?_
    split
    · split
      · exact .ok hscalar
      · exact .error _
    · exact .error _

theorem reads_outermost (name : String) (cs : List Char) :
    Reads (Json.nest · ≤ innerDepth) (outermost.value name cs) := by
  simp only [outermost]
  split
  · exact reads_tagName cs
  · exact Json.reads_value innerDepth cs

theorem nest_readOutermost_le {cs rest : List Char} (h : readOutermost cs = .ok (v, rest)) :
    v.nest ≤ 127 := by
  unfold readOutermost at h
  split at h
  · obtain ⟨items, hitems, ⟨⟩⟩ := Grammar.bind_eq_ok.mp h
    have hle : Json.nestItems items.value ≤ 126 :=
      Json.nestItems_le.mpr (Json.reads_items reads_tagName (Json.reads_value 126) _ _ hitems)
    rw [Json.nest]
    omega
  · obtain ⟨members, hmembers, ⟨⟩⟩ := Grammar.bind_eq_ok.mp h
    have hle : Json.nestMembers members.value ≤ 126 :=
      Json.nestMembers_le.mpr (Json.reads_members reads_outermost _ _ hmembers)
    rw [Json.nest]
    omega
  · obtain ⟨scalar, hscalar, ⟨⟩⟩ := Grammar.bind_eq_ok.mp h
    exact Json.reads_scalar _ scalar hscalar

theorem nest_read_le {text : String} (h : read text = .ok w) : w.toJson.nest ≤ 127 := by
  obtain ⟨⟨v, rest⟩, hv, h⟩ := Grammar.bind_eq_ok.mp h
  simp only at h
  have hw : ofJson? v = some w := by
    split at h
    · cases h
    · cases h
    · next hw _ =>
      cases h
      exact hw
  exact Nat.le_trans (nest_toJson_le hw) (nest_readOutermost_le hv)

/-! ## Nodes as arrays -/

theorem readOutermost_items (cs : List Char) : readOutermost ('[' :: cs) =
    (plain (Json.items tagName (Json.value innerDepth) cs)).map
      fun (vs, rest) => (.array vs, rest) := by
  rw [readOutermost]
  cases Json.items tagName (Json.value innerDepth) cs <;> rfl

theorem readOutermost_array (layout : Json.Layout) (tag : Tag) {values : List Json}
    (h : ∀ v ∈ values, NumberFree v) :
    readOutermost (Json.write layout 0 (.array (.string tag.name :: values)) []) =
      within 127 (Json.array (.string tag.name :: values)).nest
        (.array (.string tag.name :: values), []) := by
  have hmore : plain (Json.moreItems (Json.value innerDepth)
      (Json.writeItems layout 0 values [])) =
        within innerDepth (Json.nestItems values) (values, []) :=
    Json.plain_moreItems_write fun v hv => (h v hv).readsBack
  have hskip := fun cs => Json.skip_break layout 1 (Json.quoted tag.name cs)
  rw [Json.write, readOutermost_items, Json.write, Json.plain_items_first passesBlanks_tagName,
    passesBlanks_tagName _ _ (hskip _), plain_tagName]
  · simp only [Json.nest, Json.nestItems, Nat.zero_max]
    show (Except.map _ (plain (Json.moreItems _ _))).map _ = _
    rw [hmore, Json.within_map, Json.within_map]
    exact Json.within_succ.symm
  · rw [hskip, Json.skip_quoted, Json.quoted]
    simp

theorem read_array (layout : Json.Layout) (tag : Tag) {values : List Json} {w : Wire}
    (hv : ∀ v ∈ values, NumberFree v)
    (h : ofJson? (.array (.string tag.name :: values)) = some w) :
    read ((Json.array (.string tag.name :: values)).render layout) =
      within 127 (Json.array (.string tag.name :: values)).nest w := by
  have hskip : Json.skip (Json.write layout 0 (.array (.string tag.name :: values)) []) =
      Json.write layout 0 (.array (.string tag.name :: values)) [] := by
    rw [Json.write]
    exact Json.skip_cons (by decide) _
  have hend : Json.skip [] = [] := rfl
  refine read_of_outermost hend ?_ h
  rw [Json.render, String.toList_ofList, hskip, readOutermost_array layout tag hv]

end MathMarkup.Wire

namespace MathMarkup

/-- The number itself, or the one undefined number that is read for any other. -/
def Decimal.settled (x : Float) : Float := if x.isNaN then 0.0 / 0.0 else x

namespace Decimal

theorem write_of_isNaN {x : Float} (h : x.isNaN) : write x = "NaN" := if_pos h

theorem write_settled (x : Float) : write (settled x) = write x := by
  unfold settled
  split_ifs with h
  · rw [write_of_isNaN h, write_of_isNaN (by decide +kernel)]
  · rfl

theorem read?_write_settled {x : Float} (h : ReadsBack x) :
    read? (write (settled x)) = some (settled x) := by
  rw [write_settled, settled]
  split_ifs with hn
  · rw [write_of_isNaN hn]
    decide +kernel
  · exact h (Bool.eq_false_iff.mpr hn)

end Decimal

namespace Expr

def mapNumbers (f : Float → Float) : Expr → Expr
  | number value => .number (f value)
  | var name => .var name
  | arg raw => .arg raw
  | binary op left right => .binary op (left.mapNumbers f) (right.mapNumbers f)
  | group inner => .group (inner.mapNumbers f)
  | unary op operand => .unary op (operand.mapNumbers f)

section MapNumbers

variable (f : Float → Float) (e : Expr)

theorem numbers_mapNumbers : (e.mapNumbers f).numbers = e.numbers.map f := by
  induction e with
  | number | var | arg => rfl
  | binary op left right ihl ihr => simp only [mapNumbers, numbers, ihl, ihr, List.map_append]
  | group inner ih | unary op inner ih => exact ih

theorem unaryFree_mapNumbers : (e.mapNumbers f).unaryFree = e.unaryFree := by
  induction e with
  | number | var | arg | unary => rfl
  | binary op left right ihl ihr => simp only [mapNumbers, unaryFree, ihl, ihr]
  | group inner ih => exact ih

theorem nest_mapNumbers : (e.mapNumbers f).nest = e.nest := by
  induction e with
  | number | var | arg => rfl
  | binary op left right ihl ihr => simp only [mapNumbers, nest, ihl, ihr]
  | group inner ih | unary op inner ih => simp only [mapNumbers, nest, ih]

variable {f}

theorem ofExpr_mapNumbers (hf : ∀ x, Decimal.write (f x) = Decimal.write x) :
    Wire.ofExpr (e.mapNumbers f) = Wire.ofExpr e := by
  induction e with
  | number value => simp only [mapNumbers, Wire.ofExpr, hf]
  | var | arg | unary => rfl
  | binary op left right ihl ihr => simp only [mapNumbers, Wire.ofExpr, ihl, ihr]
  | group inner ih => simp only [mapNumbers, Wire.ofExpr, ih]

end MapNumbers

theorem unaryFree_of_toExpr {w : Wire} {e : Expr} (h : w.toExpr = .ok e) :
    e.unaryFree ∧ e.nest = w.toJson.nest := by
  induction w using Wire.mem_induction generalizing e with
  | number text =>
    rw [Wire.toExpr] at h
    split at h
    · cases h
      exact ⟨rfl, by rw [Wire.toJson, Wire.nest_object_string]; rfl⟩
    · cases h
  | var name =>
    rw [Wire.toExpr] at h
    cases h
    exact ⟨rfl, by rw [Wire.toJson, Wire.nest_object_string]; rfl⟩
  | arg value =>
    rw [Wire.toExpr] at h
    cases h
    exact ⟨rfl, by rw [Wire.toJson, Wire.nest_object_string]; rfl⟩
  | binary op left right ihl ihr =>
    rw [Wire.toExpr] at h
    obtain ⟨l, hl, h⟩ := Grammar.bind_eq_ok.mp h
    obtain ⟨r, hr, ⟨⟩⟩ := Grammar.bind_eq_ok.mp h
    obtain ⟨hlu, hln⟩ := ihl hl
    obtain ⟨hru, hrn⟩ := ihr hr
    exact ⟨by rw [unaryFree, hlu, hru]; rfl, by rw [Wire.nest_toJson_binary, nest, hln, hrn]⟩
  | expression children ih =>
    cases children with
    | nil => simp [Wire.toExpr] at h
    | cons child rest =>
      cases rest with
      | cons => simp [Wire.toExpr] at h
      | nil =>
        rw [Wire.toExpr] at h
        cases hc : child.toExpr with
        | error reason =>
          rw [hc] at h
          cases h
        | ok inner =>
          rw [hc] at h
          cases h
          obtain ⟨hu, hn⟩ := ih child List.mem_cons_self hc
          exact ⟨hu, by simp [Wire.nest_toJson_expression, Json.nestItems, nest, hn]⟩

/-- What was read from a text is written as a text that comes back as it is: from it the same
expression is read, with one undefined number in place of all. -/
theorem ofJson_canonical (layout : Json.Layout) {text : String} {e : Expr}
    (h : ofJson text = .ok e) (hd : ∀ x ∈ e.numbers, Decimal.ReadsBack x) :
    ∃ text', e.toJson layout = .ok text' ∧ ofJson text' = .ok (e.mapNumbers Decimal.settled) ∧
      (e.mapNumbers Decimal.settled).toJson layout = .ok text' := by
  have hshape : e.unaryFree ∧ e.nest ≤ 127 := by
    unfold ofJson at h
    split at h
    · cases h
    · next wire hw =>
      cases he : wire.toExpr with
      | error reason =>
        rw [he] at h
        cases h
      | ok inner =>
        rw [he] at h
        cases h
        obtain ⟨hu, hn⟩ := unaryFree_of_toExpr he
        exact ⟨hu, hn ▸ Wire.nest_read_le hw⟩
  obtain ⟨hu, hn⟩ := hshape
  rw [← nest_mapNumbers Decimal.settled] at hn
  rw [← unaryFree_mapNumbers Decimal.settled] at hu
  have hback : ∀ x ∈ (e.mapNumbers Decimal.settled).numbers,
      Decimal.read? (Decimal.write x) = some x := by
    rw [numbers_mapNumbers, List.forall_mem_map]
    exact fun x hx => Decimal.read?_write_settled (hd x hx)
  obtain ⟨w, hw, hnest, hexpr⟩ := exists_ofExpr hu
  have hwritten := hw
  rw [ofExpr_mapNumbers e Decimal.write_settled] at hwritten
  refine ⟨w.toJson.render layout, by rw [toJson, hwritten]; rfl, ?_, by rw [toJson, hw]; rfl⟩
  rw [ofJson, Wire.read_render, hnest, Json.within, if_pos hn]
  simp only [hexpr hback]
  rfl

theorem ofJson_canonical_array :
    ofJson "[\"ASTNumber\",\"1e3\"]" = .ok (.number 1000) ∧
      ∃ text, toJson Json.compact (.number 1000) = .ok text ∧ ofJson text = .ok (.number 1000) := by
  have hwire : Wire.ofJson? (.array [.string "ASTNumber", .string "1e3"]) =
      some (.number "1e3") := by
    rw [Wire.ofJson?_eq]
    rfl
  have hread : Wire.read "[\"ASTNumber\",\"1e3\"]" = .ok (.number "1e3") := by
    have htext : "[\"ASTNumber\",\"1e3\"]" =
        (Json.array (.string Wire.Tag.number.name :: [.string "1e3"])).render Json.compact := by
      decide
    rw [htext, Wire.read_array Json.compact .number (by simp [Json.NumberFree.string]) hwire]
    rfl
  have hexpr : ofJson "[\"ASTNumber\",\"1e3\"]" = .ok (.number 1000) := by
    have hthousand : Decimal.read? "1e3" = some 1000 := by decide +kernel
    rw [ofJson, hread]
    simp only [Wire.toExpr, hthousand]
    rfl
  obtain ⟨text, ht, hback, _⟩ := ofJson_canonical Json.compact hexpr (by decide +kernel)
  have hsettled : Decimal.settled 1000 = 1000 := by decide +kernel
  refine ⟨hexpr, text, ht, ?_⟩
  rwa [mapNumbers, hsettled] at hback

end Expr
end MathMarkup
