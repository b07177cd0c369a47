import MathMarkup.Proofs.Canonical
import MathMarkup.Proofs.Leftmost
import MathMarkup.Proofs.ReadBack

/-!
# Expressions and wire forms

An expression becomes a wire form unless it has a unary operator, and a wire form becomes an
expression unless it has a text that is no number or a group that does not hold one child. Either way
the nodes are gone through with each node in front of its parts, and the first one that is at fault is
reported. Where nothing is at fault the way there and back only changes how numbers are spelled.
-/

namespace MathMarkup

/-! ## From expressions -/

namespace Expr

def nodes : Expr → List Expr
  | number value => [.number value]
  | var name => [.var name]
  | arg raw => [.arg raw]
  | binary op left right => .binary op left right :: (left.nodes ++ right.nodes)
  | group inner => .group inner :: inner.nodes
  | unary op operand => .unary op operand :: operand.nodes

inductive Wireless : Expr → Wire.NoWireForm → Prop
  | unary {op : UnaryOp} {operand : Expr} : Wireless (.unary op operand) ⟨op⟩

theorem ofExpr_surveys (e : Expr) : Surveys Wireless e.nodes (Wire.ofExpr e) := by
  induction e with
  | number | var | arg => exact (Surveys.ok _).cons (by rintro _ ⟨⟩)
  | binary op l r ihl ihr =>
    exact Surveys.cons (ihl.bind fun _ _ => ihr.bind_pure) (by rintro _ ⟨⟩)
  | group inner ih => exact Surveys.cons ih.bind_pure (by rintro _ ⟨⟩)
  | unary op operand =>
    refine Surveys.error fun reason => ⟨?_, ?_⟩
    · rintro ⟨⟩
      rfl
    · rintro rfl
      exact .unary

theorem leftmost_wireless {places : List Expr} {op : UnaryOp} :
    Leftmost Wireless places ⟨op⟩ ↔ ∃ before operand after,
      places = before ++ .unary op operand :: after ∧ ∀ o inner, .unary o inner ∉ before := by
  constructor
  · rintro ⟨before, _, after, rfl, ⟨⟩, hb⟩
    exact ⟨before, _, after, rfl, fun o inner hm => hb _ hm ⟨o⟩ .unary⟩
  · rintro ⟨before, operand, after, rfl, hb⟩
    refine ⟨before, _, after, rfl, .unary, ?_⟩
    rintro _ hm _ ⟨⟩
    exact hb _ _ hm

theorem unaryFree_iff {e : Expr} : e.unaryFree ↔ ∀ op operand, .unary op operand ∉ e.nodes := by
  induction e with
  | number | var | arg => simp [unaryFree, nodes]
  | binary op l r ihl ihr => simp [unaryFree, nodes, ihl, ihr, forall_and]
  | group inner ih => simp [unaryFree, nodes, ih]
  | unary op operand =>
    exact iff_of_false (by simp [unaryFree]) fun h => h op operand List.mem_cons_self

theorem ofExpr_eq_error_iff {e : Expr} :
    (∃ reason, Wire.ofExpr e = .error reason) ↔ ∃ op operand, .unary op operand ∈ e.nodes := by
  rw [exists_congr (ofExpr_surveys e), exists_leftmost]
  constructor
  · rintro ⟨_, hm, _, ⟨⟩⟩
    exact ⟨_, _, hm⟩
  · rintro ⟨op, operand, hm⟩
    exact ⟨_, hm, _, .unary⟩

theorem isOk_ofExpr_iff {e : Expr} : (∃ w, Wire.ofExpr e = .ok w) ↔ e.unaryFree := by
  rw [(ofExpr_surveys e).isOk_iff, unaryFree_iff]
  constructor
  · exact fun h op operand hm => h _ hm _ .unary
  · rintro h _ hm _ ⟨⟩
    exact h _ _ hm

end Expr

/-! ## From wire forms -/

def Decimal.respell (text : String) : String := ((read? text).map write).getD text

namespace Wire

def nodes : Wire → List Wire
  | number text => [.number text]
  | var name => [.var name]
  | arg value => [.arg value]
  | binary op left right => .binary op left right :: (left.nodes ++ right.nodes)
  | expression children => .expression children :: children.flatMap nodes

/-- A node that stands for no expression, whatever its parts stand for. -/
inductive Faulty : Wire → Malformed → Prop
  | badNumber {text : String} : Decimal.read? text = none → Faulty (.number text) (.badNumber text)
  | childCount {children : List Wire} : children.length ≠ 1 →
    Faulty (.expression children) (.childCount children.length)

def respell : Wire → Wire
  | number text => .number (Decimal.respell text)
  | var name => .var name
  | arg value => .arg value
  | binary op left right => .binary op left.respell right.respell
  | expression children => .expression (children.map respell)

variable {w : Wire} {e : Expr} {children : List Wire} {reason : Malformed}

theorem faulty_number {text : String} :
    Faulty (.number text) reason ↔ Decimal.read? text = none ∧ reason = .badNumber text := by
  constructor
  · rintro ⟨h⟩
    exact ⟨h, rfl⟩
  · rintro ⟨h, rfl⟩
    exact .badNumber h

theorem faulty_expression : Faulty (.expression children) reason ↔
    children.length ≠ 1 ∧ reason = .childCount children.length := by
  constructor
  · rintro (_ | h)
    exact ⟨h, rfl⟩
  · rintro ⟨h, rfl⟩
    exact .childCount h

theorem toExpr_expression_of_ne (h : children.length ≠ 1) :
    (Wire.expression children).toExpr = .error (.childCount children.length) := by
  match children, h with
  | [], _ => rw [toExpr]; simp
  | [_], h => exact absurd rfl h
  | _ :: _ :: _, _ => rw [toExpr]; simp

theorem toExpr_surveys (w : Wire) : Surveys Faulty w.nodes w.toExpr := by
  induction w using mem_induction with
  | number text =>
    rw [nodes, toExpr]
    cases hv : Decimal.read? text with
    | none => exact .error fun reason => by simp [faulty_number, hv]
    | some value => exact (Surveys.ok _).cons fun reason => by simp [faulty_number, hv]
  | var name =>
    rw [nodes, toExpr]
    exact (Surveys.ok _).cons (by rintro _ ⟨⟩)
  | arg value =>
    rw [nodes, toExpr]
    exact (Surveys.ok _).cons (by rintro _ ⟨⟩)
  | binary op left right ihl ihr =>
    rw [nodes, toExpr]
    exact Surveys.cons (ihl.bind fun _ _ => ihr.bind_pure) (by rintro _ ⟨⟩)
  | expression children ih =>
    rw [nodes]
    by_cases hone : children.length = 1
    · obtain ⟨child, rfl⟩ := List.length_eq_one_iff.mp hone
      rw [List.flatMap_singleton, toExpr]
      exact (ih child List.mem_cons_self).map.cons fun reason => by simp [faulty_expression]
    · rw [toExpr_expression_of_ne hone]
      exact .error fun reason => by simp [faulty_expression, hone]

theorem ofExpr_of_toExpr (h : w.toExpr = .ok e) : ofExpr e = .ok w.respell := by
  induction w using mem_induction generalizing e with
  | number text =>
    rw [toExpr] at h
    split at h
    · next value hv =>
      cases h
      rw [ofExpr, respell, Decimal.respell, hv]
      rfl
    · cases h
  | var name =>
    rw [toExpr] at h
    cases h
    rw [ofExpr, respell]
  | arg value =>
    rw [toExpr] at h
    cases h
    rw [ofExpr, respell]
  | binary op left right ihl ihr =>
    rw [toExpr] at h
    obtain ⟨l, hl, h⟩ := Grammar.bind_eq_ok.mp h
    obtain ⟨r, hr, ⟨⟩⟩ := Grammar.bind_eq_ok.mp h
    rw [ofExpr, ihl hl, ihr hr, respell]
    rfl
  | expression children ih =>
    by_cases hone : children.length = 1
    · obtain ⟨child, rfl⟩ := List.length_eq_one_iff.mp hone
      rw [toExpr, ← bind_pure_comp] at h
      obtain ⟨inner, hinner, ⟨⟩⟩ := Grammar.bind_eq_ok.mp h
      rw [ofExpr, ih child List.mem_cons_self hinner, respell]
      rfl
    · rw [toExpr_expression_of_ne hone] at h
      cases h

theorem toExpr_of_ofExpr (h : ofExpr e = .ok w) : w.toExpr = .ok e := by
  obtain ⟨other, hother, -, hexpr⟩ := Expr.exists_ofExpr (Expr.isOk_ofExpr_iff.mp ⟨w, h⟩)
  obtain rfl : w = other := Except.ok.inj (h.symm.trans hother)
  exact hexpr fun x _ => Decimal.read?_write x

theorem toExpr_eq_error_iff : (∃ reason, w.toExpr = .error reason) ↔
    (∃ text, .number text ∈ w.nodes ∧ Decimal.read? text = none) ∨
      ∃ children, .expression children ∈ w.nodes ∧ children.length ≠ 1 := by
  rw [exists_congr (toExpr_surveys w), exists_leftmost]
  constructor
  · rintro ⟨_, hm, _, h | h⟩
    · exact .inl ⟨_, hm, h⟩
    · exact .inr ⟨_, hm, h⟩
  · rintro (⟨text, hm, h⟩ | ⟨children, hm, h⟩)
    · exact ⟨_, hm, _, .badNumber h⟩
    · exact ⟨_, hm, _, .childCount h⟩

/-- Only a unary operator keeps an expression from a wire form, and the first one is named. Only a text
that is no number, or a group without a single child, keeps a wire form from an expression, and the
first such node is reported. Where neither fails each undoes the other, but for how numbers are
spelled. -/
theorem conversions_invert :
    (∀ e : Expr,
      ((∃ reason, ofExpr e = .error reason) ↔ ∃ op operand, .unary op operand ∈ e.nodes) ∧
      (∀ op, ofExpr e = .error ⟨op⟩ ↔ ∃ before operand after,
        e.nodes = before ++ .unary op operand :: after ∧ ∀ o inner, .unary o inner ∉ before) ∧
      ∀ w, ofExpr e = .ok w → w.toExpr = .ok e) ∧
    (∀ w : Wire,
      ((∃ reason, w.toExpr = .error reason) ↔
        (∃ text, .number text ∈ w.nodes ∧ Decimal.read? text = none) ∨
          ∃ children, .expression children ∈ w.nodes ∧ children.length ≠ 1) ∧
      (∀ reason, w.toExpr = .error reason ↔ Leftmost Faulty w.nodes reason) ∧
      ∀ e, w.toExpr = .ok e →
        (∀ op operand, .unary op operand ∉ e.nodes) ∧ ofExpr e = .ok w.respell) ∧
    (∀ op, (NoWireForm.mk op).message =
      "unsupported construct: serializing unary command " ++ op.name) ∧
    (∀ text, (Malformed.badNumber text).message =
      "malformed node dict: bad number `" ++ text ++ "`") ∧
    ∀ found, (Malformed.childCount found).message =
      "malformed node dict: expression with " ++ toString found ++ " children" := by
  refine ⟨fun e => ⟨Expr.ofExpr_eq_error_iff, fun op => ?_, fun w => toExpr_of_ofExpr⟩,
    fun w => ⟨toExpr_eq_error_iff, toExpr_surveys w, fun e h => ?_⟩,
    fun _ => rfl, fun _ => rfl, fun _ => rfl⟩
  · rw [Expr.ofExpr_surveys e, Expr.leftmost_wireless]
  · have hback := ofExpr_of_toExpr h
    exact ⟨Expr.unaryFree_iff.mp (Expr.isOk_ofExpr_iff.mp ⟨_, hback⟩), hback⟩

theorem conversions_invert_nested :
    ofExpr (.binary .add (.group (.unary .sqrt (.unary .negative (.var "x"))))
      (.unary .negative (.arg "2"))) = .error ⟨.sqrt⟩ ∧
    (Wire.binary .add (.expression [.number "1."]) (.binary .pow
      (.expression [.number "1.2.3", .var "x"]) (.number ""))).toExpr = .error (.childCount 2) ∧
    ofExpr (.group (.number 1.5)) = .ok (Wire.expression [.number "+1.50"]).respell ∧
    (Wire.expression [.number "1.5"]).toExpr = .ok (.group (.number 1.5)) := by
  obtain ⟨hexpr, hwire, -⟩ := conversions_invert
  refine ⟨((hexpr _).2.1 _).mpr ⟨[_, _], _, _, rfl, by simp⟩, ((hwire _).2.1 _).mpr
    ⟨[.binary .add (.expression [.number "1."]) (.binary .pow
        (.expression [.number "1.2.3", .var "x"]) (.number "")),
      .expression [.number "1."], .number "1.",
      .binary .pow (.expression [.number "1.2.3", .var "x"]) (.number "")],
      .expression [.number "1.2.3", .var "x"], [.number "1.2.3", .var "x", .number ""],
      by simp [nodes], .childCount (by decide), ?_⟩, ((hwire _).2.2 _ ?_).2, (hexpr _).2.2 _ ?_⟩
  · have hone : Decimal.read? "1." = some 1 := by decide +kernel
    intro other hm reason hfault
    simp only [List.mem_cons, List.not_mem_nil, or_false] at hm
    rcases hm with rfl | rfl | rfl | rfl
    · cases hfault
    · exact (faulty_expression.mp hfault).1 rfl
    · exact absurd (hone.symm.trans (faulty_number.mp hfault).1) (by simp)
    · cases hfault
  · have hhalf : Decimal.read? "+1.50" = some 1.5 := by decide +kernel
    rw [toExpr, toExpr, hhalf]
    rfl
  · have htext : Decimal.write 1.5 = "1.5" := by decide +kernel
    rw [ofExpr, ofExpr, htext]
    rfl

end Wire

end MathMarkup
