import Mathlib.Data.List.FinRange
import MathMarkup.Function
import MathMarkup.Proofs.Reading

/-!
# Values of expressions

The value of an expression is built up from its leaves. The variable leaves take the members of a
list of numbers from left to right, each leaf one of them, and so the list is cut in two at every
binary operation. The function that an expression compiles to has one slot for each variable leaf,
in the same order, and its value at the list is the value of the expression. A counter that each
variable leaf advances gives the same slots.
-/

namespace MathMarkup

open Grammar (bind_eq_ok)

namespace Expr

/-- The value of an expression whose variable leaves take the listed numbers from left to right. -/
inductive Value : Expr → List Float → Float → Prop
  | number {x : Float} : Value (.number x) [] x
  | var {name : String} {x : Float} : Value (.var name) [x] x
  | arg {raw : String} {x : Float} : argument? raw = some x → Value (.arg raw) [] x
  | binary {op : BinaryOp} {l r : Expr} {xs ys : List Float} {x y : Float} : Value l xs x →
      Value r ys y → Value (.binary op l r) (xs ++ ys) (op.apply x y)
  | group {e : Expr} {xs : List Float} {x : Float} : Value e xs x → Value (.group e) xs x
  | unary {op : UnaryOp} {e : Expr} {xs : List Float} {x : Float} : Value e xs x →
      Value (.unary op e) xs (op.apply x)

/-- A formula has the operations and the constants of an expression, and the slot that stands for a
variable leaf bears the name of that leaf. -/
inductive Realizes {σ : Type} (names : σ → String) : Expr → Formula σ → Prop
  | number {x : Float} : Realizes names (.number x) (.constant x)
  | var {name : String} {i : σ} : names i = name → Realizes names (.var name) (.slot i)
  | arg {raw : String} {x : Float} : argument? raw = some x →
      Realizes names (.arg raw) (.constant x)
  | binary {op : BinaryOp} {l r : Expr} {p q : Formula σ} : Realizes names l p →
      Realizes names r q → Realizes names (.binary op l r) (.binary op p q)
  | group {e : Expr} {p : Formula σ} : Realizes names e p → Realizes names (.group e) p
  | unary {op : UnaryOp} {e : Expr} {p : Formula σ} : Realizes names e p →
      Realizes names (.unary op e) (.unary op p)

end Expr

def Formula.slots {σ : Type} : Formula σ → List σ
  | constant _ => []
  | slot index => [index]
  | binary _ left right => left.slots ++ right.slots
  | unary _ operand => operand.slots

namespace Expr

theorem Value.length {e : Expr} {xs : List Float} {x : Float} (h : e.Value xs x) :
    xs.length = e.vars.length := by
  induction h with
  | number => rfl
  | var => rfl
  | arg _ => rfl
  | binary _ _ ihl ihr => simp only [vars, List.length_append, ihl, ihr]
  | group _ ih => exact ih
  | unary _ ih => exact ih

theorem Value.unique {e : Expr} {xs : List Float} {x y : Float} (hx : e.Value xs x)
    (hy : e.Value xs y) : x = y := by
  induction e generalizing xs x y with
  | number value =>
    cases hx
    cases hy
    rfl
  | var name =>
    cases hx
    cases hy
    rfl
  | arg raw =>
    cases hx with
    | arg hx =>
      cases hy with
      | arg hy => exact Option.some.inj (hx.symm.trans hy)
  | binary op l r ihl ihr =>
    cases hx with
    | @binary _ _ _ xs₁ xs₂ x₁ x₂ hx₁ hx₂ =>
      generalize hxs : xs₁ ++ xs₂ = xs at hy
      cases hy with
      | @binary _ _ _ ys₁ ys₂ y₁ y₂ hy₁ hy₂ =>
        -- Both lists are cut where the left operand has taken its share.
        have hlen : xs₁.length = ys₁.length := hx₁.length.trans hy₁.length.symm
        obtain ⟨rfl, rfl⟩ := List.append_inj hxs hlen
        rw [ihl hx₁ hy₁, ihr hx₂ hy₂]
  | group inner ih =>
    cases hx with
    | group hx =>
      cases hy with
      | group hy => exact ih hx hy
  | unary op operand ih =>
    cases hx with
    | unary hx =>
      cases hy with
      | unary hy => rw [ih hx hy]

theorem Realizes.value {σ : Type} {names : σ → String} {e : Expr} {p : Formula σ}
    (h : Realizes names e p) (values : σ → Float) :
    e.Value (p.slots.map values) (p.eval values) := by
  induction h with
  | number => exact .number
  | var _ => exact .var
  | arg hx => exact .arg hx
  | binary _ _ ihl ihr =>
    rw [Formula.slots, List.map_append]
    exact .binary ihl ihr
  | group _ ih => exact .group ih
  | unary _ ih => exact .unary ih

variable {n first : Nat} {e : Expr} {p : Formula (Fin n)}

theorem formula_slots {h : first + e.vars.length ≤ n} (hp : e.formula n first h = .ok p) :
    p.slots.map Fin.val = List.range' first e.vars.length := by
  induction e generalizing first p with
  | number value =>
    cases hp
    rfl
  | var name =>
    cases hp
    rfl
  | arg raw =>
    rw [formula] at hp
    split at hp
    · cases hp
      rfl
    · cases hp
  | binary op l r ihl ihr =>
    obtain ⟨pl, hl, hp⟩ := bind_eq_ok.mp hp
    obtain ⟨pr, hr, hp⟩ := bind_eq_ok.mp hp
    cases hp
    rw [Formula.slots, List.map_append, ihl hl, ihr hr, vars, List.length_append,
      List.range'_append_1]
  | group inner ih => exact ih hp
  | unary op operand ih =>
    obtain ⟨q, hq, hp⟩ := bind_eq_ok.mp hp
    cases hp
    rw [Formula.slots]
    exact ih hq

theorem formula_realizes {names before after : List String} {p : Formula (Fin names.length)}
    {h : first + e.vars.length ≤ names.length} (hp : e.formula names.length first h = .ok p)
    (hn : names = before ++ (e.vars ++ after)) (hb : before.length = first) :
    Realizes names.get e p := by
  induction e generalizing first before after p with
  | number value =>
    cases hp
    exact .number
  | var name =>
    cases hp
    apply Realizes.var
    subst hn hb
    simp [vars]
  | arg raw =>
    rw [formula] at hp
    split at hp
    · rename_i x hx
      cases hp
      exact .arg hx
    · cases hp
  | binary op l r ihl ihr =>
    obtain ⟨pl, hl, hp⟩ := bind_eq_ok.mp hp
    obtain ⟨pr, hr, hp⟩ := bind_eq_ok.mp hp
    cases hp
    have hnl : names = before ++ (l.vars ++ (r.vars ++ after)) := by
      rw [hn, vars, List.append_assoc]
    have hnr : names = (before ++ l.vars) ++ (r.vars ++ after) := by
      rw [hnl, List.append_assoc]
    have hbr : (before ++ l.vars).length = first + l.vars.length := by
      rw [List.length_append, hb]
    exact .binary (ihl hl hnl hb) (ihr hr hnr hbr)
  | group inner ih => exact .group (ih hp hn hb)
  | unary op operand ih =>
    obtain ⟨q, hq, hp⟩ := bind_eq_ok.mp hp
    cases hp
    exact .unary (ih hq hn hb)

end Expr

namespace Function

variable {e : Expr} {f : Function}

theorem exists_formula_of_compile (h : e.compile = .ok f) :
    ∃ p : Formula (Fin e.vars.length), e.formula e.vars.length 0 (Nat.zero_add _).le = .ok p ∧
      f = ⟨e.vars, p, e.text⟩ := by
  obtain ⟨p, hp, h⟩ := bind_eq_ok.mp h
  cases h
  exact ⟨p, hp, rfl⟩

theorem params_of_compile (h : e.compile = .ok f) : f.params = e.vars := by
  obtain ⟨p, _, rfl⟩ := exists_formula_of_compile h
  rfl

theorem slots_of_compile (h : e.compile = .ok f) :
    f.formula.slots = List.finRange f.params.length := by
  obtain ⟨p, hp, rfl⟩ := exists_formula_of_compile h
  apply (List.map_inj_right fun _ _ => Fin.eq_of_val_eq).mp
  rw [Expr.formula_slots hp, List.map_coe_finRange_eq_range, List.range_eq_range']

theorem realizes_of_compile (h : e.compile = .ok f) : e.Realizes f.params.get f.formula := by
  obtain ⟨p, hp, rfl⟩ := exists_formula_of_compile h
  have hn : e.vars = [] ++ (e.vars ++ []) := by simp
  exact Expr.formula_realizes hp hn rfl

theorem call_of_length {args : List Float} (h : args.length = f.params.length) :
    f.call args = .ok (f.eval args h) := dif_pos h

theorem call_of_length_ne {args : List Float} (h : args.length ≠ f.params.length) :
    f.call args = .error (.arity f.arity args.length) := dif_neg h

theorem map_get_of_length {n : Nat} {args : List Float} (h : args.length = n) :
    (List.finRange n).map (fun i => args.get (i.cast h.symm)) = args := by
  subst h
  exact List.map_getElem_finRange args

theorem value_of_compile (h : e.compile = .ok f) {args : List Float}
    (hl : args.length = f.params.length) :
    e.Value args (f.eval args hl) := by
  have hargs : f.formula.slots.map (fun i => args.get (i.cast hl.symm)) = args := by
    rw [slots_of_compile h, map_get_of_length hl]
  have hv := (realizes_of_compile h).value fun i => args.get (i.cast hl.symm)
  rwa [hargs] at hv

theorem call_eq_ok (h : e.compile = .ok f) {args : List Float} {x : Float} :
    f.call args = .ok x ↔ e.Value args x := by
  by_cases hl : args.length = f.params.length
  · have hv := value_of_compile h hl
    rw [call_of_length hl, Except.ok.injEq]
    constructor
    · rintro rfl
      exact hv
    · exact hv.unique
  · rw [call_of_length_ne hl]
    constructor
    · intro hf
      cases hf
    · intro hv
      rw [params_of_compile h] at hl
      exact absurd hv.length hl

end Function

/-- The parameters of a compiled expression are its variable leaves, and slot `i` stands for the
leaf that parameter `i` names. With one number for each of them a call yields the value of the
expression, and with any other list of numbers it yields the two lengths. -/
theorem compile_preserves_value {e : Expr} {f : Function} (h : e.compile = .ok f) :
    f.params = e.vars ∧ e.Realizes f.params.get f.formula ∧
      f.formula.slots = List.finRange f.params.length ∧
      (∀ args, args.length = e.vars.length →
        ∃ x, f.call args = .ok x ∧ ∀ y, e.Value args y ↔ y = x) ∧
      ∀ args, args.length ≠ e.vars.length →
        f.call args = .error (.arity e.vars.length args.length) := by
  have hp := Function.params_of_compile h
  refine ⟨hp, Function.realizes_of_compile h, Function.slots_of_compile h, ?_, ?_⟩
  · intro args hl
    rw [← hp] at hl
    have hc := Function.call_of_length hl
    refine ⟨_, hc, fun y => ?_⟩
    rw [← Function.call_eq_ok h, hc, Except.ok.injEq, eq_comm]
  · intro args hl
    rw [← hp] at hl ⊢
    exact Function.call_of_length_ne hl

theorem compile_preserves_value_square :
    let e : Expr := .binary .multiply (.group (.var "x")) (.unary .negative (.var "x"))
    ∃ f : Function, e.compile = .ok f ∧ f.params = ["x", "x"] ∧
      f.formula.slots = List.finRange f.params.length ∧
      f.call [3] = .error (.arity 2 1) ∧ ∃ x, f.call [3, 4] = .ok x ∧ e.Value [3, 4] x := by
  intro e
  have hc : e.compile = .ok ⟨["x", "x"],
      .binary .multiply (.slot 0) (.unary .negative (.slot 1)), e.text⟩ := rfl
  obtain ⟨hp, _, hs, hv, ha⟩ := compile_preserves_value hc
  obtain ⟨x, hx, hu⟩ := hv [3, 4] rfl
  exact ⟨_, hc, hp, hs, ha [3] (by decide), x, hx, (hu x).mpr rfl⟩

/-! ## Slots from a counter -/

namespace Formula

variable {σ τ : Type}

def map (f : σ → τ) : Formula σ → Formula τ
  | constant value => .constant value
  | slot index => .slot (f index)
  | binary op left right => .binary op (left.map f) (right.map f)
  | unary op operand => .unary op (operand.map f)

theorem eval_map (f : σ → τ) (values : τ → Float) (p : Formula σ) :
    (p.map f).eval values = p.eval (values ∘ f) := by
  induction p with
  | constant value => rfl
  | slot index => rfl
  | binary op left right ihl ihr => rw [map, eval, eval, ihl, ihr]
  | unary op operand ih => rw [map, eval, eval, ih]

end Formula

namespace Expr

/-- The formula whose slots come from a counter that every variable leaf advances. Nothing bounds
the slots here. -/
def build : Expr → StateT Nat (Except NonNumeric) (Formula Nat)
  | number value => return .constant value
  | var _ => modifyGet fun slot => (.slot slot, slot + 1)
  | arg raw =>
    match argument? raw with
    | some value => return .constant value
    | none => throw ⟨raw⟩
  | binary op left right => do
    let l ← left.build
    let r ← right.build
    return .binary op l r
  | group inner => inner.build
  | unary op operand => do
    let p ← operand.build
    return .unary op p

theorem build_eq (e : Expr) {n first : Nat} (h : first + e.vars.length ≤ n) :
    e.build.run first =
      (e.formula n first h).map fun p => (p.map Fin.val, first + e.vars.length) := by
  induction e generalizing first with
  | number value => rfl
  | var name => rfl
  | arg raw =>
    rw [build, formula]
    cases argument? raw with
    | none => rfl
    | some value => rfl
  | binary op l r ihl ihr =>
    have hv : first + (l.vars.length + r.vars.length) ≤ n := by simpa [vars] using h
    have hl := @ihl first (by omega)
    have hr := @ihr (first + l.vars.length) (by omega)
    rw [build, formula, StateT.run_bind, hl]
    cases l.formula n first (by omega) with
    | error reason => rfl
    | ok p =>
      -- The right operand counts on from where the left one has stopped.
      change (r.build >>= fun q => pure (Formula.binary op (p.map Fin.val) q)).run
        (first + l.vars.length) = _
      rw [StateT.run_bind, hr, vars, List.length_append, ← Nat.add_assoc]
      cases r.formula n (first + l.vars.length) (by omega) with
      | error reason => rfl
      | ok q => rfl
  | group inner ih => exact ih h
  | unary op operand ih =>
    rw [build, formula, StateT.run_bind, ih h]
    cases operand.formula n first h with
    | error reason => rfl
    | ok p => rfl

theorem build_eq_compile (e : Expr) :
    e.build.run 0 = e.compile.map fun f => (f.formula.map Fin.val, f.params.length) := by
  rw [build_eq e (Nat.zero_add _).le, compile]
  cases e.formula e.vars.length 0 (by omega) with
  | error reason => rfl
  | ok p =>
    rw [Nat.zero_add]
    rfl

end Expr

/-- A formula built with the counter reads the arguments of a call and nothing behind them. -/
theorem Function.call_of_build {e : Expr} {f : Function} (h : e.compile = .ok f) {p : Formula Nat}
    {count : Nat} (hp : e.build.run 0 = .ok (p, count)) (values : Nat → Float) :
    f.call ((List.range count).map values) = .ok (p.eval values) := by
  rw [Expr.build_eq_compile, h] at hp
  obtain ⟨rfl, rfl⟩ : f.formula.map Fin.val = p ∧ f.params.length = count := by
    simpa [Except.map] using hp
  have hlen : ((List.range f.params.length).map values).length = f.params.length := by simp
  rw [call_of_length hlen, Formula.eval_map, eval]
  congr 2
  funext i
  simp

/-! ## Groups -/

namespace Expr

def bare : Expr → Expr
  | number value => number value
  | var name => var name
  | arg raw => arg raw
  | binary op left right => binary op left.bare right.bare
  | group inner => inner.bare
  | unary op operand => unary op operand.bare

theorem vars_bare (e : Expr) : e.bare.vars = e.vars := by
  induction e with
  | number value => rfl
  | var name => rfl
  | arg raw => rfl
  | binary op l r ihl ihr => rw [bare, vars, vars, ihl, ihr]
  | group inner ih => exact ih
  | unary op operand ih => exact ih

theorem formula_bare (e : Expr) (n first : Nat) (h : first + e.vars.length ≤ n)
    (hb : first + e.bare.vars.length ≤ n) : e.bare.formula n first hb = e.formula n first h := by
  induction e generalizing first with
  | number value => rfl
  | var name => rfl
  | arg raw => rfl
  | binary op l r ihl ihr =>
    have hv : first + (l.vars.length + r.vars.length) ≤ n := by simpa [vars] using h
    have hl := ihl first (by omega) (by rw [vars_bare]; omega)
    have hr := ihr (first + l.vars.length) (by omega) (by rw [vars_bare]; omega)
    simp only [bare, formula, vars_bare, hl, hr]
  | group inner ih => exact ih first h hb
  | unary op operand ih =>
    have hi := ih first h hb
    simp only [bare, formula, hi]

theorem compile_map_call {n : Nat} (e : Expr) (hn : e.vars.length = n) :
    e.compile.map Function.call = (e.formula n 0 (by omega)).map fun p args =>
      if h : args.length = n then .ok (p.eval fun i => args[i])
      else .error (.arity n args.length) := by
  subst hn
  rw [compile]
  cases e.formula e.vars.length 0 (by omega) with
  | error reason => rfl
  | ok p => rfl

theorem compile_bare (e : Expr) : e.bare.compile.map Function.call = e.compile.map Function.call := by
  have hn : e.bare.vars.length = e.vars.length := congrArg List.length e.vars_bare
  rw [compile_map_call e.bare hn, compile_map_call e rfl, formula_bare]

end Expr
end MathMarkup
