import MathMarkup.Proofs.Evaluation

/-!
# Values by name

An environment binds names to numbers, and leaves some names unbound. The value of an expression in
an environment is built up like its value at a list of numbers, but each variable leaf takes what
its name is bound to, so that leaves of one name agree. A call by name yields this value, or else
the leftmost leaf whose name is unbound.
-/

namespace MathMarkup

open Grammar (bind_eq_ok)

variable {env : String → Option Float}

namespace Expr

/-- The value of an expression whose variable leaves take what the environment binds their names
to. -/
inductive ValueIn (env : String → Option Float) : Expr → Float → Prop
  | number {x : Float} : ValueIn env (.number x) x
  | var {name : String} {x : Float} : env name = some x → ValueIn env (.var name) x
  | arg {raw : String} {x : Float} : argument? raw = some x → ValueIn env (.arg raw) x
  | binary {op : BinaryOp} {l r : Expr} {x y : Float} : ValueIn env l x → ValueIn env r y →
      ValueIn env (.binary op l r) (op.apply x y)
  | group {e : Expr} {x : Float} : ValueIn env e x → ValueIn env (.group e) x
  | unary {op : UnaryOp} {e : Expr} {x : Float} : ValueIn env e x →
      ValueIn env (.unary op e) (op.apply x)

variable {e : Expr} {x : Float}

theorem ValueIn.exists_value (h : e.ValueIn env x) :
    ∃ args, e.vars.map env = args.map some ∧ e.Value args x := by
  induction h with
  | number => exact ⟨[], rfl, .number⟩
  | @var name x hx => exact ⟨[x], by simp [vars, hx], .var⟩
  | arg hx => exact ⟨[], rfl, .arg hx⟩
  | binary _ _ ihl ihr =>
    obtain ⟨xs, hxs, hl⟩ := ihl
    obtain ⟨ys, hys, hr⟩ := ihr
    exact ⟨xs ++ ys, by rw [vars, List.map_append, List.map_append, hxs, hys], .binary hl hr⟩
  | group _ ih =>
    obtain ⟨xs, hxs, hv⟩ := ih
    exact ⟨xs, hxs, .group hv⟩
  | unary _ ih =>
    obtain ⟨xs, hxs, hv⟩ := ih
    exact ⟨xs, hxs, .unary hv⟩

theorem Value.valueIn {args : List Float} (h : e.Value args x)
    (ha : e.vars.map env = args.map some) : e.ValueIn env x := by
  induction h with
  | number => exact .number
  | var => exact .var (List.cons.inj ha).1
  | arg hx => exact .arg hx
  | @binary op l r xs ys _ _ hl _ ihl ihr =>
    rw [vars, List.map_append, List.map_append] at ha
    -- The left operand takes as many of the numbers as it has leaves.
    have hlen : (l.vars.map env).length = (xs.map some).length := by
      rw [List.length_map, List.length_map, hl.length]
    obtain ⟨hxs, hys⟩ := List.append_inj ha hlen
    exact .binary (ihl hxs) (ihr hys)
  | group _ ih => exact .group (ih ha)
  | unary _ ih => exact .unary (ih ha)

theorem valueIn_iff :
    e.ValueIn env x ↔ ∃ args, e.vars.map env = args.map some ∧ e.Value args x := by
  constructor
  · exact ValueIn.exists_value
  · rintro ⟨args, ha, hv⟩
    exact hv.valueIn ha

end Expr

/-! ## Looking names up -/

namespace Function

variable {names : List String}

theorem lookupAll_eq_ok {args : { args : List Float // args.length = names.length }} :
    lookupAll env names = .ok args ↔ names.map env = args.1.map some := by
  constructor
  · intro h
    induction names with
    | nil =>
      cases h
      rfl
    | cons name names ih =>
      rw [lookupAll] at h
      split at h
      · cases h
      · rename_i value hv
        obtain ⟨values, hs, h⟩ := bind_eq_ok.mp h
        cases h
        rw [List.map_cons, List.map_cons, hv, ih hs]
  · intro h
    induction names with
    | nil =>
      obtain ⟨args, hlen⟩ := args
      obtain rfl := List.length_eq_zero_iff.mp hlen
      rfl
    | cons name names ih =>
      obtain ⟨_ | ⟨value, args⟩, hlen⟩ := args
      · cases h
      · obtain ⟨hv, hrest⟩ := List.cons.inj h
        have hok : lookupAll env names = .ok ⟨args, Nat.succ.inj hlen⟩ := ih hrest
        rw [lookupAll, hv, hok]
        rfl

theorem lookupAll_of_unbound {before after : List String} {name : String}
    (hb : ∀ n ∈ before, (env n).isSome) (hn : env name = none) :
    lookupAll env (before ++ name :: after) = .error (.unbound name) := by
  induction before with
  | nil => simp only [List.nil_append, lookupAll, hn]
  | cons first before ih =>
    obtain ⟨value, hv⟩ := Option.isSome_iff_exists.mp (hb first List.mem_cons_self)
    have hrest := ih fun n hm => hb n (List.mem_cons_of_mem first hm)
    simp only [List.cons_append, lookupAll, hv, hrest]
    rfl

theorem lookupAll_congr {env' : String → Option Float} (h : ∀ name ∈ names, env' name = env name) :
    lookupAll env' names = lookupAll env names := by
  induction names with
  | nil => rfl
  | cons name names ih =>
    have hrest := ih fun n hn => h n (List.mem_cons_of_mem name hn)
    simp only [lookupAll, h name List.mem_cons_self, hrest]

theorem exists_map_some (h : ∀ name ∈ names, (env name).isSome) :
    ∃ args : List Float, names.map env = args.map some := by
  induction names with
  | nil => exact ⟨[], rfl⟩
  | cons name names ih =>
    obtain ⟨value, hv⟩ := Option.isSome_iff_exists.mp (h name List.mem_cons_self)
    obtain ⟨args, ha⟩ := ih fun n hn => h n (List.mem_cons_of_mem name hn)
    exact ⟨value :: args, by rw [List.map_cons, List.map_cons, hv, ha]⟩

theorem exists_first_unbound (h : ∃ name ∈ names, env name = none) :
    ∃ before name after, names = before ++ name :: after ∧ (∀ n ∈ before, (env n).isSome) ∧
      env name = none := by
  obtain ⟨missing, hm, hn⟩ := h
  have hf : (names.find? fun n => (env n).isNone).isSome :=
    List.find?_isSome.mpr ⟨missing, hm, by rw [hn]; rfl⟩
  obtain ⟨name, hname⟩ := Option.isSome_iff_exists.mp hf
  obtain ⟨hnone, before, after, hs, hb⟩ := List.find?_eq_some_iff_append.mp hname
  exact ⟨before, name, after, hs, by simpa using hb, Option.isNone_iff_eq_none.mp hnone⟩

/-! ## Calls by name -/

variable {e : Expr} {f : Function}

/-- A call by name is the call with what the names stand for: its check of the length never fails. -/
theorem callWith_eq_call (f : Function) (env : String → Option Float) :
    f.callWith env = lookupAll env f.params >>= fun args => f.call args.1 := by
  rw [callWith]
  congr 1
  funext args
  exact (call_of_length args.2).symm

theorem callWith_of_bound {args : List Float} (h : f.params.map env = args.map some) :
    f.callWith env = f.call args := by
  have hlen : args.length = f.params.length := by
    rw [← List.length_map (f := some), ← h, List.length_map]
  have hok : lookupAll env f.params = .ok ⟨args, hlen⟩ := lookupAll_eq_ok.mpr h
  rw [callWith_eq_call, hok]
  rfl

theorem callWith_eq_ok (h : e.compile = .ok f) {x : Float} :
    f.callWith env = .ok x ↔ e.ValueIn env x := by
  rw [callWith_eq_call, bind_eq_ok, Expr.valueIn_iff, ← params_of_compile h]
  simp only [lookupAll_eq_ok, call_eq_ok h, Subtype.exists]
  constructor
  · rintro ⟨args, _, ha, hv⟩
    exact ⟨args, ha, hv⟩
  · rintro ⟨args, ha, hv⟩
    exact ⟨args, by rw [params_of_compile h, hv.length], ha, hv⟩

end Function

/-- A call by name yields the value of the expression in the environment as soon as all its names
are bound, and then it is the call with what the parameters are bound to. Otherwise it yields the
leftmost variable leaf whose name is unbound. Names that the expression does not have play no
part. -/
theorem callWith_preserves_value {e : Expr} {f : Function} (h : e.compile = .ok f)
    (env : String → Option Float) :
    ((∀ name ∈ e.vars, (env name).isSome) →
      ∃ args x, f.params.map env = args.map some ∧ f.callWith env = f.call args ∧
        f.callWith env = .ok x ∧ ∀ y, e.ValueIn env y ↔ y = x) ∧
    ((∃ name ∈ e.vars, env name = none) →
      ∃ before name after, e.vars = before ++ name :: after ∧ (∀ n ∈ before, (env n).isSome) ∧
        env name = none ∧ f.callWith env = .error (.unbound name)) ∧
    ∀ env', (∀ name ∈ e.vars, env' name = env name) → f.callWith env' = f.callWith env := by
  have hp := Function.params_of_compile h
  refine ⟨fun hbound => ?_, fun hmissing => ?_, fun env' hagree => ?_⟩
  · obtain ⟨args, ha⟩ := Function.exists_map_some hbound
    have hlen : args.length = f.params.length := by
      rw [hp, ← List.length_map (f := env), ha, List.length_map]
    rw [← hp] at ha
    have hcall := Function.callWith_of_bound ha
    have hx := hcall.trans (Function.call_of_length hlen)
    refine ⟨args, _, ha, hcall, hx, fun y => ?_⟩
    rw [← Function.callWith_eq_ok h, hx, Except.ok.injEq, eq_comm]
  · obtain ⟨before, name, after, hs, hb, hn⟩ := Function.exists_first_unbound hmissing
    refine ⟨before, name, after, hs, hb, hn, ?_⟩
    rw [Function.callWith_eq_call, hp, hs, Function.lookupAll_of_unbound hb hn]
    rfl
  · rw [Function.callWith_eq_call, Function.callWith_eq_call, hp, Function.lookupAll_congr hagree]

theorem callWith_preserves_value_product :
    let e : Expr := .binary .multiply (.var "x") (.group (.binary .add (.var "y") (.var "x")))
    let env : String → Option Float := fun name => if name = "x" then some 3 else none
    let full : String → Option Float := fun name => if name = "y" then some 4 else env name
    ∃ f : Function, e.compile = .ok f ∧
      (∃ before after, e.vars = before ++ "y" :: after ∧ (∀ n ∈ before, (env n).isSome) ∧
        f.callWith env = .error (.unbound "y")) ∧
      ∃ x, f.callWith full = .ok x ∧ f.call [3, 4, 3] = .ok x ∧ e.ValueIn full x := by
  intro e env full
  have hc : e.compile = .ok ⟨["x", "y", "x"],
      .binary .multiply (.slot 0) (.binary .add (.slot 1) (.slot 2)), e.text⟩ := rfl
  refine ⟨_, hc, ?_, ?_⟩
  · obtain ⟨before, name, after, hs, hb, _, hf⟩ :=
      (callWith_preserves_value hc env).2.1 ⟨"y", by decide, rfl⟩
    have hname : CallError.unbound "y" = .unbound name := Except.error.inj hf
    cases hname
    exact ⟨before, after, hs, hb, hf⟩
  · obtain ⟨args, x, ha, hcall, hx, hu⟩ := (callWith_preserves_value hc full).1 (by decide)
    have hargs : args = [3, 4, 3] :=
      List.map_injective_iff.mpr (Option.some_injective Float) ha.symm
    rw [hargs] at hcall
    exact ⟨x, hx, hcall.symm.trans hx, (hu x).mpr rfl⟩

end MathMarkup
