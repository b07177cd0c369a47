import MathMarkup.Markup
import MathMarkup.Proofs.Evaluation
import MathMarkup.Proofs.Recognition

/-!
# Leaves in the order of the tokens

Reading tokens loses no leaf, doubles none and keeps their order. Numbers, variables and braced
arguments stand for a leaf each, except that an argument behind a subscript marker belongs to the
name of the variable in front of it. Every other token stands for none, and each opening parenthesis
is a group of the tree. So the parameters of a compiled text are its variables as they are written.
-/

namespace MathMarkup

open Grammar (bind_eq_ok)

namespace Expr

def leaves : Expr → List Expr
  | number value => [.number value]
  | var name => [.var name]
  | arg raw => [.arg raw]
  | binary _ left right => left.leaves ++ right.leaves
  | group inner => inner.leaves
  | unary _ operand => operand.leaves

def groups : Expr → Nat
  | number _ | var _ | arg _ => 0
  | binary _ left right => left.groups + right.groups
  | group inner => inner.groups + 1
  | unary _ operand => operand.groups

def name? : Expr → Option String
  | var name => some name
  | _ => none

theorem vars_eq_filterMap_leaves (e : Expr) : e.vars = e.leaves.filterMap name? := by
  induction e with
  | number value => rfl
  | var name => rfl
  | arg raw => rfl
  | binary op l r ihl ihr => rw [vars, leaves, List.filterMap_append, ihl, ihr]
  | group inner ih => exact ih
  | unary op operand ih => exact ih

theorem exists_formula {e : Expr} (h : ∀ raw, arg raw ∈ e.leaves → (argument? raw).isSome)
    {n first : Nat} (hn : first + e.vars.length ≤ n) : ∃ p, e.formula n first hn = .ok p := by
  induction e generalizing first with
  | number x => exact ⟨_, rfl⟩
  | var name => exact ⟨_, rfl⟩
  | arg raw =>
    obtain ⟨x, hx⟩ := Option.isSome_iff_exists.mp (h raw List.mem_cons_self)
    exact ⟨.constant x, by simp [formula, hx]⟩
  | binary op l r ihl ihr =>
    rw [leaves] at h
    have hv : first + (l.vars.length + r.vars.length) ≤ n := by simpa [vars] using hn
    have hl : first + l.vars.length ≤ n := by omega
    have hr : first + l.vars.length + r.vars.length ≤ n := by omega
    obtain ⟨p, hp⟩ := ihl (fun raw hm => h raw (List.mem_append_left _ hm)) hl
    obtain ⟨q, hq⟩ := ihr (fun raw hm => h raw (List.mem_append_right _ hm)) hr
    exact ⟨.binary op p q, bind_eq_ok.mpr ⟨p, hp, bind_eq_ok.mpr ⟨q, hq, rfl⟩⟩⟩
  | group e ih => exact ih h hn
  | unary op e ih =>
    obtain ⟨p, hp⟩ := ih h hn
    exact ⟨.unary op p, bind_eq_ok.mpr ⟨p, hp, rfl⟩⟩

theorem exists_compile {e : Expr}
    (h : ∀ raw, arg raw ∈ e.leaves → (argument? raw).isSome) : ∃ f, e.compile = .ok f := by
  have hn : 0 + e.vars.length ≤ e.vars.length := by omega
  obtain ⟨p, hp⟩ := exists_formula h hn
  exact ⟨⟨e.vars, p, e.text⟩, bind_eq_ok.mpr ⟨p, hp, rfl⟩⟩

end Expr

namespace Grammar

/-- The name of a variable in front of some tokens, and how many of these belong to it. A subscript
marker has to have an opening brace and an argument behind it. -/
def nameBefore? (v : Token) : List Token → Option (String × Nat)
  | [] => some (v.text, 0)
  | mark :: ts =>
    if mark.kind = .subscript then
      match ts with
      | opening :: raw :: _ =>
        if opening.kind = .argStart ∧ raw.kind = .arg then some (v.text ++ raw.text, 3) else none
      | _ => none
    else some (v.text, 0)

/-- The leaves that the tokens stand for, from left to right. -/
def leafSequence : List Token → Option (List Expr)
  | [] => some []
  | t :: ts =>
    match t.kind with
    | .number => do
      let value ← Decimal.read? t.text
      return .number value :: (← leafSequence ts)
    | .var => do
      let (name, used) ← nameBefore? t ts
      return .var name :: (← leafSequence (ts.drop used))
    | .arg => return .arg t.text :: (← leafSequence ts)
    | _ => leafSequence ts
termination_by ts => ts.length
decreasing_by all_goals simp only [List.length_drop, List.length_cons]; omega

variable {g : Grammar} {t : Token} {ts : List Token} {e : Expr}

theorem leafSequence_bare (h : t.kind ∉ [Token.Kind.number, .var, .arg]) :
    leafSequence (t :: ts) = leafSequence ts := by
  simp only [List.mem_cons, List.not_mem_nil, or_false, not_or] at h
  rw [leafSequence]
  split <;> simp_all

theorem leafSequence_arg (h : t.kind = .arg) :
    leafSequence (t :: ts) = (leafSequence ts).map (.arg t.text :: ·) := by
  rw [leafSequence, h]
  cases leafSequence ts <;> rfl

theorem leafSequence_number {x : Float} (h : t.kind = .number) (hx : Decimal.read? t.text = some x) :
    leafSequence (t :: ts) = (leafSequence ts).map (.number x :: ·) := by
  rw [leafSequence, h]
  simp only [hx]
  cases leafSequence ts <;> rfl

theorem leafSequence_var {name : String} {used : Nat} (h : t.kind = .var)
    (hn : nameBefore? t ts = some (name, used)) :
    leafSequence (t :: ts) = (leafSequence (ts.drop used)).map (.var name :: ·) := by
  rw [leafSequence, h]
  simp only [hn, Option.bind_eq_bind, Option.bind_some]
  cases leafSequence (ts.drop used) <;> rfl

/-! ## The leaves of a sentence -/

/-- In front of anything but a subscript marker the tokens stand for the given leaves. -/
def StandsFor (ts : List Token) (es : List Expr) : Prop :=
  ∀ rest, (∀ u ∈ rest.head?, u.kind ≠ .subscript) →
    leafSequence (ts ++ rest) = (leafSequence rest).map (es ++ ·)

variable {xs ys : List Token} {es fs : List Expr}

theorem standsFor_nil : StandsFor [] [] := by
  intro rest _
  cases h : leafSequence rest <;> simp [h]

theorem StandsFor.append (hx : StandsFor xs es) (hy : StandsFor ys fs)
    (hh : ∀ u ∈ ys.head?, u.kind ≠ .subscript) : StandsFor (xs ++ ys) (es ++ fs) := by
  intro rest hr
  have hn : ∀ u ∈ (ys ++ rest).head?, u.kind ≠ .subscript := by
    cases ys with
    | nil => exact hr
    | cons y ys => exact hh
  rw [List.append_assoc, hx _ hn, hy _ hr, Option.map_map]
  refine congrArg (Option.map · _) (funext fun ls => ?_)
  simp only [Function.comp_apply, List.append_assoc]

theorem StandsFor.bare (h : StandsFor ts es) (ht : t.kind ∉ [Token.Kind.number, .var, .arg]) :
    StandsFor (t :: ts) es := by
  intro rest hr
  rw [List.cons_append, leafSequence_bare ht]
  exact h rest hr

theorem Factor.standsFor (h : Factor t e) : StandsFor [t] e.leaves := by
  intro rest hr
  cases h with
  | number hk hx => exact leafSequence_number hk hx
  | var hk =>
    have hn : nameBefore? t rest = some (t.text, 0) := by
      cases rest with
      | nil => rfl
      | cons mark rest => exact if_neg (hr mark rfl)
    exact leafSequence_var hk hn

theorem Factor.kind_ne_subscript (h : Factor t e) : ∀ u ∈ [t].head?, u.kind ≠ .subscript := by
  intro u hu
  cases hu
  rcases h.kind with hk | hk <;> simp [hk]

theorem Product.standsFor (h : Product ts e) : StandsFor ts e.leaves := by
  induction h with
  | pair hs ht => exact hs.standsFor.append ht.standsFor ht.kind_ne_subscript
  | more ht hp ih =>
    refine ht.standsFor.append ih ?_
    obtain ⟨s, next, rest, rfl, hk, _⟩ := hp.head
    intro u hu
    cases hu
    rcases hk with hk | hk <;> simp [hk]

theorem Braced.standsFor {a : String} (h : Braced xs a) : StandsFor xs [.arg a] := by
  cases h with
  | @mk opening raw closing ho hr hc =>
    have hraw : StandsFor [raw] [.arg raw.text] := fun rest _ => leafSequence_arg hr
    have hclosing : StandsFor [closing] [] := standsFor_nil.bare (by simp [hc])
    exact (hraw.append hclosing (by simp [hc])).bare (by simp [ho])

theorem Braced.standsFor_subscript {v mark : Token} {a : String} (hv : v.kind = .var)
    (hm : mark.kind = .subscript) (h : Braced xs a) :
    StandsFor (v :: mark :: xs) [.var (v.text ++ a)] := by
  intro rest _
  cases h with
  | @mk opening raw closing ho hr hc =>
    have hn : nameBefore? v (mark :: opening :: raw :: closing :: rest) =
        some (v.text ++ raw.text, 3) := by simp only [nameBefore?, hm, ho, hr, and_self, if_true]
    have hclosing : leafSequence (closing :: rest) = leafSequence rest :=
      leafSequence_bare (by simp [hc])
    simp only [List.cons_append, List.nil_append, leafSequence_var hv hn, List.drop_succ_cons,
      List.drop_zero, hclosing]

theorem Braced.head_ne_subscript {a : String} (h : Braced xs a) :
    ∀ u ∈ xs.head?, u.kind ≠ .subscript := by
  cases h with
  | mk ho _ _ => simp [ho]

theorem IsBinary.bare {o : Token} {op : BinaryOp} (h : g.IsBinary o op) :
    o.kind ∉ [Token.Kind.number, .var, .arg] := by
  rcases h.1 with hk | hk <;> simp [hk]

theorem IsBinary.kind_ne_subscript {o : Token} {op : BinaryOp} (h : g.IsBinary o op) :
    ∀ u ∈ (o :: ts).head?, u.kind ≠ .subscript := by
  intro u hu
  cases hu
  rcases h.1 with hk | hk <;> simp [hk]

theorem IsUnary.bare {u : Token} {op : UnaryOp} (h : g.IsUnary u op) :
    u.kind ∉ [Token.Kind.number, .var, .arg] := by
  simp [h.1]

theorem Derives.standsFor {s : Symbol} (h : g.Derives s ts e) : StandsFor ts e.leaves := by
  induction h with
  | @group opening closing ts e ho hc _ ih =>
    have hclosing : StandsFor [closing] [] := standsFor_nil.bare (by simp [hc])
    have hinner := ih.append hclosing (by simp [hc])
    rw [List.append_nil] at hinner
    exact hinner.bare (by simp [ho])
  | bracketBinary ho hx hy =>
    exact (hx.standsFor.append hy.standsFor hy.head_ne_subscript).bare ho.bare
  | @superscript v mark xs a hv hm hx =>
    have hbase : StandsFor [v] [.var v.text] := (Factor.var hv).standsFor
    have hmark : StandsFor (mark :: xs) [.arg a] := hx.standsFor.bare (by simp [hm])
    exact hbase.append hmark (by simp [hm])
  | subscript hv hm hx => exact hx.standsFor_subscript hv hm
  | unaryBraced hu hx => exact hx.standsFor.bare hu.bare
  | unaryAtom hu _ ih => exact ih.bare hu.bare
  | product _ hp => exact hp.standsFor
  | factor hf => exact hf.standsFor
  | chainOn _ ho _ ihl ihr => exact ihl.append (ihr.bare ho.bare) ho.kind_ne_subscript
  | chainEnd _ ho _ ihl ihr => exact ihl.append (ihr.bare ho.bare) ho.kind_ne_subscript
  | ofChain _ ih => exact ih
  | ofAtom _ ih => exact ih

theorem Derives.leafSequence_eq {s : Symbol} (h : g.Derives s ts e) :
    leafSequence ts = some e.leaves := by
  have hs := h.standsFor [] (by simp)
  rw [List.append_nil] at hs
  rw [hs, leafSequence, Option.map_some, List.append_nil]

/-! ## Groups and variables are counted by their tokens -/

theorem Braced.countKind_eq_zero {a : String} (h : Braced xs a) : countKind .parenLeft xs = 0 := by
  cases h with
  | mk ho hr hc => simp [ho, hr, hc]

theorem Factor.countKind_eq (h : Factor t e) (ts : List Token) :
    e.groups = 0 ∧ countKind .parenLeft (t :: ts) = countKind .parenLeft ts := by
  cases h with
  | number hk _ => simp [Expr.groups, hk]
  | var hk => simp [Expr.groups, hk]

theorem Product.groups_eq (h : Product ts e) : e.groups = countKind .parenLeft ts := by
  induction h with
  | @pair s t x y hs ht =>
    obtain ⟨hx, hsc⟩ := hs.countKind_eq [t]
    obtain ⟨hy, htc⟩ := ht.countKind_eq []
    rw [Expr.groups, hx, hy, hsc, htc]
    rfl
  | @more t ts x y ht _ ih =>
    obtain ⟨hx, htc⟩ := ht.countKind_eq ts
    rw [Expr.groups, hx, htc, ih, Nat.zero_add]

theorem IsBinary.countKind_cons {o : Token} {op : BinaryOp} (h : g.IsBinary o op) :
    countKind .parenLeft (o :: ts) = countKind .parenLeft ts := by
  rcases h.1 with hk | hk <;> simp [hk]

theorem IsUnary.countKind_cons {u : Token} {op : UnaryOp} (h : g.IsUnary u op) :
    countKind .parenLeft (u :: ts) = countKind .parenLeft ts := by
  simp [h.1]

theorem Derives.groups_eq {s : Symbol} (h : g.Derives s ts e) :
    e.groups = countKind .parenLeft ts := by
  induction h with
  | group ho hc _ ih => simp [Expr.groups, ho, hc, ih]
  | bracketBinary ho hx hy =>
    simp [Expr.groups, ho.countKind_cons, hx.countKind_eq_zero, hy.countKind_eq_zero]
  | superscript hv hm hx => simp [Expr.groups, hv, hm, hx.countKind_eq_zero]
  | subscript hv hm hx => simp [Expr.groups, hv, hm, hx.countKind_eq_zero]
  | unaryBraced hu hx => simp [Expr.groups, hu.countKind_cons, hx.countKind_eq_zero]
  | unaryAtom hu _ ih => rw [Expr.groups, hu.countKind_cons, ih]
  | product _ hp => exact hp.groups_eq
  | factor hf =>
    obtain ⟨he, ht⟩ := hf.countKind_eq []
    rw [he, ht]
    rfl
  | chainOn _ ho _ ihl ihr => rw [Expr.groups, countKind_append, ho.countKind_cons, ihl, ihr]
  | chainEnd _ ho _ ihl ihr => rw [Expr.groups, countKind_append, ho.countKind_cons, ihl, ihr]
  | ofChain _ ih => exact ih
  | ofAtom _ ih => exact ih

theorem countKind_drop_of_nameBefore? {v : Token} {name : String} {used : Nat}
    (h : nameBefore? v ts = some (name, used)) :
    countKind .var (ts.drop used) = countKind .var ts := by
  unfold nameBefore? at h
  split at h
  · cases h
    rfl
  · rename_i mark rest
    split_ifs at h with hm
    · split at h
      · rename_i opening raw behind
        split_ifs at h with hk
        cases h
        simp [hm, hk]
      · cases h
    · cases h
      rfl

theorem length_names_of_leafSequence (h : leafSequence ts = some es) :
    (es.filterMap Expr.name?).length = countKind .var ts := by
  fun_induction leafSequence ts generalizing es with
  | case1 =>
    cases h
    rfl
  | case2 t ts hk ih =>
    obtain ⟨x, hx, h⟩ := Option.bind_eq_some_iff.mp h
    obtain ⟨ls, hl, h⟩ := Option.bind_eq_some_iff.mp h
    cases h
    rw [List.filterMap_cons_none rfl, ih hl]
    simp [hk]
  | case3 t ts hk ih =>
    obtain ⟨⟨name, used⟩, hn, h⟩ := Option.bind_eq_some_iff.mp h
    obtain ⟨ls, hl, h⟩ := Option.bind_eq_some_iff.mp h
    cases h
    have hname : (Expr.var name).name? = some name := rfl
    rw [List.filterMap_cons_some hname, List.length_cons, ih used hl,
      countKind_drop_of_nameBefore? hn]
    simp [hk]
  | case4 t ts hk ih =>
    obtain ⟨ls, hl, h⟩ := Option.bind_eq_some_iff.mp h
    cases h
    rw [List.filterMap_cons_none rfl, ih hl]
    simp [hk]
  | case5 t ts _ hv _ ih => rw [ih h, countKind_cons, if_neg hv, Nat.add_zero]

end Grammar

open Grammar

theorem compile_eq_ok {text : String} {f : Function} :
    compile text = .ok f ↔ ∃ e, parse text = .ok e ∧ e.compile = .ok f := by
  constructor
  · intro h
    obtain ⟨e, he, h⟩ := bind_eq_ok.mp h
    cases hp : parse text with
    | error failure =>
      rw [hp] at he
      cases he
    | ok e' =>
      rw [hp] at he
      cases he
      refine ⟨e, rfl, ?_⟩
      cases hc : e.compile with
      | error reason =>
        rw [hc] at h
        cases h
      | ok f' =>
        rw [hc] at h
        cases h
        rfl
  · rintro ⟨e, he, hc⟩
    refine bind_eq_ok.mpr ⟨e, by rw [he]; rfl, by rw [hc]; rfl⟩

/-- The leaves of a tree are those that its tokens stand for, in their order, and its groups are as
many as the opening parentheses. So a compiled text has one parameter for each of its variables. -/
theorem parse_preserves_leaves :
    (∀ (g : Grammar) (ts : List Token) (e : Expr), g.parseComplete ts = .ok e →
      leafSequence ts = some e.leaves ∧ e.groups = countKind .parenLeft ts) ∧
    ∀ (text : String) (f : Function), compile text = .ok f →
      f.arity = countKind .var (lex text) ∧
        ∃ es, leafSequence (lex text) = some es ∧ f.params = es.filterMap Expr.name? := by
  constructor
  · intro g ts e h
    have hd := parseComplete_eq_ok.mp h
    exact ⟨hd.leafSequence_eq, hd.groups_eq⟩
  · intro text f h
    obtain ⟨e, he, hc⟩ := compile_eq_ok.mp h
    have hl := (parseComplete_eq_ok.mp he).leafSequence_eq
    have hp : f.params = e.leaves.filterMap Expr.name? := by
      rw [Function.params_of_compile hc, e.vars_eq_filterMap_leaves]
    refine ⟨?_, e.leaves, hl, hp⟩
    rw [Function.arity, hp, length_names_of_leafSequence hl]

theorem parse_preserves_leaves_subscript :
    ∃ e f, (Grammar.standard false).parseComplete (lex "x_{1}+x") = .ok e ∧
      compile "x_{1}+x" = .ok f ∧ leafSequence (lex "x_{1}+x") = some e.leaves ∧
      e.groups = countKind .parenLeft (lex "x_{1}+x") ∧
      f.arity = countKind .var (lex "x_{1}+x") := by
  have hlex : lex "x_{1}+x" = [⟨.var, "x", 0, 1⟩, ⟨.subscript, "_", 1, 2⟩,
      ⟨.argStart, "\x7b", 2, 3⟩, ⟨.arg, "1", 3, 4⟩, ⟨.argEnd, "\x7d", 4, 5⟩,
      ⟨.command, "+", 5, 6⟩, ⟨.var, "x", 6, 7⟩] := by
    rw [lex]
    iterate 8 rw [Scanner.tokens_eq]
    rfl
  let e : Expr := .binary .add (.var ("x" ++ "1")) (.var "x")
  have hd : (Grammar.standard false).Derives .chain (lex "x_{1}+x") e := by
    have hl : (Grammar.standard false).Derives .atom ((lex "x_{1}+x").take 5) (.var ("x" ++ "1")) := by
      rw [hlex]
      exact .subscript rfl rfl (.mk rfl rfl rfl)
    have ho : (Grammar.standard false).IsBinary ⟨.command, "+", 5, 6⟩ .add := ⟨.inl rfl, by decide⟩
    have hc := Derives.chainEnd hl ho (.factor (t := ⟨.var, "x", 6, 7⟩) (.var rfl))
    rw [hlex] at hc ⊢
    exact hc
  have hp : (Grammar.standard false).parseComplete (lex "x_{1}+x") = .ok e :=
    parseComplete_eq_ok.mpr (.ofChain hd)
  have hc : compile "x_{1}+x" =
      .ok ⟨["x" ++ "1", "x"], .binary .add (.slot 0) (.slot 1), e.text⟩ := by
    rw [compile, parse, hp]
    rfl
  obtain ⟨hl, hg⟩ := parse_preserves_leaves.1 _ _ _ hp
  exact ⟨_, _, hp, hc, hl, hg, (parse_preserves_leaves.2 _ _ hc).1⟩

end MathMarkup
