import Mathlib.Tactic.Common
import MathMarkup.Decimal.Read
import MathMarkup.Grammar.Rule
import MathMarkup.Proofs.Scope

/-!
# Sentences

The language of a grammar by its productions, with the tree of each sentence and apart from any way
of reading it. An atom is a group, a script, an operator with its braced arguments or its atom, a
number or a variable; a chain is an atom, an operator, and a chain or an atom; an expression is a
chain or an atom. With implicit products a run of factors is an atom too.
-/

namespace MathMarkup.Grammar

inductive Symbol
  | atom | chain | expression
  deriving DecidableEq, Repr

def IsBinary (g : Grammar) (t : Token) (op : BinaryOp) : Prop :=
  (t.kind = .command ∨ t.kind = .superscript) ∧ g.meaning t.text = some (.binary op)

def IsUnary (g : Grammar) (t : Token) (op : UnaryOp) : Prop :=
  t.kind = .command ∧ g.meaning t.text = some (.unary op)

inductive Braced : List Token → String → Prop
  | mk {opening raw closing : Token} : opening.kind = .argStart → raw.kind = .arg →
      closing.kind = .argEnd → Braced [opening, raw, closing] raw.text

inductive Factor : Token → Expr → Prop
  | number {t : Token} {x : Float} : t.kind = .number → Decimal.read? t.text = some x →
      Factor t (.number x)
  | var {t : Token} : t.kind = .var → Factor t (.var t.text)

inductive Product : List Token → Expr → Prop
  | pair {s t : Token} {x y : Expr} : Factor s x → Factor t y →
      Product [s, t] (.binary .multiply x y)
  | more {t : Token} {ts : List Token} {x y : Expr} : Factor t x → Product ts y →
      Product (t :: ts) (.binary .multiply x y)

inductive Derives (g : Grammar) : Symbol → List Token → Expr → Prop
  | group {opening closing : Token} {ts : List Token} {e : Expr} : opening.kind = .parenLeft →
      closing.kind = .parenRight → Derives g .expression ts e →
      Derives g .atom (opening :: (ts ++ [closing])) (.group e)
  | bracketBinary {o : Token} {op : BinaryOp} {xs ys : List Token} {a b : String} :
      g.IsBinary o op → Braced xs a → Braced ys b →
      Derives g .atom (o :: (xs ++ ys)) (.binary op (.arg a) (.arg b))
  | superscript {v mark : Token} {xs : List Token} {a : String} : v.kind = .var →
      mark.kind = .superscript → Braced xs a →
      Derives g .atom (v :: mark :: xs) (.binary .pow (.var v.text) (.arg a))
  | subscript {v mark : Token} {xs : List Token} {a : String} : v.kind = .var →
      mark.kind = .subscript → Braced xs a → Derives g .atom (v :: mark :: xs) (.var (v.text ++ a))
  | unaryBraced {u : Token} {op : UnaryOp} {xs : List Token} {a : String} : g.IsUnary u op →
      Braced xs a → Derives g .atom (u :: xs) (.unary op (.arg a))
  | unaryAtom {u : Token} {op : UnaryOp} {ts : List Token} {e : Expr} : g.IsUnary u op →
      Derives g .atom ts e → Derives g .atom (u :: ts) (.unary op e)
  | product {ts : List Token} {e : Expr} : g.implicitProducts = true → Product ts e →
      Derives g .atom ts e
  | factor {t : Token} {e : Expr} : Factor t e → Derives g .atom [t] e
  | chainOn {left right : List Token} {o : Token} {op : BinaryOp} {x y : Expr} :
      Derives g .atom left x → g.IsBinary o op → Derives g .chain right y →
      Derives g .chain (left ++ o :: right) (.binary op x y)
  | chainEnd {left right : List Token} {o : Token} {op : BinaryOp} {x y : Expr} :
      Derives g .atom left x → g.IsBinary o op → Derives g .atom right y →
      Derives g .chain (left ++ o :: right) (.binary op x y)
  | ofChain {ts : List Token} {e : Expr} : Derives g .chain ts e → Derives g .expression ts e
  | ofAtom {ts : List Token} {e : Expr} : Derives g .atom ts e → Derives g .expression ts e

variable {g : Grammar}

theorem Factor.kind {t : Token} {e : Expr} (h : Factor t e) : t.kind = .number ∨ t.kind = .var := by
  cases h with
  | number hk _ => exact .inl hk
  | var hk => exact .inr hk

theorem Product.head {ts : List Token} {e : Expr} (h : Product ts e) :
    ∃ t next rest, ts = t :: next :: rest ∧ (t.kind = .number ∨ t.kind = .var) ∧
      (next.kind = .number ∨ next.kind = .var) := by
  cases h with
  | pair hs ht => exact ⟨_, _, _, rfl, hs.kind, ht.kind⟩
  | more ht hp =>
    cases hp with
    | pair hs _ => exact ⟨_, _, _, rfl, ht.kind, hs.kind⟩
    | more hs _ => exact ⟨_, _, _, rfl, ht.kind, hs.kind⟩

theorem Derives.head {s : Symbol} {ts : List Token} {e : Expr} (h : g.Derives s ts e) :
    ∃ t rest, ts = t :: rest ∧ t.kind ≠ .argStart := by
  induction h with
  | group ho _ _ _ => exact ⟨_, _, rfl, by simp [ho]⟩
  | bracketBinary ho _ _ => exact ⟨_, _, rfl, by rcases ho.1 with hk | hk <;> simp [hk]⟩
  | superscript hv _ _ => exact ⟨_, _, rfl, by simp [hv]⟩
  | subscript hv _ _ => exact ⟨_, _, rfl, by simp [hv]⟩
  | unaryBraced hu _ => exact ⟨_, _, rfl, by simp [hu.1]⟩
  | unaryAtom hu _ _ => exact ⟨_, _, rfl, by simp [hu.1]⟩
  | product _ hp =>
    obtain ⟨t, next, rest, rfl, hk, _⟩ := hp.head
    exact ⟨t, next :: rest, rfl, by rcases hk with hk | hk <;> simp [hk]⟩
  | factor hf => exact ⟨_, _, rfl, by rcases hf.kind with hk | hk <;> simp [hk]⟩
  | chainOn _ _ _ ih _ =>
    obtain ⟨t, rest, rfl, hk⟩ := ih
    exact ⟨t, _, rfl, hk⟩
  | chainEnd _ _ _ ih _ =>
    obtain ⟨t, rest, rfl, hk⟩ := ih
    exact ⟨t, _, rfl, hk⟩
  | ofChain _ ih => exact ih
  | ofAtom _ ih => exact ih

theorem Derives.ne_nil {s : Symbol} {ts : List Token} {e : Expr} (h : g.Derives s ts e) :
    ts ≠ [] := by
  obtain ⟨t, rest, rfl, _⟩ := h.head
  exact List.cons_ne_nil t rest

/-! ## Parentheses in a sentence -/

/-- Tokens that a search for a closing parenthesis runs over without a change of depth. -/
def Balanced (ts : List Token) : Prop :=
  ∀ depth rest, closeScope .parenLeft .parenRight depth (ts ++ rest) =
    (closeScope .parenLeft .parenRight depth rest).map fun s => { s with inside := ts ++ s.inside }

theorem balanced_append {xs ys : List Token} (hx : Balanced xs) (hy : Balanced ys) :
    Balanced (xs ++ ys) := by
  intro depth rest
  rw [List.append_assoc, hx, hy, Option.map_map]
  refine congrArg (Option.map · _) (funext fun s => ?_)
  simp only [Function.comp_apply, List.append_assoc]

theorem balanced_cons {t : Token} {ts : List Token} (hl : t.kind ≠ .parenLeft)
    (hr : t.kind ≠ .parenRight) (h : Balanced ts) : Balanced (t :: ts) := by
  intro depth rest
  simp only [List.cons_append, closeScope, if_neg hl, if_neg hr, h depth rest, Option.map_map]
  rfl

theorem balanced_nil : Balanced [] := by
  intro depth rest
  cases h : closeScope .parenLeft .parenRight depth rest <;> simp [h]

theorem balanced_group {opening closing : Token} {ts : List Token}
    (ho : opening.kind = .parenLeft) (hc : closing.kind = .parenRight) (h : Balanced ts) :
    Balanced (opening :: (ts ++ [closing])) := by
  intro depth rest
  have hn : closing.kind ≠ .parenLeft := by simp [hc]
  simp only [List.cons_append, List.append_assoc, List.nil_append, closeScope, if_pos ho,
    if_neg hn, if_pos hc, h (depth + 1) (closing :: rest), Option.map_map]
  refine congrArg (Option.map · _) (funext fun s => ?_)
  simp [closeScope.keep]

theorem Braced.balanced {xs : List Token} {a : String} (h : Braced xs a) : Balanced xs := by
  cases h with
  | mk ho hr hc =>
    exact balanced_cons (by simp [ho]) (by simp [ho]) (balanced_cons (by simp [hr]) (by simp [hr])
      (balanced_cons (by simp [hc]) (by simp [hc]) balanced_nil))

theorem Factor.balanced {t : Token} {e : Expr} (h : Factor t e) {ts : List Token}
    (hts : Balanced ts) : Balanced (t :: ts) := by
  rcases h.kind with hk | hk <;> exact balanced_cons (by simp [hk]) (by simp [hk]) hts

theorem Product.balanced {ts : List Token} {e : Expr} (h : Product ts e) : Balanced ts := by
  induction h with
  | pair hs ht => exact hs.balanced (ht.balanced balanced_nil)
  | more ht _ ih => exact ht.balanced ih

theorem IsBinary.balanced {o : Token} {op : BinaryOp} (h : g.IsBinary o op) {ts : List Token}
    (hts : Balanced ts) : Balanced (o :: ts) := by
  rcases h.1 with hk | hk <;> exact balanced_cons (by simp [hk]) (by simp [hk]) hts

theorem IsUnary.balanced {u : Token} {op : UnaryOp} (h : g.IsUnary u op) {ts : List Token}
    (hts : Balanced ts) : Balanced (u :: ts) :=
  balanced_cons (by simp [h.1]) (by simp [h.1]) hts

theorem Derives.balanced {s : Symbol} {ts : List Token} {e : Expr} (h : g.Derives s ts e) :
    Balanced ts := by
  induction h with
  | group ho hc _ ih => exact balanced_group ho hc ih
  | bracketBinary ho hx hy => exact ho.balanced (balanced_append hx.balanced hy.balanced)
  | superscript hv hm hx =>
    exact balanced_cons (by simp [hv]) (by simp [hv])
      (balanced_cons (by simp [hm]) (by simp [hm]) hx.balanced)
  | subscript hv hm hx =>
    exact balanced_cons (by simp [hv]) (by simp [hv])
      (balanced_cons (by simp [hm]) (by simp [hm]) hx.balanced)
  | unaryBraced hu hx => exact hu.balanced hx.balanced
  | unaryAtom hu _ ih => exact hu.balanced ih
  | product _ hp => exact hp.balanced
  | factor hf => exact hf.balanced balanced_nil
  | chainOn _ ho _ ihl ihr => exact balanced_append ihl (ho.balanced ihr)
  | chainEnd _ ho _ ihl ihr => exact balanced_append ihl (ho.balanced ihr)
  | ofChain _ ih => exact ih
  | ofAtom _ ih => exact ih

end MathMarkup.Grammar
