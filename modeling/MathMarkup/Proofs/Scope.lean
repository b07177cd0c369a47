import Mathlib.Tactic.Common
import MathMarkup.Grammar.Scope

/-!
# Matching delimiters

A cut at a delimiter puts the list together again from the opening token, what stands inside, the
closing token and the rest.
-/

namespace MathMarkup.Grammar

variable {opener closer : Token.Kind}

theorem closeScope_append {depth : Nat} {ts : List Token} {split : Split}
    (h : closeScope opener closer depth ts = some split) :
    ∃ close, close.kind = closer ∧ ts = split.inside ++ close :: split.remainder := by
  induction ts generalizing depth split with
  | nil => simp [closeScope] at h
  | cons t ts ih =>
    have within : ∀ {d : Nat},
        (closeScope opener closer d ts).map (closeScope.keep t) = some split →
          ∃ close, close.kind = closer ∧ t :: ts = split.inside ++ close :: split.remainder := by
      intro d hd
      obtain ⟨inner, hi, rfl⟩ := Option.map_eq_some_iff.mp hd
      obtain ⟨close, hc, rfl⟩ := ih hi
      exact ⟨close, hc, rfl⟩
    simp only [closeScope] at h
    split_ifs at h with ho hc
    · exact within h
    · cases depth with
      | zero =>
        cases h
        exact ⟨t, hc, rfl⟩
      | succ depth => exact within h
    · exact within h

theorem balancedScope_append {ts : List Token} {split : Split}
    (h : balancedScope opener closer ts = .ok split) :
    ∃ first close, first.kind = opener ∧ close.kind = closer ∧
      ts = first :: (split.inside ++ close :: split.remainder) := by
  cases ts with
  | nil => cases h
  | cons first rest =>
    simp only [balancedScope] at h
    split_ifs at h with hc ho
    split at h
    · rename_i inner hi
      cases h
      obtain ⟨close, hk, rfl⟩ := closeScope_append hi
      exact ⟨first, close, not_not.mp ho, hk, rfl⟩
    · cases h

/-! ## Counting tokens of a kind -/

def countKind (kind : Token.Kind) (ts : List Token) : Nat := ts.countP (·.kind = kind)

variable {kind : Token.Kind}

@[simp] theorem countKind_nil : countKind kind [] = 0 := rfl

@[simp] theorem countKind_cons (t : Token) (ts : List Token) :
    countKind kind (t :: ts) = countKind kind ts + if t.kind = kind then 1 else 0 := by
  simp only [countKind, List.countP_cons, decide_eq_true_eq]

@[simp] theorem countKind_append (xs ys : List Token) :
    countKind kind (xs ++ ys) = countKind kind xs + countKind kind ys := List.countP_append

end MathMarkup.Grammar
