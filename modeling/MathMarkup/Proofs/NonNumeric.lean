import MathMarkup.Proofs.Leftmost
import MathMarkup.Proofs.Literals

/-!
# Arguments that are no numbers

Only a braced argument can keep an expression from being compiled: one whose text, without the blanks
around it, is not made of digits with at most one point among them. However deep such arguments lie,
the leftmost of them is the one that is reported.
-/

namespace MathMarkup

/-- A text of digits and not more than one point, with at least one digit. -/
structure PlainNumber (text : String) : Prop where
  shape : ∀ c ∈ text.toList, c.isDigit ∨ c = '.'
  points : text.toList.count '.' ≤ 1
  digits : ∃ c ∈ text.toList, c.isDigit

theorem isSome_argument?_iff_plainNumber {raw : String} :
    (argument? raw).isSome ↔ PlainNumber (Text.trim raw) := by
  rw [isSome_argument?_iff]
  simp only [Token.isNumeral, Bool.or_eq_true, decide_eq_true_eq]
  exact ⟨fun h => ⟨h.1, h.2.1, h.2.2⟩, fun h => ⟨h.shape, h.points, h.digits⟩⟩

namespace Expr

inductive Valueless : Expr → NonNumeric → Prop
  | arg {raw : String} : ¬ PlainNumber (Text.trim raw) → Valueless (.arg raw) ⟨raw⟩

variable {raw : String} {reason : NonNumeric}

theorem not_valueless_number (value : Float) (reason : NonNumeric) :
    ¬ Valueless (.number value) reason := by
  rintro ⟨⟩

theorem not_valueless_var (name : String) (reason : NonNumeric) :
    ¬ Valueless (.var name) reason := by
  rintro ⟨⟩

theorem valueless_arg :
    Valueless (.arg raw) reason ↔ argument? raw = none ∧ reason = ⟨raw⟩ := by
  rw [← Option.not_isSome_iff_eq_none, isSome_argument?_iff_plainNumber]
  constructor
  · rintro ⟨h⟩
    exact ⟨h, rfl⟩
  · rintro ⟨h, rfl⟩
    exact .arg h

theorem formula_surveys (e : Expr) {n first : Nat} (h : first + e.vars.length ≤ n) :
    Surveys Valueless e.leaves (e.formula n first h) := by
  induction e generalizing first with
  | number value => exact (Surveys.ok _).cons (not_valueless_number value)
  | var name => exact (Surveys.ok _).cons (not_valueless_var name)
  | arg raw =>
    rw [formula]
    cases hv : argument? raw with
    | none => exact .error fun reason => by simp [valueless_arg, hv]
    | some value => exact (Surveys.ok _).cons fun reason => by simp [valueless_arg, hv]
  | binary op l r ihl ihr => exact (ihl _).bind fun p _ => (ihr _).bind_pure
  | group inner ih => exact ih h
  | unary op operand ih => exact (ih h).bind_pure

theorem compile_surveys (e : Expr) : Surveys Valueless e.leaves e.compile :=
  (e.formula_surveys _).bind_pure

end Expr

/-- An expression does not compile exactly if it has an argument that is no plain number when the
blanks around it are left out. The leftmost of these arguments is quoted as it is written. -/
theorem compile_fails_at_leftmost (e : Expr) :
    ((∃ reason, e.compile = .error reason) ↔
      ∃ raw, .arg raw ∈ e.leaves ∧ ¬ PlainNumber (Text.trim raw)) ∧
    (∀ reason, e.compile = .error reason ↔
      ∃ raw before after, e.leaves = before ++ .arg raw :: after ∧
        ¬ PlainNumber (Text.trim raw) ∧
        (∀ other, .arg other ∈ before → PlainNumber (Text.trim other)) ∧ reason = ⟨raw⟩) ∧
    (∀ raw, (⟨raw⟩ : NonNumeric).message =
      "unsupported construct: non-numeric argument `" ++ raw ++ "`") ∧
    ((∀ raw, .arg raw ∉ e.leaves) → ∃ f, e.compile = .ok f) := by
  have hs := e.compile_surveys
  refine ⟨?_, fun reason => ?_, fun raw => rfl, fun hnone => ?_⟩
  · rw [exists_congr hs, exists_leftmost]
    constructor
    · rintro ⟨leaf, hm, reason, @⟨raw, hraw⟩⟩
      exact ⟨raw, hm, hraw⟩
    · rintro ⟨raw, hm, hraw⟩
      exact ⟨_, hm, _, .arg hraw⟩
  · rw [hs reason]
    constructor
    · rintro ⟨before, leaf, after, hleaves, @⟨raw, hraw⟩, hbefore⟩
      refine ⟨raw, before, after, hleaves, hraw, fun other hm => ?_, rfl⟩
      by_contra hother
      exact hbefore _ hm _ (.arg hother)
    · rintro ⟨raw, before, after, hleaves, hraw, hbefore, rfl⟩
      refine ⟨before, _, after, hleaves, .arg hraw, ?_⟩
      rintro leaf hm reason @⟨other, hother⟩
      exact hother (hbefore other hm)
  · exact Expr.exists_compile fun raw hm => absurd hm (hnone raw)

theorem compile_fails_at_leftmost_nested :
    (Expr.binary .divide (.group (.arg " 3 ")) (.unary .negative
      (.binary .multiply (.arg "1.2.3") (.arg "a")))).compile = .error ⟨"1.2.3"⟩ ∧
    ∃ f, (Expr.binary .add (.var "x") (.number 2)).compile = .ok f := by
  have hthree : PlainNumber (Text.trim " 3 ") := by
    refine ⟨fun c hc => .inl ?_, by decide, '3', by decide, by decide⟩
    cases List.mem_singleton.mp hc
    rfl
  have hpoints : ¬ PlainNumber (Text.trim "1.2.3") := by
    rintro ⟨_, hp, _⟩
    revert hp
    decide
  constructor
  · refine ((compile_fails_at_leftmost _).2.1 _).mpr
      ⟨"1.2.3", [.arg " 3 "], [.arg "a"], rfl, hpoints, fun other hm => ?_, rfl⟩
    cases List.mem_singleton.mp hm
    exact hthree
  · exact (compile_fails_at_leftmost _).2.2.2 (by simp [Expr.leaves])

end MathMarkup
