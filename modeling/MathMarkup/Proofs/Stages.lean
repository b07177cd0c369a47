import MathMarkup.CommandLine
import MathMarkup.Proofs.Conversion
import MathMarkup.Proofs.Recognition

/-!
# Stages of a run

A run goes through its stages in a fixed order, and the first one that fails ends it. So a run prints
what was asked for and nothing else, or it reports one failure and prints nothing. A printed tree is
read back as the tree.
-/

namespace MathMarkup

/-! ## Printed trees -/

theorem Expr.ofJson_toJson_append (layout : Json.Layout) {e : Expr} {text after : String}
    (he : e.toJson layout = .ok text) (ha : Json.skip after.toList = []) :
    Expr.ofJson (text ++ after) = .ok e ↔ e.nest ≤ 127 := by
  cases hw : Wire.ofExpr e with
  | error reason =>
    rw [toJson, hw] at he
    cases he
  | ok w =>
    rw [toJson, hw] at he
    obtain rfl : w.toJson.render layout = text := Except.ok.inj he
    obtain ⟨other, hother, hnest, -⟩ := exists_ofExpr (isOk_ofExpr_iff.mp ⟨w, hw⟩)
    obtain rfl : w = other := Except.ok.inj (hw.symm.trans hother)
    rw [ofJson, Wire.read_render_append layout w ha, hnest, Json.within]
    split_ifs with h
    · simp [Wire.toExpr_of_ofExpr hw, h, Except.mapError]
    · simp [h]

theorem Expr.exists_toJson_iff (layout : Json.Layout) {e : Expr} :
    (∃ text, e.toJson layout = .ok text) ↔ ∀ op operand, .unary op operand ∉ e.nodes := by
  rw [← unaryFree_iff, ← isOk_ofExpr_iff]
  cases h : Wire.ofExpr e <;> simp [toJson, h, Except.map]

namespace CommandLine

variable {implicitProducts : Bool} {source values text : String} {file : Option String}
  {mode : Mode}

/-! ## Stages -/

def parsed (implicitProducts : Bool) (source : String) : Except Grammar.Failure Expr :=
  (Grammar.standard implicitProducts).parseComplete (lex (Text.trimEnd source))

def Yields (implicitProducts : Bool) (source values : String) (result : Float) : Prop :=
  ∃ e args f, parsed implicitProducts source = .ok e ∧ parseValues values = .ok args ∧
    e.compile = .ok f ∧ f.call args = .ok result

/-- The message of the first stage that fails, which all stages in front of it lead up to. -/
inductive Stops (implicitProducts : Bool) (source : String) : Mode → String → Prop
  | parse {mode : Mode} {failure : Grammar.Failure} : mode ≠ .tokens →
    parsed implicitProducts source = .error failure →
    Stops implicitProducts source mode failure.message
  | write {e : Expr} {reason : Wire.NoWireForm} : parsed implicitProducts source = .ok e →
    Wire.ofExpr e = .error reason → Stops implicitProducts source .tree reason.message
  | values {values : String} {e : Expr} {reason : ValueError} :
    parsed implicitProducts source = .ok e → parseValues values = .error reason →
    Stops implicitProducts source (.eval values) reason.message
  | compile {values : String} {e : Expr} {args : List Float} {reason : NonNumeric} :
    parsed implicitProducts source = .ok e → parseValues values = .ok args →
    e.compile = .error reason → Stops implicitProducts source (.eval values) reason.message
  | call {values : String} {e : Expr} {args : List Float} {f : Function} {reason : CallError} :
    parsed implicitProducts source = .ok e → parseValues values = .ok args → e.compile = .ok f →
    f.call args = .error reason → Stops implicitProducts source (.eval values) reason.message

section Except

variable {α β ε ε' : Type} {c : Except ε α} {a : α}

theorem mapError_eq_ok {h : ε → ε'} : c.mapError h = .ok a ↔ c = .ok a := by
  cases c <;> simp [Except.mapError]

theorem mapError_eq_error {h : ε → ε'} {r : ε'} :
    c.mapError h = .error r ↔ ∃ reason, c = .error reason ∧ h reason = r := by
  cases c <;> simp [Except.mapError]

theorem bind_eq_error {k : α → Except ε β} {r : ε} :
    c >>= k = .error r ↔ c = .error r ∨ ∃ a, c = .ok a ∧ k a = .error r := by
  cases c <;> simp [Bind.bind, Except.bind]

end Except

theorem evaluate_eq_ok {e : Expr} {result : Float} :
    evaluate e values = .ok result ↔
      ∃ args f, parseValues values = .ok args ∧ e.compile = .ok f ∧ f.call args = .ok result := by
  simp only [evaluate, Grammar.bind_eq_ok, mapError_eq_ok, exists_and_left]

theorem output_eval_eq_ok : output (.eval values) implicitProducts source = .ok text ↔
    ∃ result, Yields implicitProducts source values result ∧
      text = Decimal.write result ++ "\n" := by
  constructor
  · intro h
    obtain ⟨e, he, h⟩ := Grammar.bind_eq_ok.mp h
    obtain ⟨result, hr, h⟩ := Grammar.bind_eq_ok.mp h
    obtain ⟨args, f, ha, hf, hc⟩ := evaluate_eq_ok.mp hr
    exact ⟨result, ⟨e, args, f, mapError_eq_ok.mp he, ha, hf, hc⟩, (Except.ok.inj h).symm⟩
  · rintro ⟨result, ⟨e, args, f, he, ha, hf, hc⟩, rfl⟩
    have hr : evaluate e values = .ok result := evaluate_eq_ok.mpr ⟨args, f, ha, hf, hc⟩
    exact Grammar.bind_eq_ok.mpr
      ⟨e, mapError_eq_ok.mpr he, Grammar.bind_eq_ok.mpr ⟨result, hr, rfl⟩⟩

theorem toJson_eq_error {layout : Json.Layout} {e : Expr} {reason : Wire.NoWireForm} :
    e.toJson layout = .error reason ↔ Wire.ofExpr e = .error reason := by
  cases h : Wire.ofExpr e <;> simp [Expr.toJson, h, Except.map]

theorem stops_of_output {reason : Error} (h : output mode implicitProducts source = .error reason) :
    Stops implicitProducts source mode reason.message := by
  cases mode with
  | tokens => cases h
  | tree =>
    rcases bind_eq_error.mp h with h | ⟨e, he, h⟩
    · obtain ⟨failure, hp, rfl⟩ := mapError_eq_error.mp h
      exact .parse (by simp) hp
    · rcases bind_eq_error.mp h with h | ⟨_, _, h⟩
      · obtain ⟨reason, hw, rfl⟩ := mapError_eq_error.mp h
        exact .write (mapError_eq_ok.mp he) (toJson_eq_error.mp hw)
      · cases h
  | eval values =>
    rcases bind_eq_error.mp h with h | ⟨e, he, h⟩
    · obtain ⟨failure, hp, rfl⟩ := mapError_eq_error.mp h
      exact .parse (by simp) hp
    · have hp := mapError_eq_ok.mp he
      rcases bind_eq_error.mp h with h | ⟨_, _, h⟩
      · rcases bind_eq_error.mp h with h | ⟨args, ha, h⟩
        · obtain ⟨reason, hv, rfl⟩ := mapError_eq_error.mp h
          exact .values hp hv
        · have hv := mapError_eq_ok.mp ha
          rcases bind_eq_error.mp h with h | ⟨f, hf, h⟩
          · obtain ⟨reason, hc, rfl⟩ := mapError_eq_error.mp h
            exact .compile hp hv hc
          · obtain ⟨reason, hcall, rfl⟩ := mapError_eq_error.mp h
            exact .call hp hv (mapError_eq_ok.mp hf) hcall
      · cases h

theorem output_tree_eq_ok : output .tree implicitProducts source = .ok text ↔
    ∃ e json, parsed implicitProducts source = .ok e ∧ e.toJson Json.pretty = .ok json ∧
      text = json ++ "\n" := by
  constructor
  · intro h
    obtain ⟨e, he, h⟩ := Grammar.bind_eq_ok.mp h
    obtain ⟨json, hj, h⟩ := Grammar.bind_eq_ok.mp h
    exact ⟨e, json, mapError_eq_ok.mp he, mapError_eq_ok.mp hj, (Except.ok.inj h).symm⟩
  · rintro ⟨e, json, he, hj, rfl⟩
    exact Grammar.bind_eq_ok.mpr
      ⟨e, mapError_eq_ok.mpr he, Grammar.bind_eq_ok.mpr ⟨json, mapError_eq_ok.mpr hj, rfl⟩⟩

/-! ## Reports -/

theorem run_eq (options : Options) (source : String) :
    run options (.ok source) = report (output options.mode options.implicitProducts source) := rfl

theorem run_cases (options : Options) (source : String) :
    (∃ text, output options.mode options.implicitProducts source = .ok text ∧
      run options (.ok source) = ⟨0, text, ""⟩) ∨
    ∃ message, Stops options.implicitProducts source options.mode message ∧
      run options (.ok source) = ⟨1, "", "error: " ++ message ++ "\n"⟩ := by
  rw [run_eq]
  cases h : output options.mode options.implicitProducts source with
  | ok text => exact .inl ⟨text, rfl, rfl⟩
  | error reason => exact .inr ⟨reason.message, stops_of_output h, rfl⟩

theorem run_eq_printed {options : Options} :
    run options (.ok source) = ⟨0, text, ""⟩ ↔
      output options.mode options.implicitProducts source = .ok text := by
  rw [run_eq]
  cases output options.mode options.implicitProducts source <;> simp [report]

/-! ## Requests -/

theorem decodeSource_toUTF8 (source : String) : decodeSource source.toUTF8 = .ok source := by
  unfold decodeSource String.fromUTF8?
  rw [String.toUTF8_eq_toByteArray, dif_pos source.isValidUTF8]
  rfl

def productFlags (implicitProducts : Bool) : List String :=
  if implicitProducts then ["--implicit-multiplication"] else []

theorem readWord_eval (given : Given) (values : String) :
    readWord given ("--eval=" ++ values) =
      (given.withEval values).elim (.inr .misuse) .inl := by
  have hchars : ("--eval=" ++ values).toList =
      '-' :: '-' :: 'e' :: 'v' :: 'a' :: 'l' :: '=' :: values.toList := by simp
  have hvalues : attachedValues? ("--eval=" ++ values) = some values := by simp [attachedValues?]
  unfold readWord
  rw [hvalues, hchars]
  simp only [Option.bind_some]
  cases given.withEval values <;> rfl

theorem readArgs_eval {given : Given} (hg : given.eval = none) (values : String)
    (args : List String) :
    readArgs given (("--eval=" ++ values) :: args) =
      readArgs { given with eval := some values } args := by
  have hne : ∀ word : String, ¬ "--eval=".toList <+: word.toList → "--eval=" ++ values ≠ word := by
    rintro word hw rfl
    exact hw (by simp)
  have hword : readWord given ("--eval=" ++ values) = .inl { given with eval := some values } := by
    rw [readWord_eval, Given.withEval, if_pos (by rw [hg]; rfl)]
    rfl
  generalize "--eval=" ++ values = arg at *
  rw [readArgs, hword]
  -- What is left is that the word is none of the options without a value.
  iterate 6 exact hne _ (by decide)
  · exact fun h _ => hne _ (by decide) h
  · exact fun _ _ h _ => hne _ (by decide) h

theorem request_eval (implicitProducts : Bool) (values : String) :
    request (productFlags implicitProducts ++ ["--eval=" ++ values]) =
      .run ⟨.eval values, implicitProducts, none⟩ := by
  have hgiven : ({ implicitProducts := true } : Given).eval = none := rfl
  cases implicitProducts
  · exact readArgs_eval rfl values []
  · exact readArgs_eval hgiven values []

theorem request_tree (implicitProducts : Bool) :
    request (productFlags implicitProducts) = .run ⟨.tree, implicitProducts, none⟩ ∧
      request (productFlags implicitProducts ++ ["--ast"]) =
        .run ⟨.tree, implicitProducts, none⟩ := by
  cases implicitProducts <;> exact ⟨rfl, rfl⟩

theorem request_tokens (implicitProducts : Bool) :
    request (productFlags implicitProducts ++ ["--tokens"]) =
      .run ⟨.tokens, implicitProducts, none⟩ := by
  cases implicitProducts <;> rfl

/-! ## Runs -/

theorem run_eval_eq {result : Float} :
    run ⟨.eval values, implicitProducts, file⟩ (.ok source) =
        ⟨0, Decimal.write result ++ "\n", ""⟩ ↔ Yields implicitProducts source values result := by
  rw [run_eq_printed, output_eval_eq_ok]
  constructor
  · rintro ⟨other, hother, htext⟩
    obtain rfl := Decimal.write_injective ((String.append_left_inj _).mp htext)
    exact hother
  · exact fun h => ⟨result, h, rfl⟩

theorem run_tree_eq : run ⟨.tree, implicitProducts, file⟩ (.ok source) = ⟨0, text, ""⟩ ↔
    ∃ e json, parsed implicitProducts source = .ok e ∧ e.toJson Json.pretty = .ok json ∧
      text = json ++ "\n" := by
  rw [run_eq_printed, output_tree_eq_ok]

/-- A run that was asked for a value prints it if all stages succeed, and else reports the first stage
that fails. A run that was asked for the tree prints a text that reads back as the tree, unless 128
brackets stand open there at once, if there is a tree without unary operators. The tokens are printed
in any case. Nothing is printed beside a reported failure. -/
theorem run_reports_first_failure (implicitProducts : Bool) (source : String)
    (file : Option String) :
    decodeSource source.toUTF8 = .ok source ∧
    (∀ values,
      request (productFlags implicitProducts ++ ["--eval=" ++ values]) =
        .run ⟨.eval values, implicitProducts, none⟩ ∧
      (∀ result, run ⟨.eval values, implicitProducts, file⟩ (.ok source) =
        ⟨0, Decimal.write result ++ "\n", ""⟩ ↔ Yields implicitProducts source values result) ∧
      ((∀ result, ¬ Yields implicitProducts source values result) →
        ∃ message, Stops implicitProducts source (.eval values) message ∧
          run ⟨.eval values, implicitProducts, file⟩ (.ok source) =
            ⟨1, "", "error: " ++ message ++ "\n"⟩)) ∧
    (request (productFlags implicitProducts) = .run ⟨.tree, implicitProducts, none⟩ ∧
      request (productFlags implicitProducts ++ ["--ast"]) = .run ⟨.tree, implicitProducts, none⟩ ∧
      ((run ⟨.tree, implicitProducts, file⟩ (.ok source)).exit = 0 ↔
        ∃ e, parsed implicitProducts source = .ok e ∧ ∀ op operand, .unary op operand ∉ e.nodes) ∧
      ∀ e, parsed implicitProducts source = .ok e → (∀ op operand, .unary op operand ∉ e.nodes) →
        (Expr.ofJson (run ⟨.tree, implicitProducts, file⟩ (.ok source)).stdout = .ok e ↔
          e.nest ≤ 127)) ∧
    (request (productFlags implicitProducts ++ ["--tokens"]) =
        .run ⟨.tokens, implicitProducts, none⟩ ∧
      run ⟨.tokens, implicitProducts, file⟩ (.ok source) =
        ⟨0, String.join ((lex (Text.trimEnd source)).map fun t => t.kind.name ++ "\t" ++
          toString t.start ++ ".." ++ toString t.stop ++ "\t" ++ t.text ++ "\n"), ""⟩) ∧
    ∀ mode, (∃ text, run ⟨mode, implicitProducts, file⟩ (.ok source) = ⟨0, text, ""⟩) ∨
      ∃ message, Stops implicitProducts source mode message ∧
        run ⟨mode, implicitProducts, file⟩ (.ok source) =
          ⟨1, "", "error: " ++ message ++ "\n"⟩ := by
  have hcases (mode : Mode) := run_cases ⟨mode, implicitProducts, file⟩ source
  refine ⟨decodeSource_toUTF8 source,
    fun values => ⟨request_eval implicitProducts values, fun result => run_eval_eq, fun h => ?_⟩,
    ⟨(request_tree _).1, (request_tree _).2, ⟨fun h => ?_, ?_⟩, fun e he hu => ?_⟩,
    ⟨request_tokens _, rfl⟩, fun mode => (hcases mode).imp_left fun ⟨text, _, hrun⟩ => ⟨text, hrun⟩⟩
  · refine (hcases (.eval values)).resolve_left ?_
    rintro ⟨text, ht, -⟩
    obtain ⟨result, hr, -⟩ := output_eval_eq_ok.mp ht
    exact h result hr
  · rcases hcases .tree with ⟨text, ht, -⟩ | ⟨message, -, hrun⟩
    · obtain ⟨e, json, he, hj, -⟩ := output_tree_eq_ok.mp ht
      exact ⟨e, he, (Expr.exists_toJson_iff Json.pretty).mp ⟨json, hj⟩⟩
    · rw [hrun] at h
      cases h
  · rintro ⟨e, he, hu⟩
    obtain ⟨json, hj⟩ := (Expr.exists_toJson_iff Json.pretty).mpr hu
    rw [run_tree_eq.mpr ⟨e, json, he, hj, rfl⟩]
  · obtain ⟨json, hj⟩ := (Expr.exists_toJson_iff Json.pretty).mpr hu
    rw [run_tree_eq.mpr ⟨e, json, he, hj, rfl⟩]
    exact Expr.ofJson_toJson_append Json.pretty hj rfl

theorem run_reports_first_failure_trimmed :
    run ⟨.eval "2.5", false, none⟩ (.ok "x \n") = ⟨0, "2.5\n", ""⟩ ∧
      run ⟨.eval "1,", false, none⟩ (.ok "x \n") =
        ⟨1, "", "error: empty value at position 2\n"⟩ ∧
      Expr.ofJson (run ⟨.tree, false, none⟩ (.ok "x \n")).stdout = .ok (.var "x") := by
  have hparse : parsed false "x \n" = .ok (.var "x") := by
    have hlex : lex (Text.trimEnd "x \n") = [⟨.var, "x", 0, 1⟩] := by decide +kernel
    rw [parsed, hlex]
    exact Grammar.parseComplete_eq_ok.mpr (.ofAtom (.factor (.var rfl)))
  have hvalue : parseValues "2.5" = .ok [2.5] := by decide +kernel
  have hblank : parseValues "1," = .error (.blank 2) := by decide +kernel
  have htext : Decimal.write 2.5 = "2.5" := by decide +kernel
  obtain ⟨-, heval, ⟨-, -, -, htree⟩, -⟩ := run_reports_first_failure false "x \n" none
  refine ⟨?_, ?_, (htree _ hparse (by simp [Expr.nodes])).mpr (by decide)⟩
  · have h := ((heval "2.5").2.1 2.5).mpr ⟨_, _, _, hparse, hvalue, rfl, rfl⟩
    rwa [htext] at h
  · have hnone : ∀ result, ¬ Yields false "x \n" "1," result := by
      rintro result ⟨_, _, _, _, hargs, _⟩
      rw [hblank] at hargs
      cases hargs
    obtain ⟨message, hstops, hrun⟩ := (heval "1,").2.2 hnone
    rw [hrun]
    cases hstops with
    | parse _ hp => rw [hparse] at hp; cases hp
    | values _ hv => rw [hblank] at hv; cases hv; rfl
    | compile _ hv => rw [hblank] at hv; cases hv
    | call _ hv => rw [hblank] at hv; cases hv

end CommandLine

end MathMarkup
