import MathMarkup.Grammar.Flat
import MathMarkup.Proofs.Run
import MathMarkup.Proofs.Sentence

/-!
# Reading tokens

What the rules read that ask no other rule: which token is an operator, which three tokens are a
braced literal, which run of tokens is a product, and which tokens a script stands for.
-/

namespace MathMarkup.Grammar

theorem bind_eq_ok {ε α β : Type} {x : Except ε α} {f : α → Except ε β} {b : β} :
    x >>= f = .ok b ↔ ∃ a, x = .ok a ∧ f a = .ok b := by
  cases x with
  | error reason =>
    constructor
    · intro h
      cases h
    · rintro ⟨a, h, _⟩
      cases h
  | ok a =>
    constructor
    · intro h
      exact ⟨a, rfl, h⟩
    · rintro ⟨a', h, hf⟩
      cases h
      exact hf

theorem lift_eq_ok {α : Type} {r : Except Mismatch α} {a : α} :
    (liftM r : Except Failure α) = .ok a ↔ r = .ok a := by
  constructor
  · intro h
    cases r with
    | ok b => cases h; rfl
    | error reason => cases h
  · rintro rfl
    rfl

variable {g : Grammar} {t : Token} {ts rest : List Token} {e : Expr}

theorem binaryOp_eq_ok {op : BinaryOp} : g.binaryOp t = .ok op ↔ g.IsBinary t op := by
  unfold binaryOp IsBinary
  split
  · rename_i found hm
    rw [hm]
    split_ifs with hk
    · simp [hk]
    · simp [hk]
  · rename_i hm
    simp only [reduceCtorEq, false_iff, not_and]
    intro _
    exact hm op

theorem unaryOp_eq_ok {op : UnaryOp} : g.unaryOp t = .ok op ↔ g.IsUnary t op := by
  unfold unaryOp IsUnary
  split
  · rename_i found hm
    rw [hm]
    split_ifs with hk
    · simp [hk]
    · simp [hk]
  · rename_i hm
    simp only [reduceCtorEq, false_iff, not_and]
    intro _
    exact hm op

theorem argLeaf_eq_ok : argLeaf t = .ok e ↔ t.kind = .arg ∧ e = .arg t.text := by
  unfold argLeaf
  split_ifs with hk
  · simp [hk, eq_comm]
  · simp [hk]

theorem varLeaf_eq_ok : varLeaf t = .ok e ↔ t.kind = .var ∧ e = .var t.text := by
  unfold varLeaf
  split_ifs with hk
  · simp [hk, eq_comm]
  · simp [hk]

theorem numberLeaf_eq_ok :
    numberLeaf t = .ok e ↔ t.kind = .number ∧ ∃ x, Decimal.read? t.text = some x ∧ e = .number x := by
  unfold numberLeaf
  split_ifs with hk
  · split
    · rename_i x hx
      simp [hk, hx, eq_comm]
    · rename_i hx
      simp [hx]
  · simp [hk]

theorem factorLeaf_eq_ok : factorLeaf t = .ok e ↔ Factor t e := by
  unfold factorLeaf
  split_ifs with hk
  · rw [varLeaf_eq_ok]
    constructor
    · rintro ⟨_, rfl⟩
      exact .var hk
    · intro h
      cases h with
      | number hn _ => simp [hk] at hn
      | var _ => exact ⟨hk, rfl⟩
  · rw [numberLeaf_eq_ok]
    constructor
    · rintro ⟨hn, x, hx, rfl⟩
      exact .number hn hx
    · intro h
      cases h with
      | number hn hx => exact ⟨hn, _, hx, rfl⟩
      | var hv => exact absurd hv hk

theorem firstLeaf_eq_ok {leaf : Token → Except Mismatch Expr} {p : Parsed}
    (h : firstLeaf leaf ts = .ok p) :
    ∃ t rest, ts = t :: rest ∧ leaf t = .ok p.expr ∧ p.taken = 1 := by
  cases ts with
  | nil => cases h
  | cons t rest =>
    simp only [firstLeaf] at h
    cases ht : leaf t with
    | error reason => rw [ht] at h; cases h
    | ok e =>
      rw [ht] at h
      cases h
      exact ⟨t, rest, rfl, ht, rfl⟩

theorem firstLeaf_cons {leaf : Token → Except Mismatch Expr} (h : leaf t = .ok e) :
    firstLeaf leaf (t :: rest) = .ok ⟨e, 1⟩ := by
  rw [firstLeaf, h]
  rfl

/-! ## Braced literals -/

theorem bracedLeaf_eq_ok :
    bracedLeaf ts = .ok e ↔ ∃ raw, ts = [raw] ∧ raw.kind = .arg ∧ e = .arg raw.text := by
  rcases ts with _ | ⟨first, _ | ⟨next, rest⟩⟩
  · simp [bracedLeaf]
  · cases hf : argLeaf first with
    | error reason =>
      have hk : ¬(first.kind = .arg ∧ e = .arg first.text) := by
        rw [← argLeaf_eq_ok, hf]
        exact fun h => by cases h
      simpa [bracedLeaf, hf] using hk
    | ok found =>
      obtain ⟨hk, rfl⟩ := argLeaf_eq_ok.mp hf
      simp [bracedLeaf, hf, hk, eq_comm]
  · cases hf : argLeaf first <;> simp [bracedLeaf, hf]

theorem Braced.of_split {split : Split} (hs : braces ts = .ok split)
    (he : bracedLeaf split.inside = .ok e) :
    ∃ xs a, Braced xs a ∧ e = .arg a ∧ ts = xs ++ split.remainder ∧ split.inside.length = 1 := by
  obtain ⟨opening, closing, ho, hc, rfl⟩ := balancedScope_append hs
  obtain ⟨raw, hi, hr, rfl⟩ := bracedLeaf_eq_ok.mp he
  rw [hi]
  exact ⟨[opening, raw, closing], raw.text, .mk ho hr hc, rfl, rfl, rfl⟩

theorem Braced.length {xs : List Token} {a : String} (h : Braced xs a) : xs.length = 3 := by
  cases h
  rfl

theorem Braced.exists_split {xs : List Token} {a : String} (h : Braced xs a)
    (rest : List Token) :
    ∃ split, braces (xs ++ rest) = .ok split ∧ split.remainder = rest ∧
      split.inside.length = 1 ∧ bracedLeaf split.inside = .ok (.arg a) := by
  cases h with
  | @mk opening raw closing ho hr hc =>
    refine ⟨⟨[raw], rest⟩, ?_, rfl, rfl, bracedLeaf_eq_ok.mpr ⟨raw, rfl, hr, rfl⟩⟩
    simp [braces, balancedScope, closeScope, closeScope.keep, ho, hr, hc]

theorem bracketBinary_eq_ok {p : Parsed} (h : g.bracketBinary ts = .ok p) :
    ∃ o op xs a ys b rest, ts = o :: (xs ++ ys) ++ rest ∧ g.IsBinary o op ∧ Braced xs a ∧
      Braced ys b ∧ p = ⟨.binary op (.arg a) (.arg b), 7⟩ := by
  cases ts with
  | nil => cases h
  | cons head rest =>
    obtain ⟨op, ho, h⟩ := bind_eq_ok.mp h
    obtain ⟨first, hf, h⟩ := bind_eq_ok.mp h
    obtain ⟨second, hs, h⟩ := bind_eq_ok.mp h
    obtain ⟨left, hl, h⟩ := bind_eq_ok.mp h
    obtain ⟨right, hr, ⟨⟩⟩ := bind_eq_ok.mp h
    obtain ⟨xs, a, hx, rfl, rfl, hxl⟩ := Braced.of_split hf hl
    obtain ⟨ys, b, hy, rfl, hrest, hyl⟩ := Braced.of_split hs hr
    exact ⟨head, op, xs, a, ys, b, second.remainder, by simp [hrest], binaryOp_eq_ok.mp ho, hx, hy,
      by rw [hxl, hyl]⟩

theorem bracketBinary_of_braced {o : Token} {op : BinaryOp} {xs ys : List Token} {a b : String}
    (ho : g.IsBinary o op) (hx : Braced xs a) (hy : Braced ys b) (rest : List Token) :
    g.bracketBinary (o :: (xs ++ ys) ++ rest) = .ok ⟨.binary op (.arg a) (.arg b), 7⟩ := by
  obtain ⟨first, hf, hfr, hfl, hfa⟩ := hx.exists_split (ys ++ rest)
  obtain ⟨second, hs, hsr, hsl, hsa⟩ := hy.exists_split rest
  rw [List.cons_append, List.append_assoc]
  refine bind_eq_ok.mpr ⟨op, binaryOp_eq_ok.mpr ho, bind_eq_ok.mpr ⟨first, hf, ?_⟩⟩
  rw [hfr]
  refine bind_eq_ok.mpr ⟨second, hs, bind_eq_ok.mpr ⟨_, hfa, bind_eq_ok.mpr ⟨_, hsa, ?_⟩⟩⟩
  rw [hfl, hsl]
  rfl

/-! ## Products -/

theorem product_eq_ok {next : Token} :
    product t (next :: ts) = .ok e ↔ Product (t :: next :: ts) e := by
  induction ts generalizing t next e with
  | nil =>
    rw [product, bind_eq_ok]
    constructor
    · rintro ⟨y, hy, h⟩
      obtain ⟨x, hx, ⟨⟩⟩ := bind_eq_ok.mp h
      exact .pair (factorLeaf_eq_ok.mp hx) (factorLeaf_eq_ok.mp hy)
    · intro h
      cases h with
      | pair hx hy =>
        exact ⟨_, factorLeaf_eq_ok.mpr hy, bind_eq_ok.mpr ⟨_, factorLeaf_eq_ok.mpr hx, rfl⟩⟩
      | more _ hp =>
        obtain ⟨_, _, _, hl, _⟩ := hp.head
        cases hl
  | cons third ts ih =>
    rw [product, bind_eq_ok]
    constructor
    · rintro ⟨y, hy, h⟩
      obtain ⟨x, hx, ⟨⟩⟩ := bind_eq_ok.mp h
      exact .more (factorLeaf_eq_ok.mp hx) (ih.mp hy)
    · intro h
      cases h with
      | more hx hy => exact ⟨_, ih.mpr hy, bind_eq_ok.mpr ⟨_, factorLeaf_eq_ok.mpr hx, rfl⟩⟩

theorem isFactor_iff : isFactor t ↔ t.kind = .number ∨ t.kind = .var := by
  simp [isFactor]

theorem Product.isFactor {e : Expr} (h : Product ts e) : ∀ t ∈ ts, isFactor t := by
  induction h with
  | pair hs ht => simp [isFactor_iff.mpr hs.kind, isFactor_iff.mpr ht.kind]
  | more ht _ ih =>
    intro s hs
    rcases List.mem_cons.mp hs with rfl | hs
    · exact isFactor_iff.mpr ht.kind
    · exact ih s hs

theorem Product.of_implicitProduct {p : Parsed} (h : implicitProduct ts = .ok p) :
    Product (ts.takeWhile Grammar.isFactor) p.expr ∧
      p.taken = (ts.takeWhile Grammar.isFactor).length := by
  cases ts with
  | nil => cases h
  | cons first rest =>
    simp only [implicitProduct, run] at h
    split at h
    · rename_i t next ts hrun
      cases hp : product t (next :: ts) with
      | error reason => rw [hp] at h; cases h
      | ok e =>
        rw [hp] at h
        cases h
        rw [hrun]
        exact ⟨product_eq_ok.mp hp, rfl⟩
    · cases h

theorem Product.implicitProduct_append {xs : List Token} (h : Product xs e)
    (hr : ∀ t ∈ rest.head?, ¬ Grammar.isFactor t) :
    implicitProduct (xs ++ rest) = .ok ⟨e, xs.length⟩ := by
  have hrun := takeWhile_append_of_stop h.isFactor hr
  obtain ⟨t, next, more, rfl, _⟩ := h.head
  simp only [List.cons_append, implicitProduct, run] at hrun ⊢
  rw [hrun]
  simp only [product_eq_ok.mpr h]
  rfl

/-! ## Scripts -/

theorem expect_eq_ok {kind : Token.Kind} : expect kind t = .ok () ↔ t.kind = kind := by
  unfold expect
  split_ifs with hk <;> simp [hk]

def ScriptHead (marker : Token.Kind) (ts : List Token) : Prop :=
  ∃ base mark opening rest, ts = base :: mark :: opening :: rest ∧ base.kind = .var ∧
    mark.kind = marker ∧ opening.kind = .argStart

variable {construct : Construct} {marker : Token.Kind} {build : String → String → Expr}

theorem script_cons {base mark opening raw closing : Token} (hb : base.kind = .var)
    (hm : mark.kind = marker) (ho : opening.kind = .argStart) :
    script construct marker build (base :: mark :: opening :: raw :: closing :: rest) =
      if raw.kind = .arg ∧ closing.kind = .argEnd then .ok ⟨build base.text raw.text, 5⟩
      else .error (.unsupportedScript raw) := by
  simp only [script, expect_eq_ok.mpr hb, expect_eq_ok.mpr hm, expect_eq_ok.mpr ho]
  rfl

theorem script_mismatch (h : ¬ ScriptHead marker ts) :
    ∃ reason, script construct marker build ts = .error (.mismatch reason) := by
  unfold script
  split
  · rename_i base mark opening raw closing rest
    by_cases hb : base.kind = .var
    · by_cases hm : mark.kind = marker
      · by_cases ho : opening.kind = .argStart
        · exact absurd ⟨base, mark, opening, _, rfl, hb, hm, ho⟩ h
        · exact ⟨.unexpectedToken .argStart opening, by simp [expect, hb, hm, ho]; rfl⟩
      · exact ⟨.unexpectedToken marker mark, by simp [expect, hb, hm]; rfl⟩
    · exact ⟨.unexpectedToken .var base, by simp [expect, hb]; rfl⟩
  · exact ⟨_, rfl⟩

theorem script_of_short (h : ts.length < 5) :
    ∃ reason, script construct marker build ts = .error (.mismatch reason) := by
  unfold script
  split
  · simp only [List.length_cons] at h
    omega
  · exact ⟨_, rfl⟩

theorem script_eq_ok {p : Parsed} (h : script construct marker build ts = .ok p) :
    ∃ base mark xs a rest, ts = base :: mark :: (xs ++ rest) ∧ base.kind = .var ∧
      mark.kind = marker ∧ Braced xs a ∧ p = ⟨build base.text a, 5⟩ := by
  by_cases hs : ScriptHead marker ts
  · obtain ⟨base, mark, opening, rest, rfl, hb, hm, ho⟩ := hs
    rcases rest with _ | ⟨raw, _ | ⟨closing, rest⟩⟩
    · cases h
    · cases h
    · rw [script_cons hb hm ho] at h
      split_ifs at h with hk
      cases h
      exact ⟨base, mark, [opening, raw, closing], raw.text, rest, rfl, hb, hm,
        .mk ho hk.1 hk.2, rfl⟩
  · have hr : ∃ reason, script construct marker build ts = .error (.mismatch reason) :=
      script_mismatch hs
    obtain ⟨reason, hr⟩ := hr
    rw [hr] at h
    cases h

theorem script_of_braced {base mark : Token} {xs : List Token} {a : String}
    (hb : base.kind = .var) (hm : mark.kind = marker) (hx : Braced xs a) :
    script construct marker build (base :: mark :: (xs ++ rest)) = .ok ⟨build base.text a, 5⟩ := by
  cases hx with
  | mk ho hr hc => exact (script_cons hb hm ho).trans (if_pos ⟨hr, hc⟩)

end MathMarkup.Grammar
