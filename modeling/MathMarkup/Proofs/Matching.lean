import MathMarkup.Proofs.Nesting

/-!
# The matching delimiter

A list that begins with an opening token is cut at the closing token that matches it: what stands
between the two is well nested, and there is only one such cut. The search counts the open scopes,
and its count is positive until it comes to the matching token, or to the end if there is none.
-/

namespace MathMarkup.Grammar

/-- A cut at the closing token that matches the first one. -/
structure Matches (opener closer : Token.Kind) (ts : List Token) (split : Split) : Prop where
  cut : ∃ first close, first.kind = opener ∧ close.kind = closer ∧
    ts = first :: (split.inside ++ close :: split.remainder)
  total : countKind opener split.inside = countKind closer split.inside
  within : ∀ xs, xs <+: split.inside → countKind closer xs ≤ countKind opener xs

inductive Uncut (opener closer : Token.Kind) : List Token → Mismatch → Prop
  | empty : Uncut opener closer [] .emptyInput
  | unbalanced {first : Token} {rest : List Token} : first.kind = closer →
      Uncut opener closer (first :: rest) (.unbalancedScope first)
  | unexpected {first : Token} {rest : List Token} : first.kind ≠ closer → first.kind ≠ opener →
      Uncut opener closer (first :: rest) (.unexpectedToken opener first)
  | unclosed {first : Token} {rest : List Token} : first.kind ≠ closer → first.kind = opener →
      (∀ split, ¬ Matches opener closer (first :: rest) split) →
      Uncut opener closer (first :: rest) (.unclosedScope first)

/-- The number of open scopes behind each token that a search reads. It stops at the closing token
that leaves none. -/
def depths (opener closer : Token.Kind) : Int → List Token → List Int
  | _, [] => []
  | depth, t :: ts =>
    if t.kind = opener then (depth + 1) :: depths opener closer (depth + 1) ts
    else if t.kind = closer then
      if depth - 1 = 0 then [0] else (depth - 1) :: depths opener closer (depth - 1) ts
    else depth :: depths opener closer depth ts

variable {opener closer : Token.Kind} {depth before : Nat} {t close : Token}
  {ts inside rest : List Token} {split split' : Split}

/-! ## The cut -/

theorem Closes.tail (h : Closes opener closer before (t :: ts))
    (ht : before + (if t.kind = opener then 1 else 0) = depth + if t.kind = closer then 1 else 0) :
    Closes opener closer depth ts := by
  constructor
  · have hts := h.total
    simp only [countKind_cons] at hts
    omega
  · intro xs hxs
    have hle := h.within (t :: xs) (List.cons_prefix_cons.mpr ⟨rfl, hxs⟩)
    simp only [countKind_cons] at hle
    omega

theorem closeScope_of_closes (hne : opener ≠ closer) (h : Closes opener closer depth inside)
    (hc : close.kind = closer) :
    closeScope opener closer depth (inside ++ close :: rest) = some ⟨inside, rest⟩ := by
  induction inside generalizing depth with
  | nil =>
    have hzero : depth = 0 := by simpa using h.total.symm
    subst hzero
    simp [closeScope, hc, hne.symm]
  | cons t inside ih =>
    simp only [List.cons_append, closeScope]
    split_ifs with ho hk
    · have htail : Closes opener closer (depth + 1) inside := h.tail (by simp [ho, hne])
      rw [ih htail]
      rfl
    · cases depth with
      | zero =>
        have hle := h.within [t] (List.cons_prefix_cons.mpr ⟨rfl, List.nil_prefix⟩)
        simp [hk, hne.symm] at hle
      | succ depth =>
        have htail : Closes opener closer depth inside := h.tail (by simp [hk, hne.symm])
        simp only [ih htail]
        rfl
    · have htail : Closes opener closer depth inside := h.tail (by simp [ho, hk])
      rw [ih htail]
      rfl

theorem Matches.closes (h : Matches opener closer ts split) : Closes opener closer 0 split.inside :=
  ⟨h.total.symm, h.within⟩

theorem balancedScope_eq_ok :
    balancedScope opener closer ts = .ok split ↔
      opener ≠ closer ∧ Matches opener closer ts split := by
  constructor
  · intro h
    obtain ⟨first, close, ho, hc, hcut⟩ := balancedScope_append h
    rw [hcut, balancedScope] at h
    split_ifs at h with hk
    have hne : closer ≠ opener := fun he => hk (ho.trans he.symm)
    split at h
    · rename_i found hfound
      cases h
      have hin := closeScope_closes hne hfound
      exact ⟨hne.symm, ⟨first, close, ho, hc, hcut⟩, hin.total.symm, hin.within⟩
    · cases h
  · rintro ⟨hne, h⟩
    obtain ⟨first, close, ho, hc, rfl⟩ := h.cut
    have hk : first.kind ≠ closer := fun he => hne (ho.symm.trans he)
    rw [balancedScope, if_neg hk, if_neg (not_not.mpr ho), closeScope_of_closes hne h.closes hc]

theorem Matches.unique (hne : opener ≠ closer) (h : Matches opener closer ts split)
    (h' : Matches opener closer ts split') : split = split' := by
  have hs := balancedScope_eq_ok.mpr ⟨hne, h⟩
  rw [balancedScope_eq_ok.mpr ⟨hne, h'⟩] at hs
  cases hs
  rfl

theorem uncut_of_error {reason : Mismatch}
    (h : balancedScope opener closer ts = .error reason) : Uncut opener closer ts reason := by
  cases ts with
  | nil =>
    cases h
    exact .empty
  | cons first rest =>
    have hnone : ∀ split, ¬(opener ≠ closer ∧ Matches opener closer (first :: rest) split) := by
      intro split hs
      rw [balancedScope_eq_ok.mpr hs] at h
      cases h
    rw [balancedScope] at h
    split_ifs at h with hc ho
    · cases h
      exact .unbalanced hc
    · cases h
      exact .unexpected hc ho
    · have ho := not_not.mp ho
      have hne : opener ≠ closer := fun he => hc (ho.trans he)
      split at h
      · cases h
      · cases h
        exact .unclosed hc ho fun split hm => hnone split ⟨hne, hm⟩

theorem balancedScope_eq_error {reason : Mismatch} :
    balancedScope opener closer ts = .error reason ↔ Uncut opener closer ts reason := by
  constructor
  · exact uncut_of_error
  · intro h
    cases h with
    | empty => rfl
    | unbalanced hc => rw [balancedScope, if_pos hc]
    | unexpected hc ho => rw [balancedScope, if_neg hc, if_pos ho]
    | @unclosed first rest hc ho hnone =>
      cases hs : balancedScope opener closer (first :: rest) with
      | ok split => exact absurd (balancedScope_eq_ok.mp hs).2 (hnone split)
      | error reason =>
        cases uncut_of_error hs with
        | unbalanced hk => exact absurd hk hc
        | unexpected _ hk => exact absurd ho hk
        | unclosed _ _ _ => rfl

/-! ## The count of open scopes -/

/-- Counts that are positive up to the token that closes the scope, or to the end of `ts`. -/
def Counts (ts : List Token) (counts : List Int) : Option Split → Prop
  | none => counts.length = ts.length ∧ ∀ d ∈ counts, 0 < d
  | some split => ∃ ds, counts = ds ++ [0] ∧ ds.length = split.inside.length ∧ ∀ d ∈ ds, 0 < d

theorem Counts.cons {counts : List Int} {found : Option Split} (h : Counts ts counts found)
    {d : Int} (hd : 0 < d) (t : Token) :
    Counts (t :: ts) (d :: counts) (found.map (closeScope.keep t)) := by
  cases found with
  | none =>
    obtain ⟨hlen, hpos⟩ := h
    exact ⟨by simp only [List.length_cons, hlen], List.forall_mem_cons.mpr ⟨hd, hpos⟩⟩
  | some split =>
    obtain ⟨ds, rfl, hlen, hpos⟩ := h
    exact ⟨d :: ds, rfl, by simp only [closeScope.keep, List.length_cons, hlen],
      List.forall_mem_cons.mpr ⟨hd, hpos⟩⟩

theorem counts_depths (opener closer : Token.Kind) (depth : Nat) (ts : List Token) :
    Counts ts (depths opener closer (depth + 1) ts) (closeScope opener closer depth ts) := by
  induction ts generalizing depth with
  | nil => exact ⟨rfl, List.forall_mem_nil _⟩
  | cons t ts ih =>
    simp only [closeScope, depths]
    split_ifs with ho hc hz
    · exact (ih (depth + 1)).cons (by omega) t
    · obtain rfl : depth = 0 := by omega
      exact ⟨[], rfl, rfl, List.forall_mem_nil _⟩
    · cases depth with
      | zero => exact absurd rfl hz
      | succ depth =>
        rw [show ((depth + 1 : Nat) : Int) + 1 - 1 = depth + 1 by omega]
        exact (ih depth).cons (by omega) t
    · exact (ih depth).cons (by omega) t

theorem depths_of_ok (h : balancedScope opener closer ts = .ok split) :
    ∃ ds, depths opener closer 0 ts = ds ++ [0] ∧ ds.length = split.inside.length + 1 ∧
      ∀ d ∈ ds, 0 < d := by
  obtain ⟨first, close, ho, hc, rfl⟩ := balancedScope_append h
  obtain ⟨hne, hm⟩ := balancedScope_eq_ok.mp h
  have hcounts := (counts_depths opener closer 0 (split.inside ++ close :: split.remainder)).cons
    Int.one_pos first
  rw [closeScope_of_closes hne hm.closes hc] at hcounts
  rw [depths, if_pos ho]
  exact hcounts

theorem depths_of_unclosed {first : Token}
    (h : balancedScope opener closer ts = .error (.unclosedScope first)) :
    (depths opener closer 0 ts).length = ts.length ∧ ∀ d ∈ depths opener closer 0 ts, 0 < d := by
  cases balancedScope_eq_error.mp h with
  | @unclosed first rest hc ho hnone =>
    have hcounts := (counts_depths opener closer 0 rest).cons Int.one_pos first
    rw [balancedScope, if_neg hc, if_neg (not_not.mpr ho)] at h
    split at h
    · cases h
    · rename_i hnone
      rw [hnone] at hcounts
      rw [depths, if_pos ho]
      exact hcounts

/-- A list is cut exactly at the token that matches its first one, and otherwise the reason is given.
While the search reads, no count of open scopes is below zero. -/
theorem balancedScope_finds_match (opener closer : Token.Kind) (ts : List Token) :
    (∀ split, balancedScope opener closer ts = .ok split ↔
      opener ≠ closer ∧ Matches opener closer ts split) ∧
    (opener ≠ closer → ∀ split split', Matches opener closer ts split →
      Matches opener closer ts split' → split = split') ∧
    (∀ reason, balancedScope opener closer ts = .error reason ↔ Uncut opener closer ts reason) ∧
    (∀ split, balancedScope opener closer ts = .ok split →
      ∃ ds, depths opener closer 0 ts = ds ++ [0] ∧ ds.length = split.inside.length + 1 ∧
        ∀ d ∈ ds, 0 < d) ∧
    ∀ first, balancedScope opener closer ts = .error (.unclosedScope first) →
      (depths opener closer 0 ts).length = ts.length ∧ ∀ d ∈ depths opener closer 0 ts, 0 < d :=
  ⟨fun _ => balancedScope_eq_ok, fun hne _ _ h h' => h.unique hne h',
    fun _ => balancedScope_eq_error, fun _ => depths_of_ok, fun _ => depths_of_unclosed⟩

theorem balancedScope_finds_match_nested :
    let a : Token := ⟨.parenLeft, "(", 0, 1⟩
    let b : Token := ⟨.parenLeft, "(", 1, 2⟩
    let x : Token := ⟨.var, "x", 2, 3⟩
    let c : Token := ⟨.parenRight, ")", 3, 4⟩
    let d : Token := ⟨.parenRight, ")", 4, 5⟩
    let ts : List Token := [a, b, x, c, d, d]
    let split : Split := ⟨[b, x, c], [d]⟩
    (balancedScope .parenLeft .parenRight ts = .ok split ∧ Matches .parenLeft .parenRight ts split ∧
      (∀ split', Matches .parenLeft .parenRight ts split' → split' = split) ∧
      ∃ ds, depths .parenLeft .parenRight 0 ts = ds ++ [0] ∧ ds.length = 4 ∧ ∀ d ∈ ds, 0 < d) ∧
    balancedScope .parenLeft .parenRight [a, b, x, c] = .error (.unclosedScope a) ∧
      ∀ d ∈ depths .parenLeft .parenRight 0 [a, b, x, c], 0 < d := by
  intro a b x c d ts split
  have hne : Token.Kind.parenLeft ≠ .parenRight := by decide
  have hok : balancedScope .parenLeft .parenRight ts = .ok split := rfl
  have hopen : balancedScope .parenLeft .parenRight [a, b, x, c] = .error (.unclosedScope a) := rfl
  obtain ⟨hiff, hunique, _, hdepths, _⟩ := balancedScope_finds_match .parenLeft .parenRight ts
  have hm := ((hiff split).mp hok).2
  exact ⟨⟨hok, hm, fun split' h' => hunique hne split' split h' hm, hdepths split hok⟩, hopen,
    ((balancedScope_finds_match .parenLeft .parenRight _).2.2.2.2 a hopen).2⟩

end MathMarkup.Grammar
