import MathMarkup.Proofs.Leaves
import MathMarkup.Proofs.Nesting

/-!
# Neighbouring factors

A run of neighbouring factors is a product written short. Written out it has parentheses around it
and a sign between its members. Tokens in which every longest run is written out are a sentence
without implicit products exactly when the tokens as they stand are one with them, and the two trees
differ by groups alone. In the one direction the derivation is followed production by production. In
the other a cut of the tokens that were written out is traced back to a cut of the tokens as they
stand: no well nested part ends within the parentheses of a run.
-/

namespace MathMarkup.Grammar

structure Signs (meaning : String → Option Command) where
  opening : Token
  times : Token
  closing : Token
  opens : opening.kind = .parenLeft
  closes : closing.kind = .parenRight
  command : times.kind = .command
  multiplies : meaning times.text = some (.binary .multiply)

namespace Signs

variable {meaning : String → Option Command} (signs : Signs meaning)

def writeRun (factors : List Token) : List Token :=
  if 2 ≤ factors.length then signs.opening :: (factors.intersperse signs.times ++ [signs.closing])
  else factors

/-- The tokens with every longest run of factors written out. -/
def writeOut : List Token → List Token
  | [] => []
  | t :: ts =>
    if isFactor t then
      signs.writeRun (t :: ts.takeWhile isFactor) ++ writeOut (ts.dropWhile isFactor)
    else t :: writeOut ts
termination_by ts => ts.length
decreasing_by
  · have hle := (List.dropWhile_sublist isFactor (l := ts)).length_le
    simp only [List.length_cons]
    omega
  · simp

variable {t : Token} {ts xs ys : List Token}

theorem isFactor_of_mem_run (ht : isFactor t) (ts : List Token) :
    ∀ u ∈ t :: ts.takeWhile isFactor, isFactor u :=
  List.forall_mem_cons.mpr ⟨ht, fun _ hu => of_mem_takeWhile hu⟩

theorem writeRun_of_two_le (h : 2 ≤ ts.length) :
    signs.writeRun ts = signs.opening :: (ts.intersperse signs.times ++ [signs.closing]) := if_pos h

theorem writeOut_run (hx : ∀ t ∈ xs, isFactor t) (hn : xs ≠ []) (hy : ∀ t ∈ ys.head?, ¬ isFactor t) :
    signs.writeOut (xs ++ ys) = signs.writeRun xs ++ signs.writeOut ys := by
  obtain ⟨t, ts, rfl⟩ := List.exists_cons_of_ne_nil hn
  have hts : ∀ t ∈ ts, isFactor t := fun u hu => hx u (List.mem_cons_of_mem t hu)
  have ht : (ts ++ ys).takeWhile isFactor = ts := takeWhile_append_of_stop hts hy
  have hd : (ts ++ ys).dropWhile isFactor = ys := dropWhile_append_of_stop hts hy
  rw [List.cons_append, writeOut, if_pos (hx t List.mem_cons_self), ht, hd]

theorem writeOut_cons (h : isFactor t → ∀ u ∈ ts.head?, ¬ isFactor u) :
    signs.writeOut (t :: ts) = t :: signs.writeOut ts := by
  by_cases ht : isFactor t
  · have hrun : signs.writeOut ([t] ++ ts) = signs.writeRun [t] ++ signs.writeOut ts :=
      signs.writeOut_run (by simp [ht]) (List.cons_ne_nil t []) (h ht)
    exact hrun
  · rw [writeOut, if_neg ht]

theorem writeOut_of_not_factor (h : ∀ t ∈ ts, ¬ isFactor t) : signs.writeOut ts = ts := by
  induction ts with
  | nil => rw [writeOut]
  | cons t ts ih =>
    have ht : ¬ isFactor t := h t List.mem_cons_self
    rw [writeOut, if_neg ht, ih fun u hu => h u (List.mem_cons_of_mem t hu)]

theorem writeOut_script {v mark : Token} (hm : ¬ isFactor mark) (hx : ∀ t ∈ xs, ¬ isFactor t) :
    signs.writeOut (v :: mark :: xs) = v :: mark :: xs := by
  have hnext : isFactor v → ∀ u ∈ (mark :: xs).head?, ¬ isFactor u := by simpa using fun _ => hm
  rw [signs.writeOut_cons hnext, signs.writeOut_of_not_factor (List.forall_mem_cons.mpr ⟨hm, hx⟩)]

theorem writeOut_append (hy : ∀ t ∈ ys.head?, ¬ isFactor t) :
    signs.writeOut (xs ++ ys) = signs.writeOut xs ++ signs.writeOut ys := by
  fun_induction writeOut signs xs with
  | case1 => rfl
  | case2 t ts ht ih =>
    have hrun := isFactor_of_mem_run ht ts
    have hrest : ∀ u ∈ (ts.dropWhile isFactor ++ ys).head?, ¬ isFactor u := by
      intro u hu
      rw [List.head?_append] at hu
      cases hd : (ts.dropWhile isFactor).head? with
      | none =>
        rw [hd, Option.none_or] at hu
        exact hy u hu
      | some v =>
        rw [hd] at hu
        cases hu
        exact not_of_mem_head?_dropWhile hd
    have hcut : t :: ts ++ ys =
        (t :: ts.takeWhile isFactor) ++ (ts.dropWhile isFactor ++ ys) := by
      rw [List.cons_append, List.cons_append, ← List.append_assoc, List.takeWhile_append_dropWhile]
    rw [hcut, signs.writeOut_run hrun (List.cons_ne_nil _ _) hrest, ih, List.append_assoc]
  | case3 t ts ht ih => rw [List.cons_append, writeOut, if_neg ht, ih, List.cons_append]

theorem writeOut_nil : signs.writeOut [] = [] := by rw [writeOut]

theorem writeOut_append_cons {o : Token} (ho : ¬ isFactor o) :
    signs.writeOut (xs ++ o :: ys) = signs.writeOut xs ++ o :: signs.writeOut ys := by
  have hy : ∀ t ∈ (o :: ys).head?, ¬ isFactor t := by
    intro t ht
    cases ht
    exact ho
  rw [signs.writeOut_append hy, signs.writeOut_cons fun h => absurd h ho]

end Signs

variable {meaning : String → Option Command} (signs : Signs meaning)
variable {s : Symbol} {ts : List Token} {e : Expr}

/-! ## From short products to written ones -/

theorem Braced.not_factor {xs : List Token} {a : String} (h : Braced xs a) :
    ∀ t ∈ xs, ¬ isFactor t := by
  cases h with
  | mk ho hr hc => simp [isFactor, ho, hr, hc]

theorem IsBinary.not_factor {g : Grammar} {o : Token} {op : BinaryOp} (h : g.IsBinary o op) :
    ¬ isFactor o := by
  rcases h.1 with hk | hk <;> simp [isFactor, hk]

theorem IsUnary.not_factor {g : Grammar} {u : Token} {op : UnaryOp} (h : g.IsUnary u op) :
    ¬ isFactor u := by
  simp [isFactor, h.1]

theorem Signs.isBinary (implicitProducts : Bool) :
    (Grammar.mk meaning implicitProducts).IsBinary signs.times .multiply :=
  ⟨.inl signs.command, signs.multiplies⟩

theorem Product.two_le (h : Product ts e) : 2 ≤ ts.length := by
  obtain ⟨t, next, rest, rfl, _⟩ := h.head
  simp

theorem Product.derives_chain (h : Product ts e) :
    (Grammar.mk meaning false).Derives .chain (ts.intersperse signs.times) e := by
  induction h with
  | @pair s t x y hs ht =>
    have hc := Derives.chainEnd (.factor hs) (signs.isBinary false) (.factor ht)
    exact hc
  | @more t ts x y ht hp ih =>
    obtain ⟨u, next, rest, rfl, _⟩ := hp.head
    have hc := Derives.chainOn (.factor ht) (signs.isBinary false) ih
    exact hc

theorem Product.derives_group (h : Product ts e) :
    (Grammar.mk meaning false).Derives .atom (signs.writeRun ts) (.group e) := by
  rw [signs.writeRun_of_two_le h.two_le]
  exact .group signs.opens signs.closes (.ofChain (h.derives_chain signs))

theorem Derives.writeOut (h : (Grammar.mk meaning true).Derives s ts e) :
    ∃ e', (Grammar.mk meaning false).Derives s (signs.writeOut ts) e' ∧ e'.bare = e.bare := by
  induction h with
  | @group opening closing ts e ho hc _ ih =>
    obtain ⟨e', hd, he⟩ := ih
    have hin : ¬ isFactor opening := by simp [isFactor, ho]
    have hout : ¬ isFactor closing := by simp [isFactor, hc]
    rw [signs.writeOut_cons fun h => absurd h hin, signs.writeOut_append_cons hout,
      signs.writeOut_nil]
    exact ⟨.group e', .group ho hc hd, he⟩
  | @bracketBinary o op xs ys a b ho hx hy =>
    have hn : ∀ t ∈ xs ++ ys, ¬ isFactor t :=
      List.forall_mem_append.mpr ⟨hx.not_factor, hy.not_factor⟩
    rw [signs.writeOut_cons fun h => absurd h ho.not_factor, signs.writeOut_of_not_factor hn]
    exact ⟨_, .bracketBinary ho hx hy, rfl⟩
  | @superscript v mark xs a hv hm hx =>
    rw [signs.writeOut_script (by simp [isFactor, hm]) hx.not_factor]
    exact ⟨_, .superscript hv hm hx, rfl⟩
  | @subscript v mark xs a hv hm hx =>
    rw [signs.writeOut_script (by simp [isFactor, hm]) hx.not_factor]
    exact ⟨_, .subscript hv hm hx, rfl⟩
  | unaryBraced hu hx =>
    rw [signs.writeOut_cons fun h => absurd h hu.not_factor,
      signs.writeOut_of_not_factor hx.not_factor]
    exact ⟨_, .unaryBraced hu hx, rfl⟩
  | @unaryAtom u op ts e hu _ ih =>
    obtain ⟨e', hd, he⟩ := ih
    rw [signs.writeOut_cons fun h => absurd h hu.not_factor]
    exact ⟨_, .unaryAtom hu hd, congrArg (Expr.unary op) he⟩
  | @product ts e _ hp =>
    have hn : ts ≠ [] := by
      rintro rfl
      exact absurd hp.two_le (by simp)
    have hrun : signs.writeOut (ts ++ []) = signs.writeRun ts ++ signs.writeOut [] :=
      signs.writeOut_run hp.isFactor hn (by simp)
    rw [signs.writeOut_nil, List.append_nil, List.append_nil] at hrun
    rw [hrun]
    exact ⟨_, hp.derives_group signs, rfl⟩
  | @factor t e hf =>
    rw [signs.writeOut_cons (by simp), signs.writeOut_nil]
    exact ⟨_, .factor hf, rfl⟩
  | @chainOn left right o op x y _ ho _ ihl ihr =>
    obtain ⟨x', hx, hxe⟩ := ihl
    obtain ⟨y', hy, hye⟩ := ihr
    rw [signs.writeOut_append_cons ho.not_factor]
    exact ⟨_, .chainOn hx ho hy, congrArg₂ (Expr.binary op) hxe hye⟩
  | @chainEnd left right o op x y _ ho _ ihl ihr =>
    obtain ⟨x', hx, hxe⟩ := ihl
    obtain ⟨y', hy, hye⟩ := ihr
    rw [signs.writeOut_append_cons ho.not_factor]
    exact ⟨_, .chainEnd hx ho hy, congrArg₂ (Expr.binary op) hxe hye⟩
  | ofChain _ ih =>
    obtain ⟨e', hd, he⟩ := ih
    exact ⟨e', .ofChain hd, he⟩
  | ofAtom _ ih =>
    obtain ⟨e', hd, he⟩ := ih
    exact ⟨e', .ofAtom hd, he⟩

/-! ## From written products to short ones -/

namespace Signs

variable {xs ys zs : List Token} {o : Token}

theorem countKind_intersperse {kind : Token.Kind} (hk : kind = .parenLeft ∨ kind = .parenRight)
    (h : ∀ t ∈ ts, isFactor t) : countKind kind (ts.intersperse signs.times) = 0 := by
  have hne : ∀ t, isFactor t → t.kind ≠ kind := by
    intro t ht
    rcases isFactor_iff.mp ht with ht | ht <;> rcases hk with rfl | rfl <;> simp [ht]
  have htimes : signs.times.kind ≠ kind := by
    rcases hk with rfl | rfl <;> simp [signs.command]
  induction ts with
  | nil => rfl
  | cons t ts ih =>
    obtain ⟨ht, hts⟩ := List.forall_mem_cons.mp h
    cases ts with
    | nil => simp [hne t ht]
    | cons u us => simp [hne t ht, htimes, ih hts]

theorem writeOut_eq_self (h : countKind .parenLeft (signs.writeOut ts) = 0) :
    signs.writeOut ts = ts := by
  fun_induction writeOut signs ts with
  | case1 => rfl
  | case2 t ts ht ih =>
    obtain ⟨hrun, hrest⟩ := Nat.add_eq_zero_iff.mp ((countKind_append _ _).symm.trans h)
    have hshort : ¬ 2 ≤ (t :: ts.takeWhile isFactor).length := by
      intro hl
      simp [signs.writeRun_of_two_le hl, signs.opens] at hrun
    rw [ih hrest, writeRun, if_neg hshort, List.cons_append, List.takeWhile_append_dropWhile]
  | case3 t ts ht ih =>
    rw [ih (Nat.add_eq_zero_iff.mp ((countKind_cons _ _).symm.trans h)).1]

theorem countKind_within_run {kind : Token.Kind} (hk : kind = .parenLeft ∨ kind = .parenRight)
    (hts : ∀ t ∈ ts, isFactor t)
    (h : ts.intersperse signs.times ++ [signs.closing] = xs ++ o :: ys) : countKind kind xs = 0 := by
  have hp : xs <+: ts.intersperse signs.times := by
    have hxs : xs <+: ts.intersperse signs.times ++ [signs.closing] :=
      h ▸ List.prefix_append xs (o :: ys)
    apply List.prefix_of_prefix_length_le hxs (List.prefix_append _ _)
    have hlen := congrArg List.length h
    simp only [List.length_append, List.length_cons, List.length_nil] at hlen
    omega
  have hle : countKind kind xs ≤ countKind kind (ts.intersperse signs.times) := hp.sublist.countP_le
  rw [signs.countKind_intersperse hk hts] at hle
  exact Nat.le_zero.mp hle

theorem writeRun_ne_cut (hl : 2 ≤ ts.length) (ho : o.kind ≠ .parenLeft)
    (hx : countKind .parenLeft xs ≤ countKind .parenRight xs) (hts : ∀ t ∈ ts, isFactor t) :
    signs.writeRun ts ≠ xs ++ o :: ys := by
  intro h
  rw [signs.writeRun_of_two_le hl] at h
  cases xs with
  | nil => exact absurd ((List.cons.inj h).1 ▸ signs.opens) ho
  | cons x xs =>
    simp only [List.cons_append, List.cons.injEq] at h
    obtain ⟨rfl, hcut⟩ := h
    -- A front part that ends within the run opens the parenthesis of the run and closes none.
    simp [signs.countKind_within_run (.inl rfl) hts hcut,
      signs.countKind_within_run (.inr rfl) hts hcut, signs.opens] at hx

/-- A cut of which the front part has no end with more opening than closing parentheses lies behind
a written run that stands at the front. -/
theorem exists_behind_run (hf : ¬ isFactor o) (ho : o.kind ≠ .parenLeft)
    (hx : ∀ us, us <:+ xs → countKind .parenLeft us ≤ countKind .parenRight us)
    (hts : ∀ t ∈ ts, isFactor t) (h : signs.writeRun ts ++ zs = xs ++ o :: ys) :
    ∃ us, xs = signs.writeRun ts ++ us ∧ zs = us ++ o :: ys := by
  rcases List.append_eq_append_iff.mp h with ⟨us, hxs, hzs⟩ | ⟨us, hrun, hus⟩
  · exact ⟨us, hxs, hzs⟩
  · cases us with
    | nil => exact ⟨[], by simpa using hrun.symm, by simpa using hus.symm⟩
    | cons u us =>
      obtain ⟨rfl, _⟩ := List.cons.inj hus
      by_cases hl : 2 ≤ ts.length
      · exact absurd hrun (signs.writeRun_ne_cut hl ho (hx xs List.suffix_rfl) hts)
      · rw [writeRun, if_neg hl] at hrun
        exact absurd (hts o (by simp [hrun])) hf

theorem exists_cut (hf : ¬ isFactor o) (ho : o.kind ≠ .parenLeft)
    (hx : ∀ us, us <:+ xs → countKind .parenLeft us ≤ countKind .parenRight us)
    (h : signs.writeOut ts = xs ++ o :: ys) :
    ∃ left right, ts = left ++ o :: right ∧ signs.writeOut left = xs ∧ signs.writeOut right = ys := by
  fun_induction writeOut signs ts generalizing xs with
  | case1 => simp at h
  | case2 t ts ht ih =>
    have hrun := isFactor_of_mem_run ht ts
    obtain ⟨us, rfl, hus⟩ := signs.exists_behind_run hf ho hx hrun h
    obtain ⟨left, right, hcut, rfl, rfl⟩ :=
      ih (fun vs hvs => hx vs (hvs.trans (List.suffix_append _ _))) hus
    have hhead : ∀ u ∈ left.head?, ¬ isFactor u := by
      intro u hu
      have hd : u ∈ (ts.dropWhile isFactor).head? := by
        rw [hcut, List.head?_append, hu]
        rfl
      exact not_of_mem_head?_dropWhile hd
    refine ⟨t :: ts.takeWhile isFactor ++ left, right, ?_,
      signs.writeOut_run hrun (List.cons_ne_nil _ _) hhead, rfl⟩
    rw [List.append_assoc, ← hcut, List.cons_append, List.takeWhile_append_dropWhile]
  | case3 t ts ht ih =>
    cases xs with
    | nil =>
      obtain ⟨rfl, rfl⟩ := List.cons.inj h
      exact ⟨[], ts, rfl, signs.writeOut_nil, rfl⟩
    | cons x xs =>
      obtain ⟨rfl, hcut⟩ := List.cons.inj h
      obtain ⟨left, right, rfl, rfl, rfl⟩ :=
        ih (fun vs hvs => hx vs (hvs.trans (List.suffix_cons _ _))) hcut
      exact ⟨t :: left, right, rfl, signs.writeOut_cons fun hf => absurd hf ht, rfl⟩

theorem eq_nil_of_writeOut (h : signs.writeOut ts = []) : ts = [] := by
  cases ts with
  | nil => rfl
  | cons t ts =>
    rw [writeOut] at h
    split_ifs at h
    rw [writeRun] at h
    split_ifs at h
    · simp at h
    · simp at h

theorem eq_run_of_group {closing : Token} (hxs : Closes .parenLeft .parenRight 0 xs)
    (hts : ∀ t ∈ ts, isFactor t)
    (h : ts.intersperse signs.times ++ signs.closing :: zs = xs ++ [closing]) :
    zs = [] ∧ xs = ts.intersperse signs.times := by
  rcases List.eq_nil_or_concat zs with rfl | ⟨us, c, rfl⟩
  · exact ⟨rfl, (List.append_inj' h rfl).1.symm⟩
  · have hcut : (ts.intersperse signs.times ++ [signs.closing] ++ us) ++ [c] = xs ++ [closing] := by
      simpa using h
    -- With more behind the run, its closing parenthesis would close more than `xs` opens.
    have hp := hxs.within _ ((List.append_inj' hcut rfl).1 ▸ List.prefix_append _ us)
    rw [countKind_append, countKind_append, signs.countKind_intersperse (.inl rfl) hts,
      signs.countKind_intersperse (.inr rfl) hts] at hp
    simp [signs.closes] at hp

theorem exists_group_cut {opening closing : Token} (ho : opening.kind = .parenLeft)
    (hc : closing.kind = .parenRight) (hxs : Closes .parenLeft .parenRight 0 xs)
    (h : signs.writeOut ts = opening :: (xs ++ [closing])) :
    (∃ us, ts = opening :: (us ++ [closing]) ∧ signs.writeOut us = xs) ∨
      (∀ t ∈ ts, isFactor t) ∧ 2 ≤ ts.length ∧ xs = ts.intersperse signs.times := by
  cases ts with
  | nil =>
    rw [writeOut] at h
    cases h
  | cons t ts =>
    rw [writeOut] at h
    split_ifs at h with ht
    · right
      have hrun := isFactor_of_mem_run ht ts
      by_cases hl : 2 ≤ (t :: ts.takeWhile isFactor).length
      · rw [signs.writeRun_of_two_le hl] at h
        simp only [List.cons_append, List.nil_append, List.cons.injEq, List.append_assoc] at h
        obtain ⟨rfl, h⟩ := h
        obtain ⟨hend, rfl⟩ := signs.eq_run_of_group hxs hrun h
        have hts : ts.takeWhile isFactor = ts := by
          have hcut := List.takeWhile_append_dropWhile (p := isFactor) (l := ts)
          rwa [signs.eq_nil_of_writeOut hend, List.append_nil] at hcut
        rw [hts] at hrun hl ⊢
        exact ⟨hrun, hl, rfl⟩
      · rw [writeRun, if_neg hl] at h
        have hk : isFactor opening := (List.cons.inj h).1 ▸ ht
        simp [isFactor, ho] at hk
    · left
      obtain ⟨rfl, hcut⟩ := List.cons.inj h
      have hf : ¬ isFactor closing := by simp [isFactor, hc]
      obtain ⟨left, right, rfl, hl, hr⟩ :=
        signs.exists_cut hf (by simp [hc]) (fun us hus => hxs.suffix hus) hcut
      rw [signs.eq_nil_of_writeOut hr]
      exact ⟨left, rfl, hl⟩

end Signs

/-! ## Trees of written products -/

theorem readable_of_not_factor (h : ∀ t ∈ ts, ¬ isFactor t) :
    ∀ t ∈ ts, isFactor t → ∃ x, Factor t x := fun t ht hf => absurd hf (h t ht)

theorem readable_script {v mark : Token} {xs : List Token} (hv : v.kind = .var)
    (hm : ¬ isFactor mark) (hx : ∀ t ∈ xs, ¬ isFactor t) :
    ∀ t ∈ v :: mark :: xs, isFactor t → ∃ x, Factor t x :=
  List.forall_mem_cons.mpr
    ⟨fun _ => ⟨_, .var hv⟩, readable_of_not_factor (List.forall_mem_cons.mpr ⟨hm, hx⟩)⟩

theorem Product.exists_factor (h : Product ts e) : ∀ t ∈ ts, ∃ x, Factor t x := by
  induction h with
  | pair hs ht => simpa using ⟨⟨_, hs⟩, ⟨_, ht⟩⟩
  | more ht _ ih => exact List.forall_mem_cons.mpr ⟨⟨_, ht⟩, ih⟩

theorem Derives.exists_factor {g : Grammar} (h : g.Derives s ts e) :
    ∀ t ∈ ts, isFactor t → ∃ x, Factor t x := by
  induction h with
  | @group opening closing ts e ho hc _ ih =>
    have hin : ¬ isFactor opening := by simp [isFactor, ho]
    have hout : ∀ t ∈ [closing], ¬ isFactor t := by simp [isFactor, hc]
    exact List.forall_mem_cons.mpr ⟨fun h => absurd h hin,
      List.forall_mem_append.mpr ⟨ih, readable_of_not_factor hout⟩⟩
  | bracketBinary ho hx hy =>
    exact List.forall_mem_cons.mpr ⟨fun h => absurd h ho.not_factor, List.forall_mem_append.mpr
      ⟨readable_of_not_factor hx.not_factor, readable_of_not_factor hy.not_factor⟩⟩
  | @superscript v mark xs a hv hm hx =>
    exact readable_script hv (by simp [isFactor, hm]) hx.not_factor
  | @subscript v mark xs a hv hm hx =>
    exact readable_script hv (by simp [isFactor, hm]) hx.not_factor
  | unaryBraced hu hx =>
    exact List.forall_mem_cons.mpr
      ⟨fun h => absurd h hu.not_factor, readable_of_not_factor hx.not_factor⟩
  | unaryAtom hu _ ih => exact List.forall_mem_cons.mpr ⟨fun h => absurd h hu.not_factor, ih⟩
  | product _ hp => exact fun t ht _ => hp.exists_factor t ht
  | factor hf => simpa using fun _ => ⟨_, hf⟩
  | chainOn _ ho _ ihl ihr =>
    exact List.forall_mem_append.mpr
      ⟨ihl, List.forall_mem_cons.mpr ⟨fun h => absurd h ho.not_factor, ihr⟩⟩
  | chainEnd _ ho _ ihl ihr =>
    exact List.forall_mem_append.mpr
      ⟨ihl, List.forall_mem_cons.mpr ⟨fun h => absurd h ho.not_factor, ihr⟩⟩
  | ofChain _ ih => exact ih
  | ofAtom _ ih => exact ih

theorem exists_product (h : ∀ t ∈ ts, ∃ x, Factor t x) (hl : 2 ≤ ts.length) :
    ∃ e, Product ts e := by
  induction ts with
  | nil => simp at hl
  | cons t ts ih =>
    obtain ⟨⟨x, ht⟩, hts⟩ := List.forall_mem_cons.mp h
    by_cases hn : 2 ≤ ts.length
    · obtain ⟨y, hy⟩ := ih hts hn
      exact ⟨_, .more ht hy⟩
    · obtain ⟨u, rfl⟩ : ∃ u, ts = [u] := by
        apply List.length_eq_one_iff.mp
        rw [List.length_cons] at hl
        omega
      obtain ⟨y, hu⟩ := hts u List.mem_cons_self
      exact ⟨_, .pair ht hu⟩

theorem mem_intersperse {t u : Token} (h : t ∈ ts) : t ∈ ts.intersperse u := by
  induction ts with
  | nil => cases h
  | cons v ts ih =>
    cases ts with
    | nil => exact h
    | cons w ts =>
      rcases List.mem_cons.mp h with rfl | h
      · exact List.mem_cons_self
      · exact List.mem_cons_of_mem v (List.mem_cons_of_mem u (ih h))

theorem product_of_derives (hf : ∀ t ∈ ts, isFactor t) (hl : 2 ≤ ts.length)
    (h : (Grammar.mk meaning false).Derives .expression (ts.intersperse signs.times) e) :
    Product ts e := by
  have hread : ∀ t ∈ ts, ∃ x, Factor t x := fun t ht =>
    h.exists_factor t (mem_intersperse ht) (hf t ht)
  obtain ⟨e', he⟩ := exists_product hread hl
  rw [h.unique (.ofChain (he.derives_chain signs))]
  exact he

theorem Derives.of_writeOut_of_groups {us : List Token}
    (h : (Grammar.mk meaning true).Derives s us e) (he : e.groups = 0)
    (hts : signs.writeOut ts = us) :
    ∃ e', (Grammar.mk meaning true).Derives s ts e' ∧ e'.bare = e.bare := by
  have hself : signs.writeOut ts = ts := by
    apply signs.writeOut_eq_self
    rw [hts, ← h.groups_eq, he]
  rw [← hself, hts]
  exact ⟨e, h, rfl⟩

theorem Derives.exists_cut {g : Grammar} {xs ys : List Token} {o : Token} (h : g.Derives s xs e)
    (hf : ¬ isFactor o) (ho : o.kind ≠ .parenLeft) (hts : signs.writeOut ts = xs ++ o :: ys) :
    ∃ left right, ts = left ++ o :: right ∧ signs.writeOut left = xs ∧ signs.writeOut right = ys :=
  signs.exists_cut hf ho (fun _ hus => h.balanced.closes.suffix hus) hts

theorem IsBinary.kind_ne_parenLeft {g : Grammar} {o : Token} {op : BinaryOp} (h : g.IsBinary o op) :
    o.kind ≠ .parenLeft := by
  rcases h.1 with hk | hk <;> simp [hk]

theorem Derives.of_writeOut {us : List Token} (h : (Grammar.mk meaning false).Derives s us e)
    (hts : signs.writeOut ts = us) :
    ∃ e', (Grammar.mk meaning true).Derives s ts e' ∧ e'.bare = e.bare := by
  induction h generalizing ts with
  | @group opening closing us e ho hc hd ih =>
    rcases signs.exists_group_cut ho hc hd.balanced.closes hts with
      ⟨inner, rfl, hin⟩ | ⟨hf, hl, rfl⟩
    · obtain ⟨e', hd', he⟩ := ih hin
      exact ⟨.group e', .group ho hc hd', he⟩
    · exact ⟨e, .product rfl (product_of_derives signs hf hl hd), rfl⟩
  | bracketBinary ho hx hy =>
    exact Derives.of_writeOut_of_groups signs (.bracketBinary ho hx hy) rfl hts
  | superscript hv hm hx =>
    exact Derives.of_writeOut_of_groups signs (.superscript hv hm hx) rfl hts
  | subscript hv hm hx =>
    exact Derives.of_writeOut_of_groups signs (.subscript hv hm hx) rfl hts
  | unaryBraced hu hx => exact Derives.of_writeOut_of_groups signs (.unaryBraced hu hx) rfl hts
  | @unaryAtom u op us e hu _ ih =>
    have hk : u.kind ≠ .parenLeft := by simp [hu.1]
    have hcut : signs.writeOut ts = [] ++ u :: us := hts
    obtain ⟨left, right, rfl, hleft, hright⟩ := signs.exists_cut hu.not_factor hk (by simp) hcut
    obtain ⟨e', hd, he⟩ := ih hright
    rw [signs.eq_nil_of_writeOut hleft]
    exact ⟨_, .unaryAtom hu hd, congrArg (Expr.unary op) he⟩
  | product hg _ => cases hg
  | factor hf => exact Derives.of_writeOut_of_groups signs (.factor hf) (hf.countKind_eq []).1 hts
  | @chainOn left right o op x y hl ho _ ihl ihr =>
    obtain ⟨left, right, rfl, hleft, hright⟩ :=
      hl.exists_cut signs ho.not_factor ho.kind_ne_parenLeft hts
    obtain ⟨x', hx, hxe⟩ := ihl hleft
    obtain ⟨y', hy, hye⟩ := ihr hright
    exact ⟨_, .chainOn hx ho hy, congrArg₂ (Expr.binary op) hxe hye⟩
  | @chainEnd left right o op x y hl ho _ ihl ihr =>
    obtain ⟨left, right, rfl, hleft, hright⟩ :=
      hl.exists_cut signs ho.not_factor ho.kind_ne_parenLeft hts
    obtain ⟨x', hx, hxe⟩ := ihl hleft
    obtain ⟨y', hy, hye⟩ := ihr hright
    exact ⟨_, .chainEnd hx ho hy, congrArg₂ (Expr.binary op) hxe hye⟩
  | ofChain _ ih =>
    obtain ⟨e', hd, he⟩ := ih hts
    exact ⟨e', .ofChain hd, he⟩
  | ofAtom _ ih =>
    obtain ⟨e', hd, he⟩ := ih hts
    exact ⟨e', .ofAtom hd, he⟩

/-- Tokens are read with implicit products exactly when the written ones are read without, and the
trees differ by groups: they have the same variables, and compile to the same function. -/
theorem parseComplete_writeOut (ts : List Token) :
    ((∃ e, parseComplete ⟨meaning, true⟩ ts = .ok e) ↔
      ∃ e, parseComplete ⟨meaning, false⟩ (signs.writeOut ts) = .ok e) ∧
    ∀ e e', parseComplete ⟨meaning, true⟩ ts = .ok e →
      parseComplete ⟨meaning, false⟩ (signs.writeOut ts) = .ok e' →
        e.bare = e'.bare ∧ e.vars = e'.vars ∧
          e.compile.map Function.call = e'.compile.map Function.call := by
  simp only [parseComplete_eq_ok]
  refine ⟨⟨?_, ?_⟩, ?_⟩
  · rintro ⟨e, h⟩
    obtain ⟨e', h', _⟩ := h.writeOut signs
    exact ⟨e', h'⟩
  · rintro ⟨e, h⟩
    obtain ⟨e', h', _⟩ := h.of_writeOut signs rfl
    exact ⟨e', h'⟩
  · intro e e' h h'
    obtain ⟨found, hd, hb⟩ := h.writeOut signs
    rw [hd.unique h'] at hb
    refine ⟨hb.symm, ?_, ?_⟩
    · rw [← e.vars_bare, ← e'.vars_bare, hb]
    · rw [← e.compile_bare, ← e'.compile_bare, hb]

def Signs.standard : Signs (Command.meaning Command.standard) where
  opening := ⟨.parenLeft, "(", 0, 0⟩
  times := ⟨.command, "\\cdot", 0, 0⟩
  closing := ⟨.parenRight, ")", 0, 0⟩
  opens := rfl
  closes := rfl
  command := rfl
  multiplies := by decide

theorem parseComplete_writeOut_sum :
    let ts : List Token := [⟨.var, "x", 0, 1⟩, ⟨.var, "y", 1, 2⟩, ⟨.command, "+", 2, 3⟩,
      ⟨.var, "z", 3, 4⟩]
    let e : Expr := .binary .add (.binary .multiply (.var "x") (.var "y")) (.var "z")
    Signs.standard.writeOut ts = [Signs.standard.opening, ⟨.var, "x", 0, 1⟩, Signs.standard.times,
        ⟨.var, "y", 1, 2⟩, Signs.standard.closing, ⟨.command, "+", 2, 3⟩, ⟨.var, "z", 3, 4⟩] ∧
      parseComplete ⟨Command.meaning Command.standard, true⟩ ts = .ok e ∧
      ∃ e', parseComplete ⟨Command.meaning Command.standard, false⟩
          (Signs.standard.writeOut ts) = .ok e' ∧
        e.bare = e'.bare ∧ e.compile.map Function.call = e'.compile.map Function.call := by
  intro ts e
  have hp : Product [⟨.var, "x", 0, 1⟩, ⟨.var, "y", 1, 2⟩]
      (.binary .multiply (.var "x") (.var "y")) := .pair (.var rfl) (.var rfl)
  have hd : Derives ⟨Command.meaning Command.standard, true⟩ .chain ts e :=
    .chainEnd (o := ⟨.command, "+", 2, 3⟩) (.product rfl hp) ⟨.inl rfl, by decide⟩
      (.factor (.var rfl))
  have h := parseComplete_eq_ok.mpr (.ofChain hd)
  obtain ⟨e', h'⟩ := (parseComplete_writeOut Signs.standard ts).1.mp ⟨e, h⟩
  obtain ⟨hb, _, hc⟩ := (parseComplete_writeOut Signs.standard ts).2 e e' h h'
  have hw : Signs.standard.writeOut ts = [Signs.standard.opening, ⟨.var, "x", 0, 1⟩,
      Signs.standard.times, ⟨.var, "y", 1, 2⟩, Signs.standard.closing, ⟨.command, "+", 2, 3⟩,
      ⟨.var, "z", 3, 4⟩] := by
    simp [ts, Signs.writeOut, Signs.writeRun, isFactor]
  exact ⟨hw, h, e', h', hb, hc⟩

end MathMarkup.Grammar
