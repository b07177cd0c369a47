import MathMarkup.Proofs.Appending

/-!
# Calls of the scanner

A call looks at one character after another until it comes to the end of a token. Some of its rounds
take no character: a character behind a token is left to the next call, and the brace that closes
empty braces is looked at twice. Still a call comes to its end, with the token and the state that the
scanner yields. Between calls nothing is open but the braces of an argument that has not begun, the
offsets stand between characters, and the tokens to come are not more than the bytes ahead. A call
that yields nothing changes nothing for the next ones.
-/

namespace MathMarkup.Scanner

open Token (kindOf? runsOn isNumeral)

/-! ## Rounds of a call -/

def slice (low high here : Nat) : List Char → List Char
  | [] => []
  | c :: cs =>
    if low ≤ here ∧ here < high then c :: slice low high (here + c.utf8Size) cs
    else slice low high (here + c.utf8Size) cs

/-- The state within a call: where it reads, and what is open since the mark. -/
structure Cursor where
  input : List Char
  rest : List Char
  pos : Nat
  mark : Nat
  mode : Mode
  deriving DecidableEq, Repr

def cursor (s : Scanner) : Cursor :=
  ⟨s.input, s.rest, s.pos, s.mark, if s.inArgument then .argument else .outside⟩

namespace Cursor

def token (s : Cursor) (kind : Token.Kind) (start stop : Nat) : Token :=
  ⟨kind, String.ofList (slice start stop 0 s.input), start, stop⟩

def close (s : Cursor) (kind : Token.Kind) (stop : Nat) : Option Token × Cursor :=
  (some (s.token kind s.mark stop), { s with mode := .outside })

def flush (s : Cursor) : Option Token × Cursor :=
  match s.mode.kind? with
  | none => (none, s)
  | some kind =>
    if s.mark < byteLength s.input then s.close kind (byteLength s.input)
    else (none, { s with mode := .outside })

/-- One round: the call goes on, or it returns. -/
def step (s : Cursor) : Cursor ⊕ (Option Token × Cursor) :=
  match s.rest with
  | [] => .inr s.flush
  | c :: cs =>
    let on : Cursor := { s with rest := cs, pos := s.pos + c.utf8Size }
    match s.mode with
    | .command =>
      if c = '\\' ∨ c = '\x7b' then .inr (s.close .command s.pos)
      else if c = ' ' then .inr (on.close .command s.pos)
      else .inl on
    | .number => if isNumeral c then .inl on else .inr (s.close .number s.pos)
    | .argument =>
      if c = '\x7d' then
        if s.mark < s.pos then .inr (s.close .arg s.pos) else .inl { s with mode := .outside }
      else .inl on
    | .outside =>
      if isNumeral c ∨ c = '\\' then .inl { on with mode := Mode.opened c, mark := s.pos }
      else match kindOf? c with
        | none => .inl on
        | some kind =>
          if kind = .argStart then
            .inr (some (s.token kind s.pos on.pos), { on with mode := .argument, mark := on.pos })
          else .inr (some (s.token kind s.pos on.pos), on)

def run : Nat → Cursor → Option (Option Token × Cursor)
  | 0, _ => none
  | rounds + 1, s =>
    match s.step with
    | .inl s' => run rounds s'
    | .inr r => some r

end Cursor

/-! ## Slices -/

variable {low high here : Nat} {before between body behind cs : List Char} {c : Char}

theorem slice_append (xs ys : List Char) :
    slice low high here (xs ++ ys) =
      slice low high here xs ++ slice low high (here + byteLength xs) ys := by
  induction xs generalizing here with
  | nil => rfl
  | cons x xs ih =>
    simp only [List.cons_append, slice, byteLength, ih, Nat.add_assoc]
    split_ifs
    · rfl
    · rfl

theorem slice_before (h : here + byteLength cs ≤ low) : slice low high here cs = [] := by
  induction cs generalizing here with
  | nil => rfl
  | cons c cs ih =>
    rw [byteLength] at h
    have hc := c.utf8Size_pos
    rw [slice, if_neg (by omega), ih (by omega)]

theorem slice_within (hs : low ≤ here) (h : here + byteLength cs ≤ high) :
    slice low high here cs = cs := by
  induction cs generalizing here with
  | nil => rfl
  | cons c cs ih =>
    rw [byteLength] at h
    have hc := c.utf8Size_pos
    rw [slice, if_pos (by omega), ih (by omega) (by omega)]

theorem slice_behind (h : high ≤ here) : slice low high here cs = [] := by
  induction cs generalizing here with
  | nil => rfl
  | cons c cs ih => rw [slice, if_neg (by omega), ih (by omega)]

theorem slice_eq (hs : low = byteLength before) (ht : high = byteLength (before ++ body)) :
    slice low high 0 (before ++ body ++ behind) = body := by
  rw [byteLength_append] at ht
  have hbefore : slice low high 0 before = [] := slice_before (by omega)
  rw [slice_append, slice_append, hbefore, slice_within (by omega) (by omega),
    slice_behind (by rw [byteLength_append]; omega), List.nil_append, List.append_nil]

/-! ## A whole call -/

namespace Cursor

variable {s s' : Cursor} {r : Option Token × Cursor} {rounds more : Nat} {kind : Token.Kind}

theorem run_of_goes (hs : s.step = .inl s') (h : s'.run rounds = some r) :
    s.run (rounds + 1) = some r := by
  rw [run, hs]
  exact h

theorem run_of_returns (hs : s.step = .inr r) : s.run 1 = some r := by
  rw [run, hs]

theorem run_mono (h : s.run rounds = some r) (hle : rounds ≤ more) : s.run more = some r := by
  induction rounds generalizing s more with
  | zero => cases h
  | succ rounds ih =>
    obtain ⟨more, rfl⟩ : ∃ k, more = k + 1 := ⟨more - 1, by omega⟩
    rw [run] at h ⊢
    split at h
    · exact ih h (by omega)
    · exact h

theorem step_of_goesOn (hr : s.rest = c :: cs) (hc : s.mode.goesOn c) :
    s.step = .inl { s with rest := cs, pos := s.pos + c.utf8Size } := by
  unfold step
  rw [hr]
  cases hm : s.mode with
  | outside =>
    rw [hm] at hc
    cases hc
  | command =>
    rw [hm] at hc
    simp_all [Mode.goesOn, runsOn, isNumeral, Token.endsCommand]
  | number =>
    rw [hm] at hc
    simp_all [Mode.goesOn]
  | argument =>
    rw [hm] at hc
    simp_all [Mode.goesOn]

theorem run_along (hr : s.rest = body ++ behind) (hb : ∀ c ∈ body, s.mode.goesOn c)
    (h : run rounds { s with rest := behind, pos := s.pos + byteLength body } = some r) :
    s.run (rounds + body.length) = some r := by
  induction body generalizing s with
  | nil =>
    rw [List.nil_append] at hr
    simpa [← hr, byteLength] using h
  | cons c body ih =>
    have hc := hb c List.mem_cons_self
    refine run_of_goes (step_of_goesOn hr hc) (ih rfl ?_ ?_)
    · exact fun d hd => hb d (List.mem_cons_of_mem c hd)
    · rw [byteLength, ← Nat.add_assoc] at h
      exact h

def passed (s : Cursor) : Cursor :=
  let spaced := s.mode = .command ∧ s.rest.head? = some ' '
  { s with
    mode := .outside
    rest := if spaced then s.rest.tail else s.rest
    pos := if spaced then s.pos + 1 else s.pos }

theorem step_of_stop (hk : s.mode.kind? = some kind) (hlt : s.mark < s.pos)
    (hend : s.pos + byteLength s.rest = byteLength s.input)
    (hstop : ∀ c ∈ s.rest.head?, ¬ s.mode.goesOn c) :
    s.step = .inr (some (s.token kind s.mark s.pos), s.passed) := by
  unfold step passed
  cases hr : s.rest with
  | nil =>
    have hpos : byteLength s.input = s.pos := by
      rw [hr] at hend
      exact hend.symm
    simp [flush, hk, hpos, hlt, close, hr]
  | cons c cs =>
    rw [hr] at hstop
    have hc := hstop c rfl
    cases hm : s.mode with
    | outside =>
      rw [hm] at hk
      cases hk
    | command =>
      rw [hm] at hk hc
      cases hk
      have hends : c = '\\' ∨ c = ' ' ∨ c = '\x7b' := by
        simpa [Mode.goesOn, runsOn, isNumeral, Token.endsCommand, or_iff_not_imp_left] using hc
      rcases hends with rfl | rfl | rfl
      · simp [close, hr]
      · simp [close, token]
        rfl
      · simp [close, hr]
    | number =>
      rw [hm] at hk hc
      cases hk
      have hn : isNumeral c = false := by simpa [Mode.goesOn] using hc
      simp [hn, close, hr]
    | argument =>
      rw [hm] at hk hc
      cases hk
      have hb : c = '\x7d' := by simpa [Mode.goesOn] using hc
      simp [hb, hlt, close, hr]

theorem exists_run_of_open (hk : s.mode.kind? = some kind)
    (hi : s.input = before ++ body ++ s.rest) (hm : s.mark = byteLength before)
    (hp : s.pos = byteLength (before ++ body))
    (hne : body ++ s.rest.takeWhile s.mode.goesOn ≠ []) :
    ∃ rounds ≤ s.rest.length + 1, s.run rounds =
      some (some ⟨kind, String.ofList (body ++ s.rest.takeWhile s.mode.goesOn), s.mark,
          s.pos + byteLength (s.rest.takeWhile s.mode.goesOn)⟩,
        passed { s with
          rest := s.rest.dropWhile s.mode.goesOn
          pos := s.pos + byteLength (s.rest.takeWhile s.mode.goesOn) }) := by
  have hcut : s.rest = s.rest.takeWhile s.mode.goesOn ++ s.rest.dropWhile s.mode.goesOn :=
    List.takeWhile_append_dropWhile.symm
  generalize hxs : s.rest.takeWhile s.mode.goesOn = xs at hcut hne ⊢
  generalize hys : s.rest.dropWhile s.mode.goesOn = ys at hcut ⊢
  have hgoes : ∀ c ∈ xs, s.mode.goesOn c := fun c hc => of_mem_takeWhile (hxs ▸ hc)
  have hstop : ∀ c ∈ ys.head?, ¬ s.mode.goesOn c := fun c hc =>
    not_of_mem_head?_dropWhile (hys ▸ hc)
  have hlen : s.rest.length = xs.length + ys.length := by rw [hcut, List.length_append]
  rw [hcut] at hi
  have hbytes := byteLength_pos hne
  rw [byteLength_append] at hp hbytes
  have hend : s.pos + byteLength xs + byteLength ys = byteLength s.input := by
    rw [hi, hp]
    simp only [byteLength_append]
    omega
  have hslice : slice s.mark (s.pos + byteLength xs) 0 s.input = body ++ xs := by
    have htext : s.input = before ++ (body ++ xs) ++ ys := by
      rw [hi]
      simp only [List.append_assoc]
    rw [htext]
    refine slice_eq hm ?_
    simp only [byteLength_append]
    omega
  have hstep := step_of_stop (s := { s with rest := ys, pos := s.pos + byteLength xs }) hk
    (show s.mark < s.pos + byteLength xs by omega) hend hstop
  rw [token, hslice] at hstep
  exact ⟨1 + xs.length, by omega, run_along hcut hgoes (run_of_returns hstep)⟩

end Cursor

theorem cursor_of_outside {s : Scanner} (h : s.inArgument = false) :
    s.cursor = ⟨s.input, s.rest, s.pos, s.mark, .outside⟩ := by
  simp [cursor, h]

theorem take_of_open {s : Scanner} {kind : Token.Kind} (hk : kindOf? c = some kind)
    (ho : isNumeral c ∨ c = '\\') :
    ((some (s.take kind here c cs).1, (s.take kind here c cs).2.cursor) : Option Token × Cursor) =
      (some ⟨kind, String.ofList ([c] ++ cs.takeWhile (runsOn c)), here,
          here + c.utf8Size + byteLength (cs.takeWhile (runsOn c))⟩,
        Cursor.passed ⟨s.input, cs.dropWhile (runsOn c),
          here + c.utf8Size + byteLength (cs.takeWhile (runsOn c)), here, Mode.opened c⟩) := by
  have hmark : c = '\\' ∨ kind = .number := by
    rcases ho with hn | hb
    · exact .inr (by simpa [kindOf?, hn] using hk.symm)
    · exact .inl hb
  have hne : kind ≠ .argStart := (Progress.opened_run hk ho).2.2
  have hmode : Mode.opened c = .command ↔ c = '\\' := by
    rcases ho with hn | rfl
    · have hb : c ≠ '\\' := by
        rintro rfl
        cases hn
      simp [Mode.opened, hn, hb]
    · decide
  simp [take, cursor, Cursor.passed, hmark, hne, hmode, byteLength, Nat.add_assoc]

theorem step_single {s : Scanner} {kind : Token.Kind} (hi : s.input = before ++ c :: cs)
    (hk : kindOf? c = some kind) (hn : isNumeral c = false) (hb : c ≠ '\\') :
    Cursor.step ⟨s.input, c :: cs, byteLength before, s.mark, .outside⟩ =
      .inr (some (s.take kind (byteLength before) c cs).1,
        (s.take kind (byteLength before) c cs).2.cursor) := by
  have hstop : ∀ d ∈ cs.head?, ¬ runsOn c d := fun d _ => by simp [Token.runsOn_eq_false hn hb]
  have hnumber : kind ≠ .number := by
    rintro rfl
    rcases Token.kindOf?_cases hk with ⟨hc, _⟩ | ⟨_, hc⟩ | hc
    · simp [hn] at hc
    · cases hc
    · simp at hc
  have hslice : slice (byteLength before) (byteLength before + c.utf8Size) 0 s.input = [c] := by
    have htext : s.input = before ++ [c] ++ cs := by simp [hi]
    rw [htext]
    exact slice_eq rfl (byteLength_append before [c]).symm
  simp only [Cursor.step, hn, hb, Bool.false_eq_true, or_self, if_false, hk, Cursor.token, hslice,
    take, takeWhile_of_stop hstop, dropWhile_of_stop hstop, hnumber, false_and, cursor,
    decide_eq_true_eq, byteLength, Nat.add_zero]
  split_ifs
  · rfl
  · rfl

theorem exists_run_seek (s : Scanner) (hi : s.input = before ++ cs) :
    ∃ rounds ≤ cs.length + 1,
      Cursor.run rounds ⟨s.input, cs, byteLength before, s.mark, .outside⟩ =
        some ((s.seek (byteLength before) cs).1, (s.seek (byteLength before) cs).2.cursor) := by
  induction cs generalizing before with
  | nil => exact ⟨1, Nat.le_refl 1, Cursor.run_of_returns rfl⟩
  | cons c cs ih =>
    have hread : s.input = (before ++ [c]) ++ cs := by simp [hi]
    have hhere : byteLength (before ++ [c]) = byteLength before + c.utf8Size := byteLength_append _ _
    rw [seek]
    cases hk : kindOf? c with
    | none =>
      have hopen : ¬(isNumeral c ∨ c = '\\') := by
        rintro (hn | rfl)
        · simp [kindOf?, hn] at hk
        · simp [kindOf?, isNumeral] at hk
      obtain ⟨rounds, hle, hrun⟩ := ih hread
      rw [hhere] at hrun
      refine ⟨rounds + 1, by simpa using hle, Cursor.run_of_goes ?_ hrun⟩
      simp [Cursor.step, hopen, hk]
    | some kind =>
      by_cases hopen : isNumeral c ∨ c = '\\'
      · obtain ⟨hkind, hgoes, hne⟩ := Progress.opened_run hk hopen
        obtain ⟨rounds, hle, hrun⟩ := Cursor.exists_run_of_open
          (s := ⟨s.input, cs, byteLength before + c.utf8Size, byteLength before, Mode.opened c⟩)
          hkind hread rfl hhere.symm (by simp)
        simp only [hgoes] at hrun
        rw [← take_of_open hk hopen] at hrun
        refine ⟨rounds + 1, by simpa using hle, Cursor.run_of_goes ?_ hrun⟩
        simp [Cursor.step, hopen]
      · obtain ⟨hn, hb⟩ := not_or.mp hopen
        have hstep := step_single hi hk (by simpa using hn) hb
        exact ⟨1, by simp, Cursor.run_of_returns hstep⟩

/-- Both offsets stand between characters, and an argument that is to come begins at the mark. -/
structure WellPlaced (s : Scanner) : Prop where
  cut : ∃ before between, s.input = before ++ between ++ s.rest ∧ s.mark = byteLength before ∧
    s.pos = byteLength (before ++ between)
  argument : s.inArgument = true → s.mark = s.pos

theorem eq_close_of_braced {s : Scanner} (ha : s.inArgument = true) (hb : s.braced = []) :
    ∀ c ∈ s.rest.head?, c = '\x7d' := by
  rw [braced, if_pos ha] at hb
  intro c hc
  obtain ⟨cs, hcs⟩ := List.head?_eq_some_iff.mp hc
  rw [hcs] at hb
  simpa [List.takeWhile_cons] using hb

theorem inArgument_of_braced {s : Scanner} (hb : s.braced ≠ []) :
    s.inArgument = true ∧ s.braced = s.rest.takeWhile Mode.argument.goesOn := by
  unfold braced at hb ⊢
  split_ifs at hb ⊢ with ha
  · exact ⟨ha, rfl⟩
  · exact absurd rfl hb

theorem drop_braced {s : Scanner} (hb : s.braced ≠ []) :
    s.rest.drop s.braced.length = s.rest.dropWhile Mode.argument.goesOn := by
  have hcut : (s.rest.takeWhile Mode.argument.goesOn ++
      s.rest.dropWhile Mode.argument.goesOn).drop s.braced.length =
        s.rest.dropWhile Mode.argument.goesOn := by
    rw [(inArgument_of_braced hb).2, List.drop_left]
  rwa [List.takeWhile_append_dropWhile] at hcut

theorem cursor_of_inArgument {s : Scanner} (h : s.inArgument = true) :
    s.cursor = ⟨s.input, s.rest, s.pos, s.mark, .argument⟩ := by
  simp [cursor, h]

theorem run_of_empty {s : Scanner} (h : s.WellPlaced) (hb : s.braced = []) :
    s.cursor.run (s.rest.length + 2) =
      some ((s.seek s.pos s.rest).1, (s.seek s.pos s.rest).2.cursor) := by
  obtain ⟨before, between, hi, hm, hp⟩ := h.cut
  obtain ⟨rounds, hle, hrun⟩ := s.exists_run_seek hi
  rw [← hp] at hrun
  cases ha : s.inArgument with
  | false =>
    rw [cursor_of_outside ha]
    exact Cursor.run_mono hrun (by omega)
  | true =>
    have hclose := eq_close_of_braced ha hb
    have hmark : ¬ s.mark < s.pos := Nat.not_lt.mpr (h.argument ha).ge
    rw [cursor_of_inArgument ha]
    cases hr : s.rest with
    | nil =>
      have hpos : byteLength s.input = s.pos := by
        rw [hi, hr, List.append_nil, hp]
      refine Cursor.run_mono (Cursor.run_of_returns ?_) (Nat.le_add_left 1 1)
      simp [Cursor.step, Cursor.flush, Mode.kind?, hpos, hmark, seek, cursor]
    | cons c cs =>
      rw [hr] at hclose hrun hle
      obtain rfl := hclose c rfl
      refine Cursor.run_mono (Cursor.run_of_goes ?_ hrun) (by omega)
      simp [Cursor.step, hmark]

theorem run_of_argument {s : Scanner} (h : s.WellPlaced) (hb : s.braced ≠ []) :
    s.cursor.run (s.rest.length + 2) = some (s.next.1, s.next.2.cursor) := by
  obtain ⟨before, between, hi, hm, hp⟩ := h.cut
  obtain ⟨ha, hbraced⟩ := inArgument_of_braced hb
  have hmark := h.argument ha
  have hnext : (s.next.1, s.next.2.cursor) =
      (some ⟨.arg, String.ofList ([] ++ s.rest.takeWhile Mode.argument.goesOn), s.mark,
          s.pos + byteLength (s.rest.takeWhile Mode.argument.goesOn)⟩,
        Cursor.passed ⟨s.input, s.rest.dropWhile Mode.argument.goesOn,
          s.pos + byteLength (s.rest.takeWhile Mode.argument.goesOn), s.mark, .argument⟩) := by
    rw [next, if_neg hb, drop_braced hb, hbraced]
    simp [cursor, Cursor.passed, hmark]
  rw [cursor_of_inArgument ha, hnext]
  rw [hbraced] at hb
  have hkind : Mode.argument.kind? = some .arg := rfl
  have hcut : s.input = (before ++ between) ++ [] ++ s.rest := by simpa using hi
  have hpos : s.pos = byteLength ((before ++ between) ++ []) := by simpa using hp
  obtain ⟨rounds, hle, hrun⟩ := Cursor.exists_run_of_open
    (s := ⟨s.input, s.rest, s.pos, s.mark, .argument⟩) hkind hcut (hmark.trans hp) hpos hb
  exact Cursor.run_mono hrun (Nat.le_succ_of_le hle)

/-- A call comes to its end, and what it returns is what the scanner yields. -/
theorem run_cursor {s : Scanner} (h : s.WellPlaced) :
    s.cursor.run (s.rest.length + 2) = some (s.next.1, s.next.2.cursor) := by
  by_cases hb : s.braced = []
  · rw [run_of_empty h hb, next, if_pos hb]
  · exact run_of_argument h hb

/-! ## Between calls -/

theorem wellPlaced_start (input : String) : (start input).WellPlaced :=
  ⟨⟨[], [], rfl, rfl, rfl⟩, fun hf => absurd hf Bool.false_ne_true⟩

theorem exists_taken (s : Scanner) (kind : Token.Kind) (here : Nat) (c : Char) (cs : List Char) :
    ∃ taken, c :: cs = taken ++ (s.take kind here c cs).2.rest ∧
      (s.take kind here c cs).2.pos = here + byteLength taken := by
  have hcut : c :: cs = (c :: cs.takeWhile (runsOn c)) ++ cs.dropWhile (runsOn c) := by simp
  by_cases hsp : c = '\\' ∧ (cs.dropWhile (runsOn c)).head? = some ' '
  · obtain ⟨ds, hds⟩ := List.head?_eq_some_iff.mp hsp.2
    refine ⟨(c :: cs.takeWhile (runsOn c)) ++ [' '], ?_, ?_⟩
    · have hrest : (s.take kind here c cs).2.rest = ds := by
        simp only [take, if_pos hsp]
        rw [hds, List.tail_cons]
      rw [hrest, hcut, hds]
      simp
    · have hspace : byteLength [' '] = 1 := by decide
      simp only [take, if_pos hsp, byteLength_append, hspace, Nat.add_assoc]
  · refine ⟨c :: cs.takeWhile (runsOn c), ?_, ?_⟩
    · simpa only [take, if_neg hsp] using hcut
    · simp only [take, if_neg hsp]

theorem mark_take_argStart (s : Scanner) (here : Nat) (cs : List Char)
    (hk : kindOf? c = some .argStart) :
    (s.take .argStart here c cs).2.mark = (s.take .argStart here c cs).2.pos := by
  obtain rfl := Token.eq_of_kindOf?_argStart hk
  simp [take]

theorem wellPlaced_take {s : Scanner} {kind : Token.Kind} (hk : kindOf? c = some kind)
    (hi : s.input = before ++ between ++ c :: cs) (hm : s.mark = byteLength before) :
    (s.take kind (byteLength (before ++ between)) c cs).2.WellPlaced := by
  obtain ⟨taken, hcut, hpos⟩ := s.exists_taken kind (byteLength (before ++ between)) c cs
  rw [← byteLength_append] at hpos
  rw [hcut] at hi
  by_cases ha : kind = .argStart
  · subst ha
    have hmark := mark_take_argStart s (byteLength (before ++ between)) cs hk
    refine ⟨⟨before ++ between ++ taken, [], ?_, hmark.trans hpos, ?_⟩, fun _ => hmark⟩
    · simpa [take] using hi
    · rwa [List.append_nil]
  · refine ⟨?_, fun hf => absurd (of_decide_eq_true hf) ha⟩
    by_cases hopen : c = '\\' ∨ kind = .number
    · refine ⟨before ++ between, taken, hi.trans (List.append_assoc _ _ _).symm, ?_, hpos⟩
      simp only [take, if_pos hopen]
    · refine ⟨before, between ++ taken, ?_, ?_, ?_⟩
      · simpa [take] using hi
      · simp only [take, if_neg hopen, if_neg ha, hm]
      · rw [hpos, List.append_assoc]

theorem wellPlaced_seek {s : Scanner} (hi : s.input = before ++ between ++ cs)
    (hm : s.mark = byteLength before) :
    (s.seek (byteLength (before ++ between)) cs).2.WellPlaced := by
  induction cs generalizing between with
  | nil => exact ⟨⟨before, between, hi, hm, rfl⟩, fun hf => absurd hf Bool.false_ne_true⟩
  | cons c cs ih =>
    rw [seek]
    cases hk : kindOf? c with
    | none =>
      have hread : s.input = before ++ (between ++ [c]) ++ cs := by simp [hi]
      have hhere : byteLength (before ++ (between ++ [c])) =
          byteLength (before ++ between) + c.utf8Size := by
        rw [← List.append_assoc, byteLength_append]
        rfl
      have hseek := ih hread
      rwa [hhere] at hseek
    | some kind => exact wellPlaced_take hk hi hm

theorem WellPlaced.next {s : Scanner} (h : s.WellPlaced) : s.next.2.WellPlaced := by
  obtain ⟨before, between, hi, hm, hp⟩ := h.cut
  by_cases hb : s.braced = []
  · rw [Scanner.next, if_pos hb, hp]
    exact wellPlaced_seek hi hm
  · rw [Scanner.next, if_neg hb]
    refine ⟨⟨before, between ++ s.braced, ?_, hm, ?_⟩, fun hf => absurd hf Bool.false_ne_true⟩
    · rw [hi, drop_braced hb, (inArgument_of_braced hb).2]
      simp
    · rw [hp, ← byteLength_append, List.append_assoc]

def after (input : String) : Nat → Scanner
  | 0 => start input
  | calls + 1 => (after input calls).next.2

theorem input_seek (s : Scanner) (here : Nat) (cs : List Char) :
    (s.seek here cs).2.input = s.input := by
  induction cs generalizing here with
  | nil => rfl
  | cons c cs ih =>
    rw [seek]
    split
    · exact ih _
    · rfl

theorem input_after (input : String) (calls : Nat) : (after input calls).input = input.toList := by
  induction calls with
  | zero => rfl
  | succ calls ih =>
    rw [after, next]
    split_ifs
    · rw [input_seek, ih]
    · exact ih

theorem wellPlaced_after (input : String) (calls : Nat) : (after input calls).WellPlaced := by
  induction calls with
  | zero => exact wellPlaced_start input
  | succ calls ih => exact ih.next

theorem length_le_byteLength (cs : List Char) : cs.length ≤ byteLength cs := by
  induction cs with
  | nil => exact Nat.le_refl 0
  | cons c cs ih =>
    have hc := c.utf8Size_pos
    simp only [List.length_cons, byteLength]
    omega

theorem length_tokens_le (s : Scanner) : s.tokens.length ≤ s.rest.length := by
  induction hn : s.rest.length using Nat.strongRecOn generalizing s with
  | ind n ih =>
    rw [tokens]
    split
    · exact Nat.zero_le n
    · next t s' hs =>
      have hlt := next_rest_length_lt hs
      have hle := ih s'.rest.length (by omega) s' rfl
      rw [List.length_cons]
      omega

/-! ## The end of the tokens -/

theorem seek_of_none {s : Scanner} (h : (s.seek here cs).1 = none) :
    ∃ stop, (s.seek here cs).2 = { s with rest := [], pos := stop, inArgument := false } := by
  induction cs generalizing here with
  | nil => exact ⟨here, rfl⟩
  | cons c cs ih =>
    rw [seek] at h ⊢
    cases hk : kindOf? c with
    | none =>
      rw [hk] at h
      exact ih h
    | some kind =>
      rw [hk] at h
      cases h

theorem next_of_none {s : Scanner} (h : s.next.1 = none) : s.next.2.next = (none, s.next.2) := by
  have hb : s.braced = [] := by
    by_contra hb
    rw [next, if_neg hb] at h
    cases h
  have hnext : s.next = s.seek s.pos s.rest := by rw [next, if_pos hb]
  rw [hnext] at h ⊢
  obtain ⟨stop, hstop⟩ := seek_of_none h
  rw [hstop]
  simp [next, braced, seek]

theorem after_of_none {input : String} {calls : Nat} (h : (after input calls).next.1 = none)
    (more : Nat) : after input (calls + 1 + more) = after input (calls + 1) ∧
      (after input (calls + 1 + more)).next = (none, after input (calls + 1)) := by
  have hstay : (after input (calls + 1)).next = (none, after input (calls + 1)) := next_of_none h
  induction more with
  | zero => exact ⟨rfl, hstay⟩
  | succ more ih =>
    have hsame : after input (calls + 1 + (more + 1)) = after input (calls + 1) := by
      have hlast : after input (calls + 1 + (more + 1)) =
          (after input (calls + 1 + more)).next.2 := rfl
      rw [hlast, ih.2]
    exact ⟨hsame, by rw [hsame, hstay]⟩

/-- After any number of calls the offsets stand between characters of the text, nothing is open but
an argument that begins at the mark, and the next call returns. The bound on the tokens to come is
taken without underflow, and they are not more than the bytes ahead. Once a call yields nothing, no
later call yields anything or changes the scanner. -/
theorem calls_keep_contract {input : String} {calls : Nat} {s : Scanner}
    (hs : after input calls = s) :
    (∃ before between, input.toList = before ++ between ++ s.rest ∧ s.mark = byteLength before ∧
      s.pos = byteLength (before ++ between)) ∧
    s.mark ≤ s.pos ∧ s.pos + byteLength s.rest = byteLength input.toList ∧
    (s.cursor.mode = .outside ∨ s.cursor.mode = .argument ∧ s.mark = s.pos) ∧
    s.cursor.run (s.rest.length + 2) = some (s.next.1, (after input (calls + 1)).cursor) ∧
    s.sizeBound + s.pos = byteLength input.toList + 1 ∧
    s.tokens.length ≤ byteLength s.rest ∧ s.tokens.length ≤ s.sizeBound ∧
    (s.next.1 = none → ∀ more, after input (calls + 1 + more) = after input (calls + 1) ∧
      (after input (calls + 1 + more)).next = (none, after input (calls + 1))) := by
  have hplaced : s.WellPlaced := hs ▸ wellPlaced_after input calls
  have hinput : s.input = input.toList := hs ▸ input_after input calls
  have hrun : s.cursor.run (s.rest.length + 2) =
      some (s.next.1, (after input (calls + 1)).cursor) := by
    rw [after, hs, run_cursor hplaced]
  obtain ⟨before, between, hcut, hmark, hpos⟩ := hplaced.cut
  rw [hinput] at hcut
  have hbytes : s.pos + byteLength s.rest = byteLength input.toList := by
    rw [hcut, hpos, byteLength_append (before ++ between)]
  have htokens := s.length_tokens_le.trans (length_le_byteLength s.rest)
  have hbound : s.sizeBound = byteLength s.rest + 1 := by
    rw [sizeBound, hinput, ← hbytes, Nat.add_sub_cancel_left]
  refine ⟨⟨before, between, hcut, hmark, hpos⟩, ?_, hbytes, ?_, hrun, ?_, htokens, ?_,
    fun hnone => after_of_none (hs ▸ hnone)⟩
  · rw [hmark, hpos, byteLength_append]
    exact Nat.le_add_right _ _
  · cases ha : s.inArgument with
    | false => exact .inl (by simp [cursor, ha])
    | true => exact .inr ⟨by simp [cursor, ha], hplaced.argument ha⟩
  · omega
  · omega

theorem calls_keep_contract_braces :
    (after "α\x7b\x7d " 2).next.1 = none ∧
      (∀ more, after "α\x7b\x7d " (3 + more) = after "α\x7b\x7d " 3 ∧
        (after "α\x7b\x7d " (3 + more)).next = (none, after "α\x7b\x7d " 3)) ∧
      (after "α\x7b\x7d " 1).cursor = ⟨['α', '\x7b', '\x7d', ' '], ['\x7d', ' '], 3, 3, .argument⟩ ∧
      (after "α\x7b\x7d " 1).cursor.run 4 =
        some ((after "α\x7b\x7d " 1).next.1, (after "α\x7b\x7d " 2).cursor) := by
  have hnone : (after "α\x7b\x7d " 2).next.1 = none := by decide
  obtain ⟨_, _, _, _, _, _, _, _, hfused⟩ := calls_keep_contract
    (rfl : after "α\x7b\x7d " 2 = after "α\x7b\x7d " 2)
  obtain ⟨_, _, _, _, hrun, _⟩ := calls_keep_contract
    (rfl : after "α\x7b\x7d " 1 = after "α\x7b\x7d " 1)
  exact ⟨hnone, hfused hnone, by decide, hrun⟩

end MathMarkup.Scanner
