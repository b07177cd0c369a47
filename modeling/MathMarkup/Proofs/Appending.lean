import Mathlib.Data.List.TakeWhile
import MathMarkup.Text
import MathMarkup.Proofs.MaximalMunch

/-!
# Texts read piece by piece

A text can be read one character at a time. What has been read leaves some tokens complete and at
most one open, which the next characters may make longer. Both ways of reading yield the same tokens,
so what the tokens of a text have to do with those of a longer text is decided by what is open at the
end of the shorter one.
-/

namespace MathMarkup

open Token (kindOf? runsOn isNumeral)

def Token.shift (k : Nat) (t : Token) : Token :=
  { t with start := k + t.start, stop := k + t.stop }

namespace Scanner

/-- What is open at the end of a text. Behind an opening brace it is an argument, even before there
is anything in it. -/
inductive Mode
  | outside | command | number | argument
  deriving DecidableEq, Repr

namespace Mode

def goesOn : Mode → Char → Bool
  | outside, _ => false
  | command, c => runsOn '\\' c
  | number, c => isNumeral c
  | argument, c => c ≠ '\x7d'

def opened (c : Char) : Mode :=
  if isNumeral c then number
  else if c = '\\' then command
  else if c = '\x7b' then argument
  else outside

def kind? : Mode → Option Token.Kind
  | outside => none
  | command => some .command
  | number => some .number
  | argument => some .arg

end Mode

/-- How far a text has been read: the complete tokens, and the text that is open with the offset at
which it begins. -/
structure Progress where
  mode : Mode
  mark : Nat
  text : List Char
  done : List Token
  deriving DecidableEq, Repr

namespace Progress

def start : Progress := ⟨.outside, 0, [], []⟩

def here (p : Progress) : Nat := p.mark + byteLength p.text

def pending (p : Progress) : List Token :=
  if p.text = [] then []
  else p.mode.kind?.toList.map fun kind => ⟨kind, String.ofList p.text, p.mark, p.here⟩

def tokens (p : Progress) : List Token := p.done ++ p.pending

def extend (p : Progress) (cs : List Char) : Progress := { p with text := p.text ++ cs }

def step (p : Progress) (c : Char) : Progress :=
  if p.mode.goesOn c then p.extend [c]
  else match kindOf? c with
    | none => ⟨.outside, p.here + c.utf8Size, [], p.tokens⟩
    | some kind =>
      if isNumeral c ∨ c = '\\' then ⟨Mode.opened c, p.here, [c], p.tokens⟩
      else ⟨Mode.opened c, p.here + c.utf8Size, [],
        p.tokens ++ [⟨kind, String.singleton c, p.here, p.here + c.utf8Size⟩]⟩

def run (p : Progress) (cs : List Char) : Progress := cs.foldl step p

end Progress

def progress (text : String) : Progress := Progress.start.run text.toList

end Scanner

/-! ## Tokens from any place on -/

namespace Scanner

def tokensFrom (pos : Nat) (inArgument : Bool) (cs : List Char) : List Token :=
  (Scanner.mk cs cs pos 0 inArgument).tokens

variable {pos : Nat} {inArgument : Bool} {cs : List Char} {c : Char} {kind : Token.Kind}

theorem munchFrom_tokensFrom (pos : Nat) (inArgument : Bool) (cs : List Char) :
    MunchFrom pos inArgument cs (tokensFrom pos inArgument cs) :=
  (Scanner.mk cs cs pos 0 inArgument).munchFrom_iff_tokens.mpr rfl

theorem eq_tokensFrom {ts : List Token} (h : MunchFrom pos inArgument cs ts) :
    ts = tokensFrom pos inArgument cs :=
  (Scanner.mk cs cs pos 0 inArgument).munchFrom_iff_tokens.mp h

@[simp] theorem tokensFrom_nil : tokensFrom pos inArgument [] = [] :=
  munchFrom_nil.mp (munchFrom_tokensFrom _ _ _)

theorem tokensFrom_skip (hc : kindOf? c = none) :
    tokensFrom pos false (c :: cs) = tokensFrom (pos + c.utf8Size) false cs :=
  eq_tokensFrom ((munchFrom_skip hc).mp (munchFrom_tokensFrom _ _ _))

theorem tokensFrom_take (hc : kindOf? c = some kind) :
    tokensFrom pos false (c :: cs) =
      ⟨kind, String.ofList (c :: cs.takeWhile (runsOn c)), pos,
        pos + byteLength (c :: cs.takeWhile (runsOn c))⟩ ::
      tokensFrom (pos + byteLength (c :: cs.takeWhile (runsOn c))) (kind = .argStart)
        (cs.dropWhile (runsOn c)) := by
  obtain ⟨us, hts, hus⟩ := (munchFrom_take hc).mp (munchFrom_tokensFrom pos false (c :: cs))
  rw [hts, eq_tokensFrom hus]

theorem tokensFrom_single (hc : kindOf? c = some kind) (hn : isNumeral c = false) (hb : c ≠ '\\') :
    tokensFrom pos false (c :: cs) =
      ⟨kind, String.singleton c, pos, pos + c.utf8Size⟩ ::
      tokensFrom (pos + c.utf8Size) (kind = .argStart) cs := by
  have hstop : ∀ d ∈ cs.head?, ¬ runsOn c d := by
    intro d _
    simp [Token.runsOn_eq_false hn hb]
  rw [tokensFrom_take hc, takeWhile_of_stop hstop, dropWhile_of_stop hstop,
    ← String.singleton_eq_ofList]
  rfl

theorem tokensFrom_close (hcs : ∀ d ∈ cs.head?, d = '\x7d') :
    tokensFrom pos true cs = tokensFrom pos false cs :=
  eq_tokensFrom ((munchFrom_close hcs).mp (munchFrom_tokensFrom _ _ _))

theorem tokensFrom_arg (hraw : cs.takeWhile (· ≠ '\x7d') ≠ []) :
    tokensFrom pos true cs =
      ⟨.arg, String.ofList (cs.takeWhile (· ≠ '\x7d')), pos,
        pos + byteLength (cs.takeWhile (· ≠ '\x7d'))⟩ ::
      tokensFrom (pos + byteLength (cs.takeWhile (· ≠ '\x7d'))) false
        (cs.dropWhile (· ≠ '\x7d')) := by
  obtain ⟨us, hts, hus⟩ := (munchFrom_arg hraw).mp (munchFrom_tokensFrom pos true cs)
  rw [hts, eq_tokensFrom hus]

theorem tokensFrom_argument :
    tokensFrom pos true cs =
      (Progress.mk .argument pos (cs.takeWhile (· ≠ '\x7d')) []).tokens ++
        tokensFrom (pos + byteLength (cs.takeWhile (· ≠ '\x7d'))) false
          (cs.dropWhile (· ≠ '\x7d')) := by
  by_cases hraw : cs.takeWhile (· ≠ '\x7d') = []
  · have hdrop : cs.dropWhile (· ≠ '\x7d') = cs :=
      List.dropWhile_eq_self_iff.mpr (List.takeWhile_eq_nil_iff.mp hraw)
    have hend : ∀ d ∈ cs.head?, d = '\x7d' := fun d hd => by
      rw [← hdrop] at hd
      simpa using not_of_mem_head?_dropWhile hd
    rw [tokensFrom_close hend, hraw, hdrop]
    rfl
  · rw [tokensFrom_arg hraw, Progress.tokens, Progress.pending, if_neg hraw]
    rfl

namespace Progress

@[simp] theorem extend_nil (p : Progress) : p.extend [] = p := by
  rw [extend, List.append_nil]

theorem extend_extend (p : Progress) (cs ds : List Char) :
    (p.extend cs).extend ds = p.extend (cs ++ ds) := by
  simp only [extend, List.append_assoc]

theorem opened_run (hk : kindOf? c = some kind) (ho : isNumeral c ∨ c = '\\') :
    (Mode.opened c).kind? = some kind ∧ (Mode.opened c).goesOn = runsOn c ∧ kind ≠ .argStart := by
  rcases ho with hn | rfl
  · have hnumber : kind = .number := by simpa [kindOf?, hn] using hk.symm
    refine ⟨by simp [Mode.opened, hn, Mode.kind?, hnumber], ?_, by simp [hnumber]⟩
    funext d
    rw [Token.runsOn_of_isNumeral hn, Mode.opened, if_pos hn]
    rfl
  · have hcommand : kind = .command := by simpa [kindOf?, isNumeral] using hk.symm
    rw [hcommand]
    exact ⟨by decide, rfl, by decide⟩

theorem takeWhile_outside (cs : List Char) : cs.takeWhile Mode.outside.goesOn = [] :=
  takeWhile_of_stop fun _ _ => Bool.false_ne_true

theorem dropWhile_outside (cs : List Char) : cs.dropWhile Mode.outside.goesOn = cs :=
  dropWhile_of_stop fun _ _ => Bool.false_ne_true

theorem tokens_outside (pos : Nat) (ts : List Token) :
    (Progress.mk .outside pos [] ts).tokens = ts := by
  simp [tokens, pending]

theorem tokens_step (p : Progress) (hc : p.mode.goesOn c = false) :
    ((p.step c).extend (cs.takeWhile (p.step c).mode.goesOn)).tokens ++
        tokensFrom ((p.step c).extend (cs.takeWhile (p.step c).mode.goesOn)).here false
          (cs.dropWhile (p.step c).mode.goesOn) =
      p.tokens ++ tokensFrom p.here false (c :: cs) := by
  cases hk : kindOf? c with
  | none =>
    have hstep : p.step c = ⟨.outside, p.here + c.utf8Size, [], p.tokens⟩ := by
      simp [step, hc, hk]
    rw [hstep, takeWhile_outside, dropWhile_outside, extend_nil, tokens_outside, tokensFrom_skip hk]
    rfl
  | some kind =>
    by_cases hopen : isNumeral c ∨ c = '\\'
    · have hstep : p.step c = ⟨Mode.opened c, p.here, [c], p.tokens⟩ := by
        simp [step, hc, hk, hopen]
      obtain ⟨hkind, hgoes, hne⟩ := opened_run hk hopen
      rw [hstep, hgoes, tokensFrom_take hk, decide_eq_false hne]
      simp [tokens, pending, extend, here, hkind]
    · obtain ⟨hn, hb⟩ := not_or.mp hopen
      rw [Bool.not_eq_true] at hn
      have hstep : p.step c = ⟨Mode.opened c, p.here + c.utf8Size, [],
          p.tokens ++ [⟨kind, String.singleton c, p.here, p.here + c.utf8Size⟩]⟩ := by
        simp [step, hc, hk, hopen]
      rw [tokensFrom_single hk hn hb, hstep]
      -- Of the single characters only an opening brace leaves something open.
      by_cases hbrace : c = '\x7b'
      · subst hbrace
        have hkind : kind = .argStart := by simpa [kindOf?, isNumeral] using hk.symm
        have hmode : Mode.opened '\x7b' = .argument := by decide
        have hgoes : Mode.argument.goesOn = (· ≠ '\x7d') := rfl
        rw [hmode, hgoes, decide_eq_true hkind, tokensFrom_argument]
        simp [tokens, pending, extend, here]
      · have hmode : Mode.opened c = .outside := by simp [Mode.opened, hn, hb, hbrace]
        have hne : kind ≠ .argStart := fun he => hbrace (Token.eq_of_kindOf?_argStart (he ▸ hk))
        rw [hmode, takeWhile_outside, dropWhile_outside, extend_nil, tokens_outside,
          decide_eq_false hne, List.append_assoc]
        rfl

theorem tokens_run (p : Progress) (cs : List Char) :
    (p.run cs).tokens = (p.extend (cs.takeWhile p.mode.goesOn)).tokens ++
      tokensFrom (p.extend (cs.takeWhile p.mode.goesOn)).here false
        (cs.dropWhile p.mode.goesOn) := by
  induction cs generalizing p with
  | nil => simp [run]
  | cons c cs ih =>
    have hrun : (p.run (c :: cs)).tokens = ((p.step c).run cs).tokens := rfl
    rw [hrun, ih]
    cases hc : p.mode.goesOn c with
    | false =>
      rw [List.takeWhile_cons_of_neg (by simp [hc]), List.dropWhile_cons_of_neg (by simp [hc]),
        extend_nil, tokens_step p hc]
    | true =>
      have hstep : p.step c = p.extend [c] := if_pos hc
      rw [List.takeWhile_cons_of_pos hc, List.dropWhile_cons_of_pos hc, hstep, extend_extend]
      rfl

/-! ## Invariants of reading on -/

structure Sound (p : Progress) : Prop where
  outside : p.mode = .outside → p.text = []
  number : p.mode = .number → p.text ≠ []

theorem here_step (p : Progress) (c : Char) : (p.step c).here = p.here + c.utf8Size := by
  unfold step
  split
  · simp [here, extend, byteLength_append, byteLength, Nat.add_assoc]
  · split
    · rfl
    · split <;> simp [here, byteLength]

theorem here_run (p : Progress) (cs : List Char) : (p.run cs).here = p.here + byteLength cs := by
  induction cs generalizing p with
  | nil => rfl
  | cons c cs ih =>
    have hrun : (p.run (c :: cs)).here = ((p.step c).run cs).here := rfl
    rw [hrun, ih, here_step, byteLength, Nat.add_assoc]

theorem sound_step (p : Progress) (c : Char) : (p.step c).Sound := by
  unfold step
  split
  · next hc =>
    refine ⟨fun ho => ?_, fun _ => by simp [extend]⟩
    rw [show p.mode = .outside from ho] at hc
    cases hc
  · split
    · exact ⟨fun _ => rfl, nofun⟩
    · split
      · next hopen =>
        refine ⟨fun ho => ?_, fun _ => by simp⟩
        rcases hopen with hn | rfl
        · simp [Mode.opened, hn] at ho
        · cases ho
      · next hopen =>
        refine ⟨fun _ => rfl, fun ho => ?_⟩
        simp only [Mode.opened] at ho
        split_ifs at ho
        simp_all

theorem Sound.run {p : Progress} (h : p.Sound) (cs : List Char) : (p.run cs).Sound := by
  induction cs generalizing p with
  | nil => exact h
  | cons c cs ih => exact ih (p.sound_step c)

/-! ## Shifted texts -/

def shift (k : Nat) (p : Progress) : Progress :=
  ⟨p.mode, k + p.mark, p.text, p.done.map (Token.shift k)⟩

theorem here_shift (k : Nat) (p : Progress) : (p.shift k).here = k + p.here :=
  Nat.add_assoc k p.mark (byteLength p.text)

theorem tokens_shift (k : Nat) (p : Progress) :
    (p.shift k).tokens = p.tokens.map (Token.shift k) := by
  have hpending : (p.shift k).pending = p.pending.map (Token.shift k) := by
    unfold pending
    rw [here_shift]
    by_cases ht : p.text = []
    · simp [shift, ht]
    · simp [shift, ht, Token.shift]
  rw [tokens, tokens, hpending, List.map_append]
  rfl

theorem step_shift (k : Nat) (p : Progress) (c : Char) :
    (p.shift k).step c = (p.step c).shift k := by
  have hmode : (p.shift k).mode = p.mode := rfl
  unfold step
  rw [hmode, here_shift, tokens_shift]
  split
  · rfl
  · split
    · simp only [shift, Nat.add_assoc]
    · split
      · rfl
      · simp [shift, Token.shift, Nat.add_assoc]

theorem run_shift (k : Nat) (p : Progress) (cs : List Char) :
    (p.shift k).run cs = (p.run cs).shift k := by
  induction cs generalizing p with
  | nil => rfl
  | cons c cs ih =>
    have hrun : (p.shift k).run (c :: cs) = ((p.shift k).step c).run cs := rfl
    rw [hrun, step_shift, ih]
    rfl

end Progress

theorem tokens_run_outside (pos : Nat) (cs : List Char) :
    ((Progress.mk .outside pos [] []).run cs).tokens = tokensFrom pos false cs := by
  rw [Progress.tokens_run, Progress.takeWhile_outside, Progress.dropWhile_outside,
    Progress.extend_nil, Progress.tokens_outside]
  rfl

theorem tokensFrom_shift (k : Nat) (cs : List Char) :
    tokensFrom k false cs = (tokensFrom 0 false cs).map (Token.shift k) := by
  rw [← tokens_run_outside, ← tokens_run_outside, ← Progress.tokens_shift, ← Progress.run_shift]
  rfl

theorem lex_eq_tokens (text : String) : lex text = (progress text).tokens :=
  (tokens_run_outside 0 text.toList).symm

/-! ## What a longer text does to the tokens -/

variable {s t : String}

theorem sound_progress (s : String) : (progress s).Sound :=
  Progress.Sound.run ⟨fun _ => rfl, fun h => by cases h⟩ _

theorem here_progress (s : String) : (progress s).here = byteLength s.toList := by
  rw [progress, Progress.here_run]
  exact Nat.zero_add _

/-- What is open takes in as much of the next text as it can, and the rest is read as if it stood
alone. -/
theorem lex_append (s t : String) :
    lex (s ++ t) =
      ((progress s).extend (t.toList.takeWhile (progress s).mode.goesOn)).tokens ++
        tokensFrom ((progress s).extend (t.toList.takeWhile (progress s).mode.goesOn)).here false
          (t.toList.dropWhile (progress s).mode.goesOn) := by
  have hrun : progress (s ++ t) = (progress s).run t.toList := by
    simp [progress, Progress.run]
  rw [lex_eq_tokens, hrun, Progress.tokens_run]

theorem lex_append_of_outside (h : (progress s).mode = .outside) (t : String) :
    lex (s ++ t) = lex s ++ (lex t).map (Token.shift (byteLength s.toList)) := by
  rw [lex_append, h, Progress.takeWhile_outside, Progress.dropWhile_outside, Progress.extend_nil,
    ← lex_eq_tokens, here_progress, tokensFrom_shift]
  rfl

theorem lex_append_of_goesOn {c : Char} (h : (progress s).mode.goesOn c) :
    lex (s ++ String.singleton c) = ((progress s).extend [c]).tokens := by
  rw [lex_append]
  simp [h]

theorem mode_eq_outside
    (h : ∀ t, lex (s ++ t) = lex s ++ (lex t).map (Token.shift (byteLength s.toList))) :
    (progress s).mode = .outside := by
  have hpending : ∀ c, (progress s).mode.goesOn c → ((progress s).extend [c]).pending =
      (progress s).pending ++
        (lex (String.singleton c)).map (Token.shift (byteLength s.toList)) := by
    intro c hc
    have heq := h (String.singleton c)
    rw [lex_append_of_goesOn hc, lex_eq_tokens s, Progress.tokens, Progress.tokens,
      List.append_assoc] at heq
    exact List.append_cancel_left heq
  have hletter : lex "x" = [⟨.var, "x", 0, 1⟩] := by
    rw [lex_eq_tokens]
    decide
  have hdigit : lex "1" = [⟨.number, "1", 0, 1⟩] := by
    rw [lex_eq_tokens]
    decide
  -- A letter goes on with a command or an argument, and a digit with a number.
  cases hm : (progress s).mode with
  | outside => rfl
  | command =>
    have hx := congrArg List.getLast? (hpending 'x' (by rw [hm]; decide))
    simp [hletter, Progress.pending, Progress.extend, hm, Mode.kind?, Token.shift] at hx
  | number =>
    have hx := congrArg List.length (hpending '1' (by rw [hm]; decide))
    have ht := (sound_progress s).number hm
    simp [hdigit, Progress.pending, Progress.extend, hm, Mode.kind?, ht] at hx
  | argument =>
    have hx := congrArg List.getLast? (hpending 'x' (by rw [hm]; decide))
    simp [hletter, Progress.pending, Progress.extend, hm, Mode.kind?, Token.shift] at hx

end Scanner

structure Token.GrowsTo (t u : Token) : Prop where
  kind : u.kind = t.kind
  start : u.start = t.start
  text : t.text.toList <+: u.text.toList
  stop : t.stop ≤ u.stop

namespace Scanner

variable {token : Token}

theorem Progress.pending_cases (p : Progress) : p.pending = [] ∨
    ∃ kind, p.mode.kind? = some kind ∧ p.text ≠ [] ∧
      p.pending = [⟨kind, String.ofList p.text, p.mark, p.here⟩] := by
  by_cases ht : p.text = []
  · exact .inl (if_pos ht)
  · cases hk : p.mode.kind? with
    | none => exact .inl (by simp [pending, hk])
    | some kind => exact .inr ⟨kind, rfl, ht, by simp [pending, hk, ht]⟩

theorem Progress.tokens_extend {p : Progress} {i : Nat} (h : p.tokens[i]? = some token)
    (cs : List Char) : ∃ token', (p.extend cs).tokens[i]? = some token' ∧ token.GrowsTo token' ∧
      (i + 1 < p.tokens.length → token' = token) := by
  have hdone : (p.extend cs).done = p.done := rfl
  unfold tokens at h ⊢
  rw [hdone]
  by_cases hi : i < p.done.length
  · rw [List.getElem?_append_left hi] at h
    refine ⟨token, ?_, ⟨rfl, rfl, List.prefix_refl _, Nat.le_refl _⟩, fun _ => rfl⟩
    rwa [List.getElem?_append_left hi]
  · rw [Nat.not_lt] at hi
    rw [List.getElem?_append_right hi] at h
    rcases p.pending_cases with hnone | ⟨kind, hkind, ht, hone⟩
    · simp [hnone] at h
    · rw [hone, List.getElem?_singleton] at h
      split_ifs at h with hlast
      obtain rfl := Option.some.inj h
      have hgrown : (p.extend cs).pending =
          [⟨kind, String.ofList (p.text ++ cs), p.mark, (p.extend cs).here⟩] := by
        simp [pending, extend, hkind, ht]
      refine ⟨⟨kind, String.ofList (p.text ++ cs), p.mark, (p.extend cs).here⟩, ?_, ?_, ?_⟩
      · rw [List.getElem?_append_right hi, hgrown, hlast]
        rfl
      · refine ⟨rfl, rfl, by simp, ?_⟩
        simp only [here, extend, byteLength_append]
        omega
      · intro hlt
        simp only [hone, List.length_append, List.length_singleton] at hlt
        omega

end Scanner

open Scanner

theorem kindOf?_of_isBlank {c : Char} (h : Text.isBlank c) : kindOf? c = none := by
  cases hk : kindOf? c with
  | none => rfl
  | some kind =>
    have hn : c.toNat ≠ 46 ∧ (c.toNat < 48 ∨ 57 < c.toNat) ∧ (c.toNat < 97 ∨ 122 < c.toNat) := by
      simp only [Text.isBlank, Bool.or_eq_true, Bool.and_eq_true, decide_eq_true_eq] at h
      omega
    rcases Token.kindOf?_cases hk with ⟨hnumeral, _⟩ | ⟨hlower, _⟩ | hsymbol
    · simp only [isNumeral, Bool.or_eq_true, decide_eq_true_eq, Char.isDigit_iff_toNat] at hnumeral
      rcases hnumeral with hdigit | rfl
      · have : 48 ≤ c.toNat ∧ c.toNat ≤ 57 := hdigit
        omega
      · cases h
    · obtain ⟨hlow, hhigh⟩ := Bool.and_eq_true_iff.mp hlower
      have : 97 ≤ c.toNat := UInt32.le_iff_toNat_le.mp (of_decide_eq_true hlow)
      have : c.toNat ≤ 122 := UInt32.le_iff_toNat_le.mp (of_decide_eq_true hhigh)
      omega
    · simp only [List.mem_cons, Prod.mk.injEq, List.not_mem_nil, or_false] at hsymbol
      rcases hsymbol with ⟨rfl, _⟩ | ⟨rfl, _⟩ | ⟨rfl, _⟩ | ⟨rfl, _⟩ | ⟨rfl, _⟩ | ⟨rfl, _⟩ |
        ⟨rfl, _⟩ | ⟨rfl, _⟩ | ⟨rfl, _⟩ <;> cases h

theorem tokensFrom_of_none {pos : Nat} {cs : List Char} (h : ∀ c ∈ cs, kindOf? c = none) :
    tokensFrom pos false cs = [] := by
  induction cs generalizing pos with
  | nil => exact tokensFrom_nil
  | cons c cs ih =>
    rw [tokensFrom_skip (h c List.mem_cons_self)]
    exact ih fun d hd => h d (List.mem_cons_of_mem c hd)

theorem lex_append_of_blank {s t : String} (ht : ∀ c ∈ t.toList, Text.isBlank c)
    (hcommand : (progress s).mode ≠ .command) (hargument : (progress s).mode ≠ .argument) :
    lex (s ++ t) = lex s := by
  have hnone : ∀ c ∈ t.toList, kindOf? c = none := fun c hc => kindOf?_of_isBlank (ht c hc)
  have hstop : ∀ c ∈ t.toList.head?, ¬ (progress s).mode.goesOn c := by
    intro c hc
    have hk := hnone c (List.mem_of_mem_head? hc)
    cases hm : (progress s).mode with
    | outside => exact Bool.false_ne_true
    | command => exact absurd hm hcommand
    | number =>
      intro hn
      have hnumber : kindOf? c = some .number := if_pos hn
      rw [hk] at hnumber
      cases hnumber
    | argument => exact absurd hm hargument
  rw [lex_append, takeWhile_of_stop hstop, dropWhile_of_stop hstop, Progress.extend_nil,
    ← lex_eq_tokens, tokensFrom_of_none hnone, List.append_nil]

theorem eq_trimEnd_append (s : String) : ∃ t : String, s = Text.trimEnd s ++ t ∧
    ∀ c ∈ t.toList, Text.isBlank c := by
  refine ⟨String.ofList (s.toList.reverse.takeWhile Text.isBlank).reverse, ?_, ?_⟩
  · rw [Text.trimEnd, Text.dropBlankEnd, ← String.ofList_append, ← List.reverse_append,
      List.takeWhile_append_dropWhile, List.reverse_reverse, String.ofList_toList]
  · intro c hc
    rw [String.toList_ofList, List.mem_reverse] at hc
    exact of_mem_takeWhile hc

/-- What more text does to the tokens of a text that was read to its end. With nothing open they
stand apart from those of the text behind it; in any case they are found again, and only the last may
have become longer; and blanks at the end count only where a command or an argument is open. -/
theorem lex_stable (s : String) :
    lex s = (progress s).tokens ∧
    ((progress s).mode = .outside ↔
      ∀ t, lex (s ++ t) = lex s ++ (lex t).map (Token.shift (byteLength s.toList))) ∧
    (∀ t i token, (lex s)[i]? = some token → ∃ token', (lex (s ++ t))[i]? = some token' ∧
      token.GrowsTo token' ∧ (i + 1 < (lex s).length → token' = token)) ∧
    ((progress (Text.trimEnd s)).mode ≠ .command → (progress (Text.trimEnd s)).mode ≠ .argument →
      lex (Text.trimEnd s) = lex s) := by
  refine ⟨lex_eq_tokens s, ⟨lex_append_of_outside, mode_eq_outside⟩, ?_, ?_⟩
  · intro t i token h
    rw [lex_eq_tokens] at h
    obtain ⟨token', hi, hgrows, hlast⟩ :=
      Progress.tokens_extend h (t.toList.takeWhile (progress s).mode.goesOn)
    refine ⟨token', ?_, hgrows, ?_⟩
    · obtain ⟨hlt, _⟩ := List.getElem?_eq_some_iff.mp hi
      rw [lex_append, List.getElem?_append_left hlt, hi]
    · rwa [lex_eq_tokens]
  · intro hcommand hargument
    obtain ⟨t, hs, ht⟩ := eq_trimEnd_append s
    conv_rhs => rw [hs]
    exact (lex_append_of_blank ht hcommand hargument).symm

theorem lex_stable_power :
    ((progress "2^x ").mode = .outside ∧
      lex ("2^x " ++ "1") = lex "2^x " ++ (lex "1").map (Token.shift 4)) ∧
    ((lex "2^\\si")[2]? = some ⟨.command, "\\si", 2, 5⟩ ∧
      ∃ token, (lex ("2^\\si" ++ "n x"))[2]? = some token ∧ token.start = 2 ∧ 5 ≤ token.stop) ∧
    (progress (Text.trimEnd "2^x ")).mode = .outside ∧
      lex (Text.trimEnd "2^x ") = lex "2^x " := by
  have hmode : (progress "2^x ").mode = .outside := by decide
  have htrim : (progress (Text.trimEnd "2^x ")).mode = .outside := by decide
  have hlast : (lex "2^\\si")[2]? = some ⟨.command, "\\si", 2, 5⟩ := by
    rw [lex_eq_tokens]
    decide
  obtain ⟨token, hi, hgrows, _⟩ := (lex_stable "2^\\si").2.2.1 "n x" 2 _ hlast
  refine ⟨⟨hmode, (lex_stable "2^x ").2.1.mp hmode "1"⟩,
    ⟨hlast, token, hi, hgrows.start, hgrows.stop⟩, htrim, ?_⟩
  exact (lex_stable "2^x ").2.2.2 (by rw [htrim]; decide) (by rw [htrim]; decide)

end MathMarkup
