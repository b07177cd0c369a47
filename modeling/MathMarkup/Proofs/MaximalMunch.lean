import Mathlib.Data.List.Chain
import Mathlib.Tactic.Common
import MathMarkup.Scanner
import MathMarkup.Proofs.Run

/-!
# Maximal munch

A token list is a longest-match reading of a text if its tokens lie in the text one behind the other,
leave out no character that opens a token, have the shapes of their kinds, and stop only where their
kinds have to. Every text has exactly one such reading, and the scanner yields it. The proof follows
the text from the left: each step of the scanner takes off the one token, or the one character, with
which every such reading of the rest has to begin.
-/

namespace MathMarkup

namespace Token

def isMarkup (c : Char) : Bool :=
  c.isDigit || c.isLower || c ∈ ['\\', '.', '\x7b', '\x7d', '+', '-', '_', '^', '(', ')']

def HasShape : Kind → List Char → Prop
  | .command, cs => cs = ['+'] ∨ cs = ['-'] ∨
      ∃ name, cs = '\\' :: name ∧ ∀ c ∈ name, c ≠ '\\' ∧ c ≠ ' ' ∧ c ≠ '\x7b'
  | .number, cs => cs ≠ [] ∧ ∀ c ∈ cs, c.isDigit ∨ c = '.'
  | .var, cs => ∃ c, cs = [c] ∧ c.isLower
  | .arg, cs => cs ≠ [] ∧ '\x7d' ∉ cs
  | .argStart, cs => cs = ['\x7b']
  | .argEnd, cs => cs = ['\x7d']
  | .subscript, cs => cs = ['_']
  | .superscript, cs => cs = ['^']
  | .parenLeft, cs => cs = ['(']
  | .parenRight, cs => cs = [')']

/-- What has to follow a token of a list, if anything does. -/
def StopsBefore (ts : List Token) (t : Token) (after : List Char) : Prop :=
  match t.kind with
  | .command => t.text.toList.head? = some '\\' →
      ∀ c ∈ after.head?, c = '\\' ∨ c = ' ' ∨ c = '\x7b'
  | .number => ∀ c ∈ after.head?, ¬(c.isDigit ∨ c = '.')
  | .arg => ∀ c ∈ after.head?, c = '\x7d'
  | .argStart => (∃ u ∈ ts, u.kind = .arg ∧ u.start = t.stop) ∨ ∀ c ∈ after.head?, c = '\x7d'
  | _ => True

structure Stands (pos : Nat) (cs : List Char) (t : Token) (before after : List Char) : Prop where
  text : cs = before ++ t.text.toList ++ after
  start : t.start = pos + byteLength before
  stop : t.stop = t.start + byteLength t.text.toList

end Token

open Token

/-- The longest-match readings of a text. -/
structure MaximalMunch (input : List Char) (ts : List Token) : Prop where
  stands : ∀ t ∈ ts, t.text ≠ "" ∧ HasShape t.kind t.text.toList ∧
    ∃ before after, Stands 0 input t before after ∧ StopsBefore ts t after
  ordered : ts.IsChain fun t u => t.stop ≤ u.start
  covered : ∀ before c after, input = before ++ c :: after → isMarkup c →
    ∃ t ∈ ts, t.start ≤ byteLength before ∧ byteLength before < t.stop
  opened : ∀ t ∈ ts, t.kind = .arg → ∃ u ∈ ts, u.kind = .argStart ∧ u.stop = t.start

/-- The longest-match readings of a text that begins at offset `pos`, in front of which an opening
brace stands if `inArgument` holds. -/
structure MunchFrom (pos : Nat) (inArgument : Bool) (cs : List Char) (ts : List Token) : Prop where
  stands : ∀ t ∈ ts, HasShape t.kind t.text.toList ∧
    ∃ before after, Stands pos cs t before after ∧ StopsBefore ts t after
  ordered : ts.IsChain fun t u => t.stop ≤ u.start
  covered : ∀ before c after, cs = before ++ c :: after → isMarkup c →
    ∃ t ∈ ts, t.start ≤ pos + byteLength before ∧ pos + byteLength before < t.stop
  opened : ∀ t ∈ ts, t.kind = .arg → (∃ u ∈ ts, u.kind = .argStart ∧ u.stop = t.start) ∨
    inArgument = true ∧ t.start = pos
  argument : inArgument = true → (∃ t ∈ ts, t.kind = .arg ∧ t.start = pos) ∨
    ∀ c ∈ cs.head?, c = '\x7d'

namespace Token

theorem HasShape.ne_nil {kind : Kind} {cs : List Char} (h : HasShape kind cs) : cs ≠ [] := by
  cases kind with
  | command =>
    rcases h with rfl | rfl | ⟨name, rfl, _⟩
    · simp
    · simp
    · simp
  | number => exact h.1
  | var =>
    obtain ⟨c, rfl, _⟩ := h
    simp
  | arg => exact h.1
  | argStart | argEnd | subscript | superscript | parenLeft | parenRight =>
    rw [h]
    simp

end Token

theorem maximalMunch_iff {input : List Char} {ts : List Token} :
    MaximalMunch input ts ↔ MunchFrom 0 false input ts := by
  constructor
  · intro h
    refine ⟨fun t ht => (h.stands t ht).2, h.ordered, ?_, fun t ht hk => .inl (h.opened t ht hk), ?_⟩
    · simpa only [Nat.zero_add] using h.covered
    · intro hf
      cases hf
  · intro h
    refine ⟨fun t ht => ⟨?_, h.stands t ht⟩, h.ordered, ?_, ?_⟩
    · intro he
      exact (h.stands t ht).1.ne_nil (by simp [he])
    · simpa only [Nat.zero_add] using h.covered
    · intro t ht hk
      rcases h.opened t ht hk with ho | ⟨hf, _⟩
      · exact ho
      · cases hf

/-! ## The first token -/

variable {pos : Nat} {inArgument : Bool} {cs after : List Char} {ts : List Token} {t u : Token}

theorem MunchFrom.start_le (h : MunchFrom pos inArgument cs ts) (ht : t ∈ ts) : pos ≤ t.start := by
  obtain ⟨_, before, after, hs, _⟩ := h.stands t ht
  rw [hs.start]
  omega

theorem MunchFrom.start_lt_stop (h : MunchFrom pos inArgument cs ts) (ht : t ∈ ts) :
    t.start < t.stop := by
  obtain ⟨hshape, before, after, hs, _⟩ := h.stands t ht
  rw [hs.stop]
  have := byteLength_pos hshape.ne_nil
  omega

theorem MunchFrom.pairwise (h : MunchFrom pos inArgument cs ts) :
    ts.Pairwise fun t u => t.stop ≤ u.start := by
  have hle : ∀ (us : List Token), (∀ u ∈ us, u ∈ ts) → us.IsChain (fun t u => t.stop ≤ u.start) →
      us.Pairwise fun t u => t.stop ≤ u.start := by
    intro us hus hc
    induction us with
    | nil => exact .nil
    | cons t us ih =>
      have hp := ih (fun u hu => hus u (List.mem_cons_of_mem t hu)) hc.tail
      refine List.pairwise_cons.mpr ⟨fun u hu => ?_, hp⟩
      cases us with
      | nil => cases hu
      | cons v us =>
        have hv : t.stop ≤ v.start := (List.isChain_cons_cons.mp hc).1
        rcases List.mem_cons.mp hu with rfl | hu
        · exact hv
        · have hlt := h.start_lt_stop (hus v (by simp))
          have hvu := (List.pairwise_cons.mp hp).1 u hu
          omega
  exact hle ts (fun _ hu => hu) h.ordered

theorem MunchFrom.eq_cons (h : MunchFrom pos inArgument cs ts) (ht : t ∈ ts) (hs : t.start = pos) :
    ∃ us, ts = t :: us := by
  obtain ⟨us, vs, rfl⟩ := List.append_of_mem ht
  cases us with
  | nil => exact ⟨vs, rfl⟩
  | cons u us =>
    have hu : u ∈ u :: us ++ t :: vs := List.mem_cons_self
    have hut : u.stop ≤ t.start :=
      (List.pairwise_cons.mp h.pairwise).1 t (by simp)
    have := h.start_le hu
    have := h.start_lt_stop hu
    omega

theorem Token.Stands.of_start {before after : List Char} (h : Stands pos cs t before after)
    (hs : t.start = pos) : cs = t.text.toList ++ after := by
  have hb : before = [] := by
    apply eq_nil_of_byteLength
    have := h.start
    omega
  rw [h.text, hb]
  rfl

theorem Token.stopsBefore_argStart (hk : t.kind = .argStart) :
    StopsBefore ts t after ↔
      (∃ u ∈ ts, u.kind = .arg ∧ u.start = t.stop) ∨ ∀ c ∈ after.head?, c = '\x7d' := by
  simp only [StopsBefore, hk]

theorem Token.StopsBefore.of_ne {us : List Token} (hk : t.kind ≠ .argStart)
    (h : StopsBefore us t after) : StopsBefore ts t after := by
  unfold StopsBefore at h ⊢
  split at h <;> simp_all

theorem Token.stopsBefore_cons (hs : t.start ≠ u.stop) :
    StopsBefore (t :: ts) u after ↔ StopsBefore ts u after := by
  by_cases hk : u.kind = .argStart
  · rw [stopsBefore_argStart hk, stopsBefore_argStart hk]
    simp [hs]
  · exact ⟨.of_ne hk, .of_ne hk⟩

structure Token.Leads (pos : Nat) (inArgument : Bool) (t : Token) (after : List Char) : Prop where
  kind : t.kind = .arg ↔ inArgument = true
  shape : HasShape t.kind t.text.toList
  start : t.start = pos
  stop : t.stop = pos + byteLength t.text.toList
  ends : t.kind ≠ .argStart → StopsBefore [] t after

theorem Token.Leads.start_lt_stop (h : Leads pos inArgument t after) : t.start < t.stop := by
  rw [h.start, h.stop]
  exact Nat.lt_add_of_pos_right (byteLength_pos h.shape.ne_nil)

theorem Token.stands_append {body before behind : List Char} :
    Stands pos (body ++ after) t (body ++ before) behind ↔
      Stands (pos + byteLength body) after t before behind := by
  constructor
  · intro h
    refine ⟨?_, ?_, h.stop⟩
    · simpa only [List.append_assoc, List.append_cancel_left_eq] using h.text
    · rw [h.start, byteLength_append, Nat.add_assoc]
  · intro h
    refine ⟨?_, ?_, h.stop⟩
    · rw [h.text, List.append_assoc, List.append_assoc, List.append_assoc]
    · rw [h.start, byteLength_append, Nat.add_assoc]

theorem Token.Stands.of_le {body before behind : List Char}
    (h : Stands pos (body ++ after) t before behind) (hle : pos + byteLength body ≤ t.start) :
    ∃ before', Stands (pos + byteLength body) after t before' behind := by
  have hcut := h.text
  rw [List.append_assoc] at hcut
  have hbytes : byteLength body ≤ byteLength before := by
    have := h.start
    omega
  obtain ⟨before', rfl, _⟩ := append_eq_append_of_le hcut hbytes
  exact ⟨before', stands_append.mp h⟩

theorem MunchFrom.covered_behind {body : List Char} (h : MunchFrom pos inArgument (body ++ after) ts)
    (before : List Char) (c : Char) (behind : List Char) (ha : after = before ++ c :: behind)
    (hc : isMarkup c) : ∃ u ∈ ts, u.start ≤ pos + byteLength body + byteLength before ∧
      pos + byteLength body + byteLength before < u.stop := by
  have hu := h.covered (body ++ before) c behind (by rw [ha, List.append_assoc]) hc
  rwa [byteLength_append, ← Nat.add_assoc] at hu

theorem MunchFrom.tail (h : MunchFrom pos inArgument (t.text.toList ++ after) (t :: ts))
    (ht : Leads pos inArgument t after) : MunchFrom t.stop (t.kind = .argStart) after ts := by
  have hlt := ht.start_lt_stop
  have hge : ∀ u ∈ ts, t.stop ≤ u.start := (List.pairwise_cons.mp h.pairwise).1
  rw [ht.stop] at hge ⊢
  refine ⟨?_, h.ordered.tail, ?_, ?_, ?_⟩
  · intro u hu
    obtain ⟨hshape, before, behind, hst, hb⟩ := h.stands u (List.mem_cons_of_mem t hu)
    obtain ⟨before', hst'⟩ := hst.of_le (hge u hu)
    have hapart : t.start ≠ u.stop := by
      have := hge u hu
      have := h.start_lt_stop (List.mem_cons_of_mem t hu)
      have := ht.start
      omega
    exact ⟨hshape, before', behind, hst', (stopsBefore_cons hapart).mp hb⟩
  · intro before c behind ha hc
    obtain ⟨u, hu, hl, hr⟩ := h.covered_behind before c behind ha hc
    rcases List.mem_cons.mp hu with rfl | hu
    · rw [ht.stop] at hr
      omega
    · exact ⟨u, hu, hl, hr⟩
  · intro u hu hk
    rcases h.opened u (List.mem_cons_of_mem t hu) hk with ⟨v, hv, hvk, hvs⟩ | ⟨_, hp⟩
    · rcases List.mem_cons.mp hv with rfl | hv
      · exact .inr ⟨decide_eq_true hvk, hvs.symm.trans ht.stop⟩
      · exact .inl ⟨v, hv, hvk, hvs⟩
    · have := hge u hu
      have := ht.start
      have := ht.stop
      omega
  · intro hk
    have hk := of_decide_eq_true hk
    obtain ⟨_, before, behind, hst, hb⟩ := h.stands t List.mem_cons_self
    rw [List.append_cancel_left (hst.of_start ht.start)]
    rcases (stopsBefore_argStart hk).mp hb with ⟨u, hu, huk, hus⟩ | hb
    · rcases List.mem_cons.mp hu with rfl | hu
      · rw [hk] at huk
        cases huk
      · exact .inl ⟨u, hu, huk, hus.trans ht.stop⟩
    · exact .inr hb

theorem MunchFrom.cons (h : MunchFrom t.stop (t.kind = .argStart) after ts)
    (ht : Leads pos inArgument t after) :
    MunchFrom pos inArgument (t.text.toList ++ after) (t :: ts) := by
  have hlt := ht.start_lt_stop
  refine ⟨?_, ?_, ?_, ?_, fun ha => .inl ⟨t, List.mem_cons_self, ht.kind.mpr ha, ht.start⟩⟩
  · intro u hu
    rcases List.mem_cons.mp hu with rfl | hu
    · refine ⟨ht.shape, [], after, ⟨rfl, ht.start, by rw [ht.stop, ht.start]⟩, ?_⟩
      by_cases hk : u.kind = .argStart
      · rw [stopsBefore_argStart hk]
        rcases h.argument (decide_eq_true hk) with ⟨v, hv, hvk, hvs⟩ | hb
        · exact .inl ⟨v, List.mem_cons_of_mem u hv, hvk, hvs⟩
        · exact .inr hb
      · exact .of_ne hk (ht.ends hk)
    · obtain ⟨hshape, before, behind, hst, hb⟩ := h.stands u hu
      have hapart : t.start ≠ u.stop := by
        have := h.start_le hu
        have := h.start_lt_stop hu
        omega
      rw [ht.stop] at hst
      exact ⟨hshape, _, behind, stands_append.mpr hst, (stopsBefore_cons hapart).mpr hb⟩
  · exact List.isChain_cons.mpr ⟨fun u hu => h.start_le (List.mem_of_mem_head? hu), h.ordered⟩
  · intro before c behind ha hc
    by_cases hle : byteLength t.text.toList ≤ byteLength before
    · obtain ⟨before', rfl, ha'⟩ := append_eq_append_of_le ha hle
      obtain ⟨u, hu, hl, hr⟩ := h.covered before' c behind ha' hc
      rw [ht.stop, Nat.add_assoc, ← byteLength_append] at hl hr
      exact ⟨u, List.mem_cons_of_mem t hu, hl, hr⟩
    · have := ht.start
      have := ht.stop
      exact ⟨t, List.mem_cons_self, by omega, by omega⟩
  · intro u hu hk
    rcases List.mem_cons.mp hu with rfl | hu
    · exact .inr ⟨ht.kind.mp hk, ht.start⟩
    · rcases h.opened u hu hk with ⟨v, hv, hvk, hvs⟩ | ⟨hks, hp⟩
      · exact .inl ⟨v, List.mem_cons_of_mem t hv, hvk, hvs⟩
      · exact .inl ⟨t, List.mem_cons_self, of_decide_eq_true hks, hp.symm⟩

/-- Every reading begins with the token `t` if every reading has a token like it at the front. -/
theorem munchFrom_first {kind : Kind} {body : List Char} (hk : kind = .arg ↔ inArgument = true)
    (hshape : HasShape kind body)
    (hends : kind ≠ .argStart →
      StopsBefore [] ⟨kind, String.ofList body, pos, pos + byteLength body⟩ after)
    (hfirst : MunchFrom pos inArgument (body ++ after) ts →
      ∃ u ∈ ts, u.start = pos ∧ u.kind = kind ∧ u.text.toList = body) :
    MunchFrom pos inArgument (body ++ after) ts ↔
      ∃ us, ts = ⟨kind, String.ofList body, pos, pos + byteLength body⟩ :: us ∧
        MunchFrom (pos + byteLength body) (kind = .argStart) after us := by
  have htext : (String.ofList body).toList = body := String.toList_ofList
  have ht : Leads pos inArgument ⟨kind, String.ofList body, pos, pos + byteLength body⟩ after :=
    ⟨hk, by rwa [htext], rfl, by rw [htext], hends⟩
  constructor
  · intro h
    obtain ⟨u, hu, hs, hkind, hbody⟩ := hfirst h
    obtain ⟨us, rfl⟩ := h.eq_cons hu hs
    have he : u = ⟨kind, String.ofList body, pos, pos + byteLength body⟩ := by
      obtain ⟨_, before, behind, hst, _⟩ := h.stands u List.mem_cons_self
      have hstop := hst.stop
      have htoken : u.text = String.ofList body := by rw [← hbody, String.ofList_toList]
      rw [hs, hbody] at hstop
      show (⟨u.kind, u.text, u.start, u.stop⟩ : Token) = _
      rw [hkind, htoken, hs, hstop]
    refine ⟨us, congrArg (· :: us) he, MunchFrom.tail ?_ ht⟩
    rw [he] at h
    rwa [htext]
  · rintro ⟨us, rfl, h⟩
    have hcons := h.cons ht
    rwa [htext] at hcons

/-! ## Characters -/

namespace Token

variable {kind : Kind} {c : Char} {body : List Char}

theorem kindOf?_cases (h : kindOf? c = some kind) :
    (isNumeral c ∧ kind = .number) ∨ (c.isLower ∧ kind = .var) ∨
      (c, kind) ∈ [('\\', Kind.command), ('+', .command), ('-', .command), ('\x7b', .argStart),
        ('\x7d', .argEnd), ('_', .subscript), ('^', .superscript), ('(', .parenLeft),
        (')', .parenRight)] := by
  unfold kindOf? at h
  split_ifs at h with hn hl
  · cases h
    exact .inl ⟨hn, rfl⟩
  · cases h
    exact .inr (.inl ⟨hl, rfl⟩)
  · split at h <;> simp_all

theorem kindOf?_ne_arg : kindOf? c ≠ some .arg := by
  unfold kindOf?
  split_ifs
  · simp
  · simp
  · split <;> simp

theorem eq_of_kindOf?_argStart (h : kindOf? c = some .argStart) : c = '\x7b' := by
  rcases kindOf?_cases h with ⟨_, hk⟩ | ⟨_, hk⟩ | hm
  · cases hk
  · cases hk
  · simpa using hm

theorem not_numeral_of_isLower (h : c.isLower) : isNumeral c = false := by
  have hl : 'a'.val ≤ c.val := of_decide_eq_true (Bool.and_eq_true_iff.mp h).1
  have hd : c.isDigit = false := by
    refine Bool.and_eq_false_iff.mpr (.inr (decide_eq_false fun hle => ?_))
    exact absurd (UInt32.le_trans hl hle) (by decide)
  rw [isNumeral, hd, Bool.false_or]
  apply decide_eq_false
  rintro rfl
  exact absurd hl (by decide)

theorem kindOf?_of_hasShape (hk : kind ≠ .arg) (h : HasShape kind (c :: body)) :
    kindOf? c = some kind := by
  cases kind with
  | command =>
    have hc : c = '+' ∨ c = '-' ∨ c = '\\' := by
      rcases h with h | h | ⟨name, h, _⟩
      · exact .inl (List.cons.inj h).1
      · exact .inr (.inl (List.cons.inj h).1)
      · exact .inr (.inr (List.cons.inj h).1)
    rcases hc with rfl | rfl | rfl <;> decide
  | number =>
    have hc := h.2 c List.mem_cons_self
    simp [kindOf?, isNumeral, hc]
  | var =>
    obtain ⟨d, h, hl⟩ := h
    simp only [List.cons.injEq] at h
    rw [← h.1] at hl
    simp [kindOf?, not_numeral_of_isLower hl, hl]
  | arg => exact absurd rfl hk
  | argStart | argEnd | subscript | superscript | parenLeft | parenRight =>
    simp only [HasShape, List.cons.injEq] at h
    rw [h.1]
    decide

theorem isMarkup_eq (c : Char) : isMarkup c = (kindOf? c).isSome := by
  unfold isMarkup kindOf?
  split_ifs with hn hl
  · simp only [isNumeral, Bool.or_eq_true, decide_eq_true_eq] at hn
    rcases hn with hn | rfl
    · simp [hn]
    · decide
  · simp [hl]
  · split <;> simp_all [isNumeral]

theorem runsOn_of_isNumeral {d : Char} (h : isNumeral c) : runsOn c d = isNumeral d := by
  rw [runsOn, if_pos h]

theorem runsOn_eq_false {d : Char} (hn : isNumeral c = false) (hb : c ≠ '\\') :
    runsOn c d = false := by
  rw [runsOn, if_neg (by simp [hn])]
  simp [hb]

theorem forall_runsOn_iff_nil (hn : isNumeral c = false) (hb : c ≠ '\\') :
    (∀ d ∈ body, runsOn c d) ↔ body = [] := by
  constructor
  · intro h
    apply List.eq_nil_iff_forall_not_mem.mpr
    intro d hd
    have := h d hd
    rw [runsOn_eq_false hn hb] at this
    cases this
  · rintro rfl d hd
    cases hd

theorem hasShape_iff (h : kindOf? c = some kind) :
    HasShape kind (c :: body) ↔ ∀ d ∈ body, runsOn c d := by
  rcases kindOf?_cases h with ⟨hn, rfl⟩ | ⟨hl, rfl⟩ | hm
  · simp only [runsOn_of_isNumeral hn]
    simp only [isNumeral, Bool.or_eq_true, decide_eq_true_eq] at hn ⊢
    simp [HasShape, hn]
  · rw [forall_runsOn_iff_nil (not_numeral_of_isLower hl) (by rintro rfl; cases hl)]
    simp [HasShape, hl]
  · simp only [List.mem_cons, Prod.mk.injEq, List.not_mem_nil, or_false] at hm
    rcases hm with ⟨rfl, rfl⟩ | hm
    · simp [HasShape, runsOn, endsCommand, isNumeral, and_assoc]
    · rcases hm with ⟨rfl, rfl⟩ | ⟨rfl, rfl⟩ | ⟨rfl, rfl⟩ | ⟨rfl, rfl⟩ | ⟨rfl, rfl⟩ | ⟨rfl, rfl⟩ |
        ⟨rfl, rfl⟩ | ⟨rfl, rfl⟩ <;>
      · rw [forall_runsOn_iff_nil (by decide) (by decide)]
        simp [HasShape]

theorem stopsBefore_iff (hc : kindOf? c = some t.kind) (hs : t.text.toList = c :: body)
    (hk : t.kind ≠ .argStart) :
    StopsBefore ts t after ↔ ∀ d ∈ after.head?, ¬ runsOn c d := by
  unfold StopsBefore
  rcases kindOf?_cases hc with ⟨hn, hkind⟩ | ⟨hl, hkind⟩ | hm
  · simp only [runsOn_of_isNumeral hn, hkind, isNumeral, Bool.or_eq_true, decide_eq_true_eq]
  · have hn := not_numeral_of_isLower hl
    have hb : c ≠ '\\' := by rintro rfl; cases hl
    simp [hkind, runsOn_eq_false hn hb]
  · simp only [List.mem_cons, Prod.mk.injEq, List.not_mem_nil, or_false] at hm
    rcases hm with ⟨rfl, hkind⟩ | hm
    · simp [hkind, hs, runsOn, isNumeral, endsCommand, or_iff_not_imp_left]
    · rcases hm with ⟨rfl, hkind⟩ | ⟨rfl, hkind⟩ | ⟨rfl, hkind⟩ | ⟨rfl, hkind⟩ | ⟨rfl, hkind⟩ |
        ⟨rfl, hkind⟩ | ⟨rfl, hkind⟩ | ⟨rfl, hkind⟩ <;>
      · simp [hkind, hs, runsOn, isNumeral] at hk ⊢

end Token

/-! ## The steps of the scanner -/

theorem munchFrom_nil : MunchFrom pos inArgument [] ts ↔ ts = [] := by
  constructor
  · intro h
    apply List.eq_nil_iff_forall_not_mem.mpr
    intro t ht
    obtain ⟨hshape, before, after, hs, _⟩ := h.stands t ht
    have := hs.text
    simp only [List.nil_eq, List.append_eq_nil_iff] at this
    exact hshape.ne_nil this.1.2
  · rintro rfl
    refine ⟨by simp, .nil, by simp, by simp, fun _ => .inr (by simp)⟩

theorem MunchFrom.kind_ne_arg (h : MunchFrom pos false cs ts) (ht : t ∈ ts) (hs : t.start = pos) :
    t.kind ≠ .arg := by
  intro hk
  rcases h.opened t ht hk with ⟨u, hu, _, hus⟩ | ⟨hf, _⟩
  · have := h.start_le hu
    have := h.start_lt_stop hu
    omega
  · cases hf

theorem MunchFrom.kindOf?_eq {c : Char} (h : MunchFrom pos false (c :: cs) ts) (ht : t ∈ ts)
    (hs : t.start = pos) :
    kindOf? c = some t.kind ∧ ∃ body after, t.text.toList = c :: body ∧ cs = body ++ after ∧
      StopsBefore ts t after := by
  obtain ⟨hshape, before, after, hst, hstop⟩ := h.stands t ht
  have hcut := hst.of_start hs
  obtain ⟨d, body, hbody⟩ := List.exists_cons_of_ne_nil hshape.ne_nil
  rw [hbody, List.cons_append, List.cons.injEq] at hcut
  obtain ⟨rfl, hcut⟩ := hcut
  rw [hbody] at hshape
  exact ⟨kindOf?_of_hasShape (h.kind_ne_arg ht hs) hshape, body, after, hbody, hcut, hstop⟩

theorem munchFrom_skip {c : Char} (hc : kindOf? c = none) :
    MunchFrom pos false (c :: cs) ts ↔ MunchFrom (pos + c.utf8Size) false cs ts := by
  constructor
  · intro h
    have hcons : MunchFrom pos false ([c] ++ cs) ts := h
    refine ⟨?_, h.ordered, hcons.covered_behind, ?_, by simp⟩
    · intro t ht
      obtain ⟨hshape, before, after, hst, hstop⟩ := h.stands t ht
      cases before with
      | nil =>
        have hk := (h.kindOf?_eq ht hst.start).1
        rw [hc] at hk
        cases hk
      | cons d before =>
        obtain ⟨rfl, _⟩ := List.cons.inj hst.text
        have hst' : Stands (pos + byteLength [c]) cs t before after := stands_append.mp hst
        exact ⟨hshape, before, after, hst', hstop⟩
    · intro t ht hk
      exact .inl ((h.opened t ht hk).resolve_right (by simp))
  · intro h
    refine ⟨?_, h.ordered, ?_, ?_, by simp⟩
    · intro t ht
      obtain ⟨hshape, before, after, hst, hstop⟩ := h.stands t ht
      have hst' : Stands pos ([c] ++ cs) t ([c] ++ before) after := stands_append.mpr hst
      exact ⟨hshape, c :: before, after, hst', hstop⟩
    · intro before d after hcut hd
      cases before with
      | nil =>
        obtain ⟨rfl, _⟩ := List.cons.inj hcut
        rw [isMarkup_eq, hc] at hd
        cases hd
      | cons e before =>
        obtain ⟨rfl, hcs⟩ := List.cons.inj hcut
        rw [byteLength, ← Nat.add_assoc]
        exact h.covered before d after hcs hd
    · intro t ht hk
      exact .inl ((h.opened t ht hk).resolve_right (by simp))

theorem munchFrom_close (hcs : ∀ c ∈ cs.head?, c = '\x7d') :
    MunchFrom pos true cs ts ↔ MunchFrom pos false cs ts := by
  constructor
  · intro h
    refine ⟨h.stands, h.ordered, h.covered, ?_, by simp⟩
    intro t ht hk
    rcases h.opened t ht hk with ho | ⟨_, hs⟩
    · exact .inl ho
    · obtain ⟨hshape, before, after, hst, _⟩ := h.stands t ht
      have hcut := hst.of_start hs
      obtain ⟨d, body, hbody⟩ := List.exists_cons_of_ne_nil hshape.ne_nil
      rw [hk] at hshape
      refine absurd ?_ hshape.2
      rw [hbody, ← hcs d (by simp [hcut, hbody])]
      exact List.mem_cons_self
  · intro h
    refine ⟨h.stands, h.ordered, h.covered, ?_, fun _ => .inr hcs⟩
    intro t ht hk
    exact .inl ((h.opened t ht hk).resolve_right (by simp))

theorem munchFrom_take {c : Char} {kind : Kind} (hc : kindOf? c = some kind) :
    MunchFrom pos false (c :: cs) ts ↔
      ∃ us, ts = ⟨kind, String.ofList (c :: cs.takeWhile (runsOn c)), pos,
          pos + byteLength (c :: cs.takeWhile (runsOn c))⟩ :: us ∧
        MunchFrom (pos + byteLength (c :: cs.takeWhile (runsOn c))) (kind = .argStart)
          (cs.dropWhile (runsOn c)) us := by
  have hkind : kind = .arg ↔ false = true :=
    ⟨fun hk => absurd (hk ▸ hc) kindOf?_ne_arg, fun hf => by cases hf⟩
  have hcut : c :: cs = (c :: cs.takeWhile (runsOn c)) ++ cs.dropWhile (runsOn c) := by simp
  rw [hcut]
  refine munchFrom_first hkind ((hasShape_iff hc).mpr fun d hd => of_mem_takeWhile hd) ?_ ?_
  · intro hk
    refine (stopsBefore_iff (t := ⟨kind, _, _, _⟩) hc String.toList_ofList hk).mpr ?_
    exact fun d hd => not_of_mem_head?_dropWhile hd
  · rw [← hcut]
    intro h
    -- No token may leave the first character out, so one starts there.
    obtain ⟨t, ht, hl, hr⟩ := h.covered [] c cs rfl (by simp [isMarkup_eq, hc])
    have hs : t.start = pos := Nat.le_antisymm (by simpa [byteLength] using hl) (h.start_le ht)
    obtain ⟨hk, body, after, hbody, rfl, hstop⟩ := h.kindOf?_eq ht hs
    have hshape := (h.stands t ht).1
    rw [hbody, hasShape_iff hk] at hshape
    have hends : ∀ d ∈ after.head?, ¬ runsOn c d := by
      by_cases hks : t.kind = .argStart
      · intro d _
        obtain rfl := eq_of_kindOf?_argStart (hks ▸ hk)
        simp [runsOn_eq_false (c := '\x7b') (by decide) (by decide)]
      · exact (stopsBefore_iff hk hbody hks).mp hstop
    rw [hc, Option.some.injEq] at hk
    exact ⟨t, ht, hs, hk.symm, by rw [hbody, takeWhile_append_of_stop hshape hends]⟩

theorem munchFrom_arg (hcs : cs.takeWhile (· ≠ '\x7d') ≠ []) :
    MunchFrom pos true cs ts ↔
      ∃ us, ts = ⟨.arg, String.ofList (cs.takeWhile (· ≠ '\x7d')), pos,
          pos + byteLength (cs.takeWhile (· ≠ '\x7d'))⟩ :: us ∧
        MunchFrom (pos + byteLength (cs.takeWhile (· ≠ '\x7d'))) false
          (cs.dropWhile (· ≠ '\x7d')) us := by
  have hcut : cs = cs.takeWhile (· ≠ '\x7d') ++ cs.dropWhile (· ≠ '\x7d') := by simp
  have hraw : '\x7d' ∉ cs.takeWhile (· ≠ '\x7d') := fun hm => by simpa using of_mem_takeWhile hm
  have hends : ∀ d ∈ (cs.dropWhile (· ≠ '\x7d')).head?, d = '\x7d' := fun d hd => by
    simpa using not_of_mem_head?_dropWhile hd
  conv_lhs => rw [hcut]
  refine munchFrom_first (by simp) ⟨hcs, hraw⟩ (fun _ => hends) fun h => ?_
  rw [← hcut] at h
  rcases h.argument rfl with ⟨t, ht, hk, hs⟩ | hc
  · obtain ⟨hshape, before, after, hst, hstop⟩ := h.stands t ht
    rw [hk] at hshape
    have hall : ∀ d ∈ t.text.toList, decide (d ≠ '\x7d') := by
      intro d hd
      refine decide_eq_true fun he => hshape.2 ?_
      rwa [← he]
    have hend : ∀ d ∈ after.head?, ¬ decide (d ≠ '\x7d') := by
      simpa only [StopsBefore, hk, decide_eq_true_eq, not_not] using hstop
    refine ⟨t, ht, hs, hk, ?_⟩
    rw [hst.of_start hs, takeWhile_append_of_stop hall hend]
  · refine absurd ?_ hcs
    cases cs with
    | nil => rfl
    | cons d cs => simp [hc d rfl]

namespace Scanner

def Yields (ts : List Token) : Option Token × Scanner → Prop
  | (none, _) => ts = []
  | (some t, s) => ∃ us, ts = t :: us ∧ MunchFrom s.pos s.inArgument s.rest us

theorem munchFrom_seek (s : Scanner) (here : Nat) (cs : List Char) :
    MunchFrom here false cs ts ↔ Yields ts (s.seek here cs) := by
  induction cs generalizing here with
  | nil => exact munchFrom_nil
  | cons c cs ih =>
    rw [seek]
    cases hc : kindOf? c with
    | none => exact (munchFrom_skip hc).trans (ih _)
    | some kind =>
      rw [munchFrom_take hc]
      refine exists_congr fun us => and_congr_right fun _ => ?_
      split
      · next hsp =>
        obtain ⟨rfl, hh⟩ := hsp
        obtain ⟨ds, hds⟩ := List.head?_eq_some_iff.mp hh
        have hkind : kind = .command := by simpa [kindOf?, isNumeral] using hc.symm
        -- The space that is read with the command opens no token of its own.
        rw [hkind, hds]
        exact munchFrom_skip (by decide)
      · rfl

theorem munchFrom_next (s : Scanner) :
    MunchFrom s.pos s.inArgument s.rest ts ↔ Yields ts s.next := by
  cases ha : s.inArgument with
  | false =>
    rw [next, if_pos (by simp [braced, ha])]
    exact s.munchFrom_seek s.pos s.rest
  | true =>
    have hbr : s.braced = s.rest.takeWhile (· ≠ '\x7d') := by rw [braced, if_pos ha]
    by_cases hb : s.braced = []
    · rw [next, if_pos hb, ← munchFrom_seek]
      apply munchFrom_close
      rw [hbr] at hb
      cases hr : s.rest with
      | nil => simp
      | cons c cs =>
        rw [hr] at hb
        simpa [List.takeWhile_cons] using hb
    · have hdrop : s.rest.drop s.braced.length = s.rest.dropWhile (· ≠ '\x7d') := by
        have hcut : (s.braced ++ s.rest.dropWhile (· ≠ '\x7d')).drop s.braced.length =
          s.rest.dropWhile (· ≠ '\x7d') := List.drop_left
        rwa [hbr, List.takeWhile_append_dropWhile, ← hbr] at hcut
      rw [next, if_neg hb, munchFrom_arg (hbr ▸ hb), ← hbr, ← hdrop]
      rfl

/-- The tokens to come are the one longest-match reading of the text to come. -/
theorem munchFrom_iff_tokens (s : Scanner) :
    MunchFrom s.pos s.inArgument s.rest ts ↔ ts = s.tokens := by
  induction hn : s.rest.length using Nat.strongRecOn generalizing s ts with
  | ind n ih =>
    have hnext : MunchFrom s.pos s.inArgument s.rest ts ↔ Yields ts s.next := s.munchFrom_next
    rw [tokens]
    split
    · next hs =>
      rwa [hs] at hnext
    · next t s' hs =>
      have hlt := next_rest_length_lt hs
      rw [hs] at hnext
      simp only [Yields, ih s'.rest.length (by omega) s' rfl] at hnext
      simpa using hnext

end Scanner

theorem munchFrom_lex (input : String) : MunchFrom 0 false input.toList (lex input) :=
  (Scanner.start input).munchFrom_iff_tokens.mpr rfl

theorem hasShape_of_mem_lex {input : String} {kind : Kind} (ht : t ∈ lex input)
    (hk : t.kind = kind) : HasShape kind t.text.toList :=
  hk ▸ ((munchFrom_lex input).stands t ht).1

theorem Token.Stands.append_eq {input : String} {before after : List Char}
    (h : Stands 0 input.toList t before after) :
    input = String.ofList before ++ t.text ++ String.ofList after ∧
      (String.ofList before).utf8ByteSize = t.start := by
  constructor
  · rw [← String.toList_inj, h.text]
    simp
  · rw [utf8ByteSize_ofList, h.start, Nat.zero_add]

theorem exists_append_of_mem_lex {input : String} (ht : t ∈ lex input) :
    ∃ before after, input = before ++ t.text ++ after ∧ before.utf8ByteSize = t.start := by
  obtain ⟨_, before, after, hs, _⟩ := (munchFrom_lex input).stands t ht
  exact ⟨String.ofList before, String.ofList after, hs.append_eq⟩

theorem maximalMunch_iff_lex (input : String) (ts : List Token) :
    MaximalMunch input.toList ts ↔ ts = lex input :=
  maximalMunch_iff.trans (Scanner.munchFrom_iff_tokens (Scanner.start input))

end MathMarkup
