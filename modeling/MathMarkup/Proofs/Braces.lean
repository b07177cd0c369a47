import MathMarkup.Proofs.Appending

/-!
# Tokens around braces

Behind an opening brace stands the argument, or the closing brace if there is none, with no gap. Behind
an argument stands the closing brace, and nowhere else than behind an opening brace does an argument
stand.
-/

namespace MathMarkup

open Token (kindOf?)

/-- What braces and arguments require of a token `u` that stands directly behind a token `t`. -/
structure Token.Adjoins (t u : Token) : Prop where
  opening : t.kind = .argStart → (u.kind = .arg ∨ u.kind = .argEnd) ∧ u.start = t.stop
  argument : t.kind = .arg → u.kind = .argEnd ∧ u.start = t.stop
  opened : u.kind = .arg → t.kind = .argStart

namespace Scanner

variable {pos : Nat} {cs : List Char} {t u : Token}

theorem kind_ne_arg_of_mem_head? (hu : u ∈ (tokensFrom pos false cs).head?) : u.kind ≠ .arg := by
  induction cs generalizing pos with
  | nil => simp at hu
  | cons c cs ih =>
    cases hc : kindOf? c with
    | none =>
      rw [tokensFrom_skip hc] at hu
      exact ih hu
    | some kind =>
      rw [tokensFrom_take hc] at hu
      cases hu
      rintro rfl
      exact Token.kindOf?_ne_arg hc

theorem closes_of_mem_head? (hcs : ∀ c ∈ cs.head?, c = '\x7d')
    (hu : u ∈ (tokensFrom pos false cs).head?) : u.kind = .argEnd ∧ u.start = pos := by
  cases cs with
  | nil => simp at hu
  | cons c cs =>
    obtain rfl : c = '\x7d' := hcs c rfl
    have hkind : kindOf? '\x7d' = some .argEnd := by decide
    rw [tokensFrom_take hkind] at hu
    cases hu
    exact ⟨rfl, rfl⟩

theorem isChain_cons (ht : t.kind ≠ .argStart ∧ t.kind ≠ .arg)
    (h : (tokensFrom pos false cs).IsChain Token.Adjoins) :
    (t :: tokensFrom pos false cs).IsChain Token.Adjoins :=
  List.isChain_cons.mpr ⟨fun _ hu => ⟨fun hk => absurd hk ht.1, fun hk => absurd hk ht.2,
    fun hk => absurd hk (kind_ne_arg_of_mem_head? hu)⟩, h⟩

theorem isChain_cons_close (hcs : ∀ c ∈ cs.head?, c = '\x7d')
    (h : (tokensFrom t.stop false cs).IsChain Token.Adjoins) :
    (t :: tokensFrom t.stop false cs).IsChain Token.Adjoins := by
  refine List.isChain_cons.mpr ⟨fun u hu => ?_, h⟩
  obtain ⟨hk, hs⟩ := closes_of_mem_head? hcs hu
  exact ⟨fun _ => ⟨.inr hk, hs⟩, fun _ => ⟨hk, hs⟩, fun ha => by cases hk.symm.trans ha⟩

theorem isChain_cons_argument (ht : t.kind = .argStart)
    (h : ∀ pos ds, ds.length ≤ cs.length → (tokensFrom pos false ds).IsChain Token.Adjoins) :
    (t :: tokensFrom t.stop true cs).IsChain Token.Adjoins := by
  have hstop : ∀ c ∈ (cs.dropWhile (· ≠ '\x7d')).head?, c = '\x7d' := fun c hc => by
    simpa using not_of_mem_head?_dropWhile hc
  by_cases hraw : cs.takeWhile (· ≠ '\x7d') = []
  · have hdrop : cs.dropWhile (· ≠ '\x7d') = cs :=
      List.dropWhile_eq_self_iff.mpr (List.takeWhile_eq_nil_iff.mp hraw)
    rw [hdrop] at hstop
    rw [tokensFrom_close hstop]
    exact isChain_cons_close hstop (h _ cs (Nat.le_refl _))
  · rw [tokensFrom_arg hraw]
    refine List.isChain_cons_cons.mpr ⟨⟨fun _ => ⟨.inl rfl, rfl⟩, fun hk => ?_, fun _ => ht⟩, ?_⟩
    · cases hk.symm.trans ht
    · exact isChain_cons_close hstop (h _ _ (List.dropWhile_sublist _).length_le)

theorem isChain_tokensFrom (pos : Nat) (cs : List Char) :
    (tokensFrom pos false cs).IsChain Token.Adjoins := by
  induction hn : cs.length using Nat.strongRecOn generalizing pos cs with
  | ind n ih =>
    cases cs with
    | nil =>
      rw [tokensFrom_nil]
      exact .nil
    | cons c cs =>
      rw [List.length_cons] at hn
      have hrest : ∀ pos ds, ds.length ≤ cs.length →
          (tokensFrom pos false ds).IsChain Token.Adjoins :=
        fun pos ds hl => ih ds.length (by omega) pos ds rfl
      cases hc : kindOf? c with
      | none =>
        rw [tokensFrom_skip hc]
        exact hrest _ cs (Nat.le_refl _)
      | some kind =>
        by_cases hk : kind = .argStart
        · subst hk
          obtain rfl := Token.eq_of_kindOf?_argStart hc
          rw [tokensFrom_single hc (by decide) (by decide)]
          exact isChain_cons_argument rfl hrest
        · have harg : kind ≠ .arg := by
            rintro rfl
            exact Token.kindOf?_ne_arg hc
          rw [tokensFrom_take hc, decide_eq_false hk]
          exact isChain_cons ⟨hk, harg⟩ (hrest _ _ (List.dropWhile_sublist _).length_le)

end Scanner

theorem isChain_lex (input : String) : (lex input).IsChain Token.Adjoins :=
  Scanner.isChain_tokensFrom 0 input.toList

variable {input : String} {t u v : Token}

theorem closes_of_infix_lex (h : [t, u, v] <:+: lex input) (ht : t.kind = .argStart)
    (hraw : ¬(u.kind = .arg ∧ v.kind = .argEnd)) : u.kind = .argEnd ∧ u.start = t.stop := by
  have hchain : [t, u, v].IsChain Token.Adjoins := List.IsChain.infix (isChain_lex input) h
  obtain ⟨hfirst, hrest⟩ := List.isChain_cons_cons.mp hchain
  obtain ⟨hkind, hstart⟩ := hfirst.opening ht
  refine ⟨hkind.resolve_left fun harg => hraw ⟨harg, ?_⟩, hstart⟩
  exact ((List.isChain_cons_cons.mp hrest).1.argument harg).1

/-! ## Tokens without a gap between them -/

theorem exists_append_of_adjacent (ht : t ∈ lex input) (hu : u ∈ lex input)
    (hs : u.start = t.stop) :
    ∃ before after, input = before ++ (t.text ++ u.text) ++ after ∧
      before.utf8ByteSize = t.start := by
  obtain ⟨_, before, behind, hst, _⟩ := (munchFrom_lex input).stands t ht
  obtain ⟨_, _, after, hsu, _⟩ := (munchFrom_lex input).stands u hu
  have hend : u.start = 0 + byteLength (before ++ t.text.toList) := by
    rw [hs, hst.stop, hst.start, byteLength_append, Nat.add_assoc]
  rw [hst.text] at hsu
  obtain ⟨_, hsu⟩ := hsu.of_le hend.ge
  have hbehind : behind = u.text.toList ++ after := hsu.of_start hend
  obtain ⟨hcut, hstart⟩ := hst.append_eq
  refine ⟨String.ofList before, String.ofList after, ?_, hstart⟩
  rw [hcut, hbehind, String.ofList_append, String.ofList_toList]
  simp only [String.append_assoc]

theorem exists_append_of_empty (ht : t ∈ lex input) (hu : u ∈ lex input)
    (htk : t.kind = .argStart) (huk : u.kind = .argEnd) (hs : u.start = t.stop) :
    ∃ before after, input = before ++ "\x7b\x7d" ++ after ∧ before.utf8ByteSize = t.start := by
  have hopen : t.text = "\x7b" := String.toList_inj.mp (hasShape_of_mem_lex ht htk)
  have hclose : u.text = "\x7d" := String.toList_inj.mp (hasShape_of_mem_lex hu huk)
  have hboth := exists_append_of_adjacent ht hu hs
  rwa [hopen, hclose] at hboth

end MathMarkup
