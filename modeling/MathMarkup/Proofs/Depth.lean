import MathMarkup.Proofs.JsonText

/-!
# How deep a value that was read can be

What is true of every part that a reader accepts is true of all parts of an array or an object that
it was used for. So a reader that lets no more than `depth` brackets stand open at once yields only
values with no more of them.
-/

namespace MathMarkup.Json

/-- Whatever is read, if anything is, has the property. -/
def Reads {α : Type} {cs : List Char} (P : α → Prop) (x : Except Fault (Reading α cs)) : Prop :=
  ∀ r, x = .ok r → P r.value

section Reads

variable {α β : Type} {P : α → Prop} {Q : β → Prop} {cs ds : List Char}
  {x : Except Fault (Reading α cs)}

theorem Reads.error (fault : Fault) : Reads P (.error fault : Except Fault (Reading α cs)) := by
  intro r h
  cases h

theorem Reads.ok {r : Reading α cs} (h : P r.value) : Reads P (.ok r) := by
  intro r' h'
  cases h'
  exact h

theorem Reads.bind {f : Reading α cs → Except Fault (Reading β ds)} (hx : Reads P x)
    (hf : ∀ r, P r.value → Reads Q (f r)) : Reads Q (x >>= f) := by
  cases x with
  | error fault => exact .error fault
  | ok r => exact hf r (hx r rfl)

theorem Reads.map {f : Reading α cs → Reading β ds} (hx : Reads P x)
    (hf : ∀ r, P r.value → Q (f r).value) : Reads Q (x.map f) := by
  cases x with
  | error fault => exact .error fault
  | ok r => exact .ok (hf r (hx r rfl))

theorem Reads.after {γ : Type} {y : Except Fault γ} {f : γ → Except Fault (Reading β ds)}
    (hf : ∀ a, Reads Q (f a)) : Reads Q (y >>= f) := by
  cases y with
  | error fault => exact .error fault
  | ok a => exact hf a

theorem Reads.true : Reads (fun _ => True) x := fun _ _ => trivial

end Reads

section Parts

variable {P : Json → Prop} {first item : Reader Json} {rule : MemberRule}

theorem reads_moreItems (hitem : ∀ cs, Reads P (item cs)) (cs : List Char) :
    Reads (∀ v ∈ ·, P v) (moreItems item cs) := by
  induction hn : cs.length using Nat.strongRecOn generalizing cs with
  | ind n ih =>
    rw [moreItems]
    split
    · exact .error _
    · exact .ok (by simp)
    · next rest h =>
      have hle := length_le_of_skip_eq h
      rw [List.length_cons] at hle
      refine .bind (hitem rest) fun head hhead => ?_
      have hlt := head.shorter
      refine .bind (ih head.rest.length (by omega) head.rest rfl) fun more hmore => ?_
      exact .ok (List.forall_mem_cons.mpr ⟨hhead, hmore⟩)
    · exact .error _

theorem reads_items (hfirst : ∀ cs, Reads P (first cs)) (hitem : ∀ cs, Reads P (item cs))
    (cs : List Char) : Reads (∀ v ∈ ·, P v) (items first item cs) := by
  rw [items]
  split
  · exact .ok (by simp)
  · refine .bind (hfirst _) fun head hhead => ?_
    refine .bind (reads_moreItems hitem head.rest) fun more hmore => ?_
    exact .ok (List.forall_mem_cons.mpr ⟨hhead, hmore⟩)

theorem reads_member (hrule : ∀ key cs, Reads P (rule.value key cs)) (seen : List String)
    (cs : List Char) : Reads (P ·.2) (member rule seen cs) := by
  unfold member
  split
  · exact .error _
  · refine .after fun key => .after fun _ => ?_
    split
    · exact .error _
    · exact .bind (hrule key.value _) fun value hvalue => .ok hvalue
    · exact .error _
  · exact .error _

theorem reads_moreMembers (hrule : ∀ key cs, Reads P (rule.value key cs)) (seen : List String)
    (cs : List Char) : Reads (∀ m ∈ ·, P m.2) (moreMembers rule seen cs) := by
  induction hn : cs.length using Nat.strongRecOn generalizing seen cs with
  | ind n ih =>
    rw [moreMembers]
    split
    · exact .error _
    · exact .ok (by simp)
    · next rest h =>
      have hle := length_le_of_skip_eq h
      have hskip := skip_length_le rest
      rw [List.length_cons] at hle
      refine .bind (reads_member hrule seen (skip rest)) fun head hhead => ?_
      have hlt := head.shorter
      refine .bind (ih head.rest.length (by omega) _ head.rest rfl) fun more hmore => ?_
      exact .ok (List.forall_mem_cons.mpr ⟨hhead, hmore⟩)
    · exact .error _

theorem reads_members (hrule : ∀ key cs, Reads P (rule.value key cs)) (cs : List Char) :
    Reads (∀ m ∈ ·, P m.2) (members rule cs) := by
  rw [members]
  split
  · exact .ok (by simp)
  · refine .bind (reads_member hrule [] _) fun head hhead => ?_
    refine .bind (reads_moreMembers hrule _ head.rest) fun more hmore => ?_
    exact .ok (List.forall_mem_cons.mpr ⟨hhead, hmore⟩)

end Parts

/-! ## Depth -/

variable {n : Nat}

theorem nestItems_le {items : List Json} : nestItems items ≤ n ↔ ∀ v ∈ items, v.nest ≤ n := by
  induction items with
  | nil => simp [nestItems]
  | cons v items ih => rw [nestItems, Nat.max_le, ih, List.forall_mem_cons]

theorem nestMembers_le {members : List (String × Json)} :
    nestMembers members ≤ n ↔ ∀ m ∈ members, m.2.nest ≤ n := by
  induction members with
  | nil => simp [nestMembers]
  | cons m members ih => rw [nestMembers, Nat.max_le, ih, List.forall_mem_cons]

theorem reads_word (w : List Char) {v : Json} (hw : w ≠ []) (hv : v.nest ≤ n) (cs : List Char) :
    Reads (nest · ≤ n) (word w v hw cs) := by
  unfold word
  split
  · exact .ok hv
  · split
    · exact .error _
    · exact .error _

theorem reads_scalar (cs : List Char) : Reads (nest · ≤ n) (scalar cs) := by
  cases cs with
  | nil => exact .error _
  | cons c cs =>
    rw [scalar]
    split_ifs
    · exact .map .true fun _ _ => Nat.zero_le n
    · exact reads_word _ _ (Nat.zero_le n) _
    · exact reads_word _ _ (Nat.zero_le n) _
    · exact reads_word _ _ (Nat.zero_le n) _
    · exact .map .true fun _ _ => Nat.zero_le n
    · exact .error _

theorem reads_value (depth : Nat) (cs : List Char) : Reads (nest · ≤ depth) (value depth cs) := by
  induction depth generalizing cs with
  | zero => exact .map (reads_scalar _) fun _ hr => hr
  | succ depth ih =>
    rw [value]
    split
    · refine .map (reads_items ih ih _) fun r hr => ?_
      show 1 + nestItems r.value ≤ depth + 1
      have := nestItems_le.mpr hr
      omega
    · refine .map (reads_members (fun _ => ih) _) fun r hr => ?_
      show 1 + nestMembers r.value ≤ depth + 1
      have := nestMembers_le.mpr hr
      omega
    · exact .map (reads_scalar _) fun _ hr => hr

end MathMarkup.Json
