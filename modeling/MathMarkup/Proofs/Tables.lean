import Mathlib.Data.Finset.Card
import Mathlib.Tactic.Common
import MathMarkup.Command.Hashed
import MathMarkup.Command.Sorted
import MathMarkup.Command.Trie
import MathMarkup.Grammar.Memory

/-!
# Command tables

A table of commands is the finite map that its entries describe: a name means what the last entry
with its bytes says, and nothing if there is no such entry. The sorted table, the two hashed ones
and the trie all look names up in this map. For the sorted table this needs a stable sort, that of
equal neighbours the last is kept, and that the search compares keys as the sort does; what makes
the search right is that the keys increase strictly.
-/

namespace MathMarkup.Command

variable {entries : Entries} {name : String} {command : Command}

/-! ## The meaning of entries -/

theorem meaning_cons (entry : String × Command) (entries : Entries) (name : String) :
    meaning (entry :: entries) name =
      (meaning entries name).or (if name = entry.1 then some entry.2 else none) := by
  rw [meaning, List.reverse_cons, List.lookup_append, ← meaning]
  obtain ⟨key, command⟩ := entry
  by_cases h : name = key
  · simp only [List.lookup_cons, beq_iff_eq.mpr h, if_pos h]
  · simp only [List.lookup_cons, List.lookup_nil, beq_eq_false_iff_ne.mpr h, if_neg h]

theorem meaning_eq_some_iff :
    meaning entries name = some command ↔
      ∃ before after, entries = before ++ (name, command) :: after ∧
        ∀ entry ∈ after, entry.1 ≠ name := by
  rw [meaning, List.lookup_eq_some_iff]
  constructor
  · rintro ⟨after, before, hs, ha⟩
    refine ⟨before.reverse, after.reverse, ?_, ?_⟩
    · simpa using congrArg List.reverse hs
    · intro entry he hk
      exact bne_iff_ne.mp (ha entry (List.mem_reverse.mp he)) hk.symm
  · rintro ⟨before, after, rfl, ha⟩
    refine ⟨after.reverse, before.reverse, by simp, fun entry he => bne_iff_ne.mpr fun hk => ?_⟩
    exact ha entry (List.mem_reverse.mp he) hk.symm

theorem meaning_eq_none_iff :
    meaning entries name = none ↔ ∀ entry ∈ entries, entry.1 ≠ name := by
  rw [meaning, List.lookup_eq_none_iff]
  simp only [List.mem_reverse, bne_iff_ne, ne_comm]

theorem isSome_meaning_iff : (meaning entries name).isSome ↔ name ∈ entries.map Prod.fst := by
  rw [← Option.ne_none_iff_isSome, Ne, meaning_eq_none_iff]
  simp

theorem meaning_filter (entries : Entries) (name : String) :
    meaning (entries.filter (·.1 = name)) name = meaning entries name := by
  induction entries with
  | nil => rfl
  | cons entry entries ih =>
    by_cases h : entry.1 = name
    · rw [List.filter_cons_of_pos (by simpa using h), meaning_cons, meaning_cons, ih]
    · rw [List.filter_cons_of_neg (by simpa using h), meaning_cons, ih, if_neg (Ne.symm h),
        Option.or_none]

theorem length_eq_card {keys : List String} (hd : keys.Nodup)
    (hk : ∀ key, key ∈ keys ↔ (meaning entries key).isSome) :
    keys.length = (entries.map Prod.fst).toFinset.card := by
  have hs : keys.toFinset = (entries.map Prod.fst).toFinset := by
    ext key
    rw [List.mem_toFinset, List.mem_toFinset, hk, isSome_meaning_iff]
  rw [← hs, List.toFinset_card_of_nodup hd]

/-! ## Tables that are filled entry by entry -/

theorem find?_foldl {τ : Type} (find? : τ → String → Option Command)
    {insert : τ → String → Command → τ}
    (hinsert : ∀ t key command name,
      find? (insert t key command) name = if name = key then some command else find? t name)
    (t : τ) (entries : Entries) (name : String) :
    find? (entries.foldl (fun t entry => insert t entry.1 entry.2) t) name =
      (meaning entries name).or (find? t name) := by
  induction entries generalizing t with
  | nil => rfl
  | cons entry entries ih =>
    rw [List.foldl_cons, ih, hinsert, meaning_cons]
    cases meaning entries name <;> split <;> rfl

def FnvKey.equiv : String ≃ FnvKey := ⟨FnvKey.mk, FnvKey.text, fun _ => rfl, fun _ => rfl⟩

section Hashed

variable {κ : Type} [DecidableEq κ] [Hashable κ]

def filled (wrap : String ≃ κ) (entries : Entries) : Std.HashMap κ Command :=
  entries.foldl (fun t entry => t.insert (wrap entry.1) entry.2) ∅

variable (wrap : String ≃ κ) (entries : Entries)

theorem getElem?_filled (name : String) :
    (filled wrap entries)[wrap name]? = meaning entries name := by
  have hinsert : ∀ (t : Std.HashMap κ Command) (key : String) (command : Command) (name : String),
      (t.insert (wrap key) command)[wrap name]? =
        if name = key then some command else t[wrap name]? := by
    intro t key command name
    simp only [Std.HashMap.getElem?_insert, beq_iff_eq, wrap.apply_eq_iff_eq, eq_comm (a := key)]
  have hfold := find?_foldl (fun t name => t[wrap name]?) hinsert ∅ entries name
  rwa [Std.HashMap.getElem?_empty, Option.or_none] at hfold

theorem size_filled : (filled wrap entries).size = (entries.map Prod.fst).toFinset.card := by
  have hd : ((filled wrap entries).keys.map wrap.symm).Nodup :=
    Std.HashMap.nodup_keys.map wrap.symm.injective
  have hk : ∀ key, key ∈ (filled wrap entries).keys.map wrap.symm ↔
      (meaning entries key).isSome := by
    intro key
    rw [← getElem?_filled wrap, ← Std.HashMap.mem_iff_isSome_getElem?, ← Std.HashMap.mem_keys]
    constructor
    · intro h
      obtain ⟨wrapped, hm, rfl⟩ := List.mem_map.mp h
      rwa [wrap.apply_symm_apply]
    · exact fun h => List.mem_map.mpr ⟨wrap key, h, wrap.symm_apply_apply key⟩
  rw [← length_eq_card hd hk, List.length_map, Std.HashMap.length_keys]

theorem HashedTable.find?_ofList : (HashedTable.ofList entries).find? = meaning entries :=
  funext (getElem?_filled (.refl String) entries)

theorem HashedTable.size_ofList :
    (HashedTable.ofList entries).size = (entries.map Prod.fst).toFinset.card :=
  size_filled (.refl String) entries

theorem FnvTable.find?_ofList : (FnvTable.ofList entries).find? = meaning entries :=
  funext (getElem?_filled FnvKey.equiv entries)

theorem FnvTable.size_ofList :
    (FnvTable.ofList entries).size = (entries.map Prod.fst).toFinset.card :=
  size_filled FnvKey.equiv entries

end Hashed

namespace Branches

theorem find?_single (command : Command) (b c : UInt8) (bs cs : List UInt8) :
    (single command b bs).find? c cs = if c = b ∧ cs = bs then some command else none := by
  induction bs generalizing b c cs with
  | nil =>
    by_cases h : c = b
    · cases cs <;> simp [single, find?, h]
    · simp [single, find?, h]
  | cons d ds ih =>
    by_cases h : c = b
    · cases cs <;> simp [single, find?, h, ih]
    · simp [single, find?, h]

theorem find?_insert (command : Command) (t : Branches) (b c : UInt8) (bs cs : List UInt8) :
    (t.insert command b bs).find? c cs =
      if c = b ∧ cs = bs then some command else t.find? c cs := by
  induction t, b, bs using insert.induct generalizing c cs with
  | case1 b bs => simp [insert, find?_single, find?]
  | case2 value below beside b =>
    by_cases h : c = b
    · cases cs <;> simp [insert, find?, h]
    · simp [insert, find?, h]
  | case3 value below beside b d ds ih =>
    by_cases h : c = b
    · cases cs <;> simp [insert, find?, h, ih]
    · simp [insert, find?, h]
  | case4 byte value below beside b bs hne ih =>
    by_cases h : c = byte
    · simp [insert, find?, hne, h, Ne.symm hne]
    · simp [insert, find?, hne, h, ih]

end Branches

namespace Trie

theorem find?_insert (t : Trie) (key : String) (command : Command) (name : String) :
    (t.insert key command).find? name = if name = key then some command else t.find? name := by
  simp only [← keyBytes_inj (a := name), find?, insert]
  cases keyBytes key with
  | nil => cases keyBytes name <;> simp
  | cons b bs => cases keyBytes name <;> simp [Branches.find?_insert]

theorem find?_ofList (entries : Entries) : (Trie.ofList entries).find? = meaning entries := by
  funext name
  have hempty : Trie.empty.find? name = none := by
    rw [find?]
    split <;> rfl
  rw [ofList, find?_foldl find? find?_insert, hempty, Option.or_none]

end Trie

/-! ## The order of keys -/

variable {as bs : List UInt8}

theorem compareBytes_eq_lt : compareBytes as bs = .lt ↔ as < bs := by
  induction as, bs using compareBytes.induct with
  | case1 => simp [compareBytes]
  | case2 b bs => simp [compareBytes]
  | case3 a as => simp [compareBytes]
  | case4 a as b bs ih =>
    rw [compareBytes, Ordering.then_eq_lt, ih, Std.compare_eq_lt, Std.compare_eq_iff_eq,
      List.cons_lt_cons_iff]

theorem compareBytes_eq_gt : compareBytes as bs = .gt ↔ bs < as := by
  induction as, bs using compareBytes.induct with
  | case1 => simp [compareBytes]
  | case2 b bs => simp [compareBytes]
  | case3 a as => simp [compareBytes]
  | case4 a as b bs ih =>
    rw [compareBytes, Ordering.then_eq_gt, ih, Std.compare_eq_gt, Std.compare_eq_iff_eq,
      List.cons_lt_cons_iff, eq_comm]

theorem compareBytes_eq_eq : compareBytes as bs = .eq ↔ as = bs := by
  induction as, bs using compareBytes.induct with
  | case1 => simp [compareBytes]
  | case2 b bs => simp [compareBytes]
  | case3 a as => simp [compareBytes]
  | case4 a as b bs ih =>
    rw [compareBytes, Ordering.then_eq_eq, ih, Std.compare_eq_iff_eq, List.cons.injEq]

def inOrder (a b : String × Command) : Bool := (compareBytes (keyBytes a.1) (keyBytes b.1)).isLE

theorem inOrder_iff {a b : String × Command} : inOrder a b ↔ keyBytes a.1 ≤ keyBytes b.1 := by
  rw [inOrder, Ordering.isLE_iff_ne_gt, compareBytes_eq_gt, List.not_lt]

theorem inOrder_trans (a b c : String × Command) (hab : inOrder a b) (hbc : inOrder b c) :
    inOrder a c :=
  inOrder_iff.mpr (Std.le_trans (inOrder_iff.mp hab) (inOrder_iff.mp hbc))

theorem inOrder_total (a b : String × Command) : inOrder a b || inOrder b a := by
  rw [Bool.or_eq_true, inOrder_iff, inOrder_iff]
  exact Std.le_total

theorem filter_mergeSort (entries : Entries) (name : String) :
    (entries.mergeSort inOrder).filter (·.1 = name) = entries.filter (·.1 = name) := by
  have hequal : (entries.filter (·.1 = name)).Pairwise fun a b => inOrder a b := by
    refine List.pairwise_of_forall_mem_list fun a ha b hb => ?_
    have hab : a.1 = b.1 := by
      rw [of_decide_eq_true (List.mem_filter.mp ha).2, of_decide_eq_true (List.mem_filter.mp hb).2]
    rw [inOrder_iff, hab]
    exact List.le_refl _
  have hsub : (entries.filter (·.1 = name)).Sublist (entries.mergeSort inOrder) :=
    List.sublist_mergeSort inOrder_trans inOrder_total hequal List.filter_sublist
  have hfiltered := hsub.filter (·.1 = name)
  rw [List.filter_filter] at hfiltered
  simp only [Bool.and_self] at hfiltered
  have hlen := ((List.mergeSort_perm entries inOrder).filter (·.1 = name)).length_eq
  exact (hfiltered.eq_of_length hlen.symm).symm

theorem meaning_mergeSort (entries : Entries) (name : String) :
    meaning (entries.mergeSort inOrder) name = meaning entries name := by
  rw [← meaning_filter, filter_mergeSort, meaning_filter]

namespace SortedTable

theorem lookup_keep (kept : Entries) (entry : String × Command) (name : String) :
    (keep kept entry).lookup name = (entry :: kept).lookup name := by
  obtain ⟨key, command⟩ := entry
  cases kept with
  | nil => rfl
  | cons last kept =>
    obtain ⟨lastKey, lastCommand⟩ := last
    rw [keep]
    split
    · rename_i hk
      obtain rfl : key = lastKey := hk
      by_cases hn : name = key
      · simp only [List.lookup_cons, beq_iff_eq.mpr hn]
      · simp only [List.lookup_cons, beq_eq_false_iff_ne.mpr hn]
    · rfl

theorem lookup_foldl_keep (kept entries : Entries) (name : String) :
    (entries.foldl keep kept).lookup name = (entries.reverse ++ kept).lookup name := by
  induction entries generalizing kept with
  | nil => rfl
  | cons entry entries ih =>
    rw [List.foldl_cons, ih, List.lookup_append, lookup_keep, ← List.lookup_append,
      List.reverse_cons, List.append_assoc, List.singleton_append]

theorem meaning_keepLast (entries : Entries) (name : String) :
    meaning (keepLast entries) name = meaning entries name := by
  rw [meaning, keepLast, List.reverse_reverse, lookup_foldl_keep, List.append_nil, ← meaning]

def Increasing (entries : Entries) : Prop :=
  entries.Pairwise fun a b => keyBytes a.1 < keyBytes b.1

theorem mem_keep {kept : Entries} {entry other : String × Command} (h : other ∈ keep kept entry) :
    other = entry ∨ other ∈ kept := by
  cases kept with
  | nil => exact .inl (List.mem_singleton.mp h)
  | cons last kept =>
    rw [keep] at h
    split at h
    · exact (List.mem_cons.mp h).imp_right (List.mem_cons_of_mem last)
    · exact List.mem_cons.mp h

theorem pairwise_keep {kept : Entries} {entry : String × Command}
    (hkept : kept.Pairwise fun a b => keyBytes b.1 < keyBytes a.1)
    (hentry : ∀ other ∈ kept, keyBytes other.1 ≤ keyBytes entry.1) :
    (keep kept entry).Pairwise fun a b => keyBytes b.1 < keyBytes a.1 := by
  cases kept with
  | nil => exact List.pairwise_singleton _ entry
  | cons last kept =>
    obtain ⟨hlast, hrest⟩ := List.pairwise_cons.mp hkept
    rw [keep]
    split
    · rename_i hk
      refine List.pairwise_cons.mpr ⟨fun other ho => ?_, hrest⟩
      rw [hk]
      exact hlast other ho
    · rename_i hk
      have hlt : keyBytes last.1 < keyBytes entry.1 :=
        Std.lt_of_le_of_ne (hentry last List.mem_cons_self) fun he => hk (keyBytes_inj.mp he).symm
      refine List.pairwise_cons.mpr ⟨fun other ho => ?_, hkept⟩
      rcases List.mem_cons.mp ho with rfl | ho
      · exact hlt
      · exact Std.lt_trans (hlast other ho) hlt

theorem pairwise_foldl_keep {kept entries : Entries}
    (hkept : kept.Pairwise fun a b => keyBytes b.1 < keyBytes a.1)
    (hsorted : entries.Pairwise fun a b => inOrder a b)
    (hbefore : ∀ other ∈ kept, ∀ entry ∈ entries, inOrder other entry) :
    (entries.foldl keep kept).Pairwise fun a b => keyBytes b.1 < keyBytes a.1 := by
  induction entries generalizing kept with
  | nil => exact hkept
  | cons entry entries ih =>
    obtain ⟨hfirst, hrest⟩ := List.pairwise_cons.mp hsorted
    refine ih (pairwise_keep hkept fun other ho => ?_) hrest fun other ho next hn => ?_
    · exact inOrder_iff.mp (hbefore other ho entry List.mem_cons_self)
    · rcases mem_keep ho with rfl | ho
      · exact hfirst next hn
      · exact hbefore other ho next (List.mem_cons_of_mem entry hn)

theorem increasing_keepLast {entries : Entries} (h : entries.Pairwise fun a b => inOrder a b) :
    Increasing (keepLast entries) :=
  List.pairwise_reverse.mpr (pairwise_foldl_keep .nil h (by simp))

theorem increasing_ofList (entries : Entries) :
    Increasing (SortedTable.ofList entries).entries.toList :=
  increasing_keepLast (List.pairwise_mergeSort inOrder_trans inOrder_total entries)

theorem meaning_ofList (entries : Entries) (name : String) :
    meaning (SortedTable.ofList entries).entries.toList name = meaning entries name :=
  (meaning_keepLast _ name).trans (meaning_mergeSort entries name)

theorem Increasing.nodup (h : Increasing entries) : (entries.map Prod.fst).Nodup := by
  refine List.pairwise_map.mpr (List.Pairwise.imp (fun {a b} hlt he => ?_) h)
  rw [he] at hlt
  exact Std.lt_irrefl hlt

theorem Increasing.meaning_eq_some (h : Increasing entries) :
    meaning entries name = some command ↔ (name, command) ∈ entries := by
  rw [meaning_eq_some_iff]
  constructor
  · rintro ⟨before, after, rfl, _⟩
    simp
  · intro hm
    obtain ⟨before, after, rfl⟩ := List.append_of_mem hm
    refine ⟨before, after, rfl, fun entry he hk => ?_⟩
    have hlt := (List.pairwise_cons.mp (List.pairwise_append.mp h).2.1).1 entry he
    rw [hk] at hlt
    exact Std.lt_irrefl hlt

theorem Increasing.lt_iff {t : SortedTable} (h : Increasing t.entries.toList) {i j : Nat}
    {a b : String × Command} (ha : t.entries[i]? = some a) (hb : t.entries[j]? = some b) :
    keyBytes a.1 < keyBytes b.1 ↔ i < j := by
  obtain ⟨hi, rfl⟩ := Array.getElem?_eq_some_iff.mp ha
  obtain ⟨hj, rfl⟩ := Array.getElem?_eq_some_iff.mp hb
  have hlt := List.pairwise_iff_getElem.mp h
  constructor
  · intro hk
    by_contra hij
    rcases Nat.eq_or_lt_of_le (Nat.not_lt.mp hij) with rfl | hji
    · exact Std.lt_irrefl hk
    · exact Std.lt_irrefl (Std.lt_trans hk (hlt j i hj hi hji))
  · exact hlt i j hi hj

/-- Among increasing keys a search finds the name exactly if it stands between the bounds. -/
theorem search_eq_some {t : SortedTable} (h : Increasing t.entries.toList) {lo hi : Nat}
    (hhi : hi ≤ t.size) :
    t.search name lo hi = some command ↔
      ∃ i, lo ≤ i ∧ i < hi ∧ t.entries[i]? = some (name, command) := by
  induction lo, hi using search.induct t name with
  | case1 lo hi hlt mid hmid =>
    have hsize : t.size ≤ mid := Array.getElem?_eq_none_iff.mp hmid
    omega
  | case2 lo hi hlt mid key found hmid hcmp =>
    have hstep : t.search name lo hi = some found := by
      rw [search, if_pos hlt]
      simp only [show t.entries[(lo + hi) / 2]? = _ from hmid, hcmp]
    obtain rfl := keyBytes_inj.mp (compareBytes_eq_eq.mp hcmp)
    rw [hstep]
    constructor
    · rintro ⟨⟩
      exact ⟨mid, by omega, by omega, hmid⟩
    · rintro ⟨i, _, _, hi⟩
      have hbefore : ¬ i < mid := (h.lt_iff hi hmid).not.mp Std.lt_irrefl
      have hbehind : ¬ mid < i := (h.lt_iff hmid hi).not.mp Std.lt_irrefl
      obtain rfl : i = mid := by omega
      rw [hmid] at hi
      cases hi
      rfl
  | case3 lo hi hlt mid key found hmid hcmp ih =>
    have hstep : t.search name lo hi = t.search name lo mid := by
      rw [search, if_pos hlt]
      simp only [show t.entries[(lo + hi) / 2]? = _ from hmid, hcmp, mid]
    rw [hstep, ih (by omega)]
    -- A name less than the middle key can only stand before it.
    refine exists_congr fun i => and_congr_right fun _ => and_congr_left fun hi => ?_
    have him := (h.lt_iff hi hmid).mp (compareBytes_eq_lt.mp hcmp)
    omega
  | case4 lo hi hlt mid key found hmid hcmp ih =>
    have hstep : t.search name lo hi = t.search name (mid + 1) hi := by
      rw [search, if_pos hlt]
      simp only [show t.entries[(lo + hi) / 2]? = _ from hmid, hcmp, mid]
    rw [hstep, ih hhi]
    refine exists_congr fun i => ?_
    rw [← and_assoc, ← and_assoc]
    refine and_congr_left fun hi => ?_
    have him := (h.lt_iff hmid hi).mp (compareBytes_eq_gt.mp hcmp)
    omega
  | case5 lo hi hge =>
    rw [search, if_neg hge]
    constructor
    · rintro ⟨⟩
    · rintro ⟨i, _, _, _⟩
      omega

theorem find?_ofList (entries : Entries) :
    (SortedTable.ofList entries).find? = meaning entries := by
  funext name
  have hinc := increasing_ofList entries
  ext command
  rw [← meaning_ofList, hinc.meaning_eq_some, find?, search_eq_some hinc (Nat.le_refl _),
    List.mem_iff_getElem?]
  refine exists_congr fun i => ?_
  rw [Array.getElem?_toList]
  constructor
  · exact fun h => h.2.2
  · exact fun h => ⟨Nat.zero_le i, (Array.getElem?_eq_some_iff.mp h).1, h⟩

theorem size_ofList (entries : Entries) :
    (SortedTable.ofList entries).size = (entries.map Prod.fst).toFinset.card := by
  have hk : ∀ key, key ∈ (SortedTable.ofList entries).entries.toList.map Prod.fst ↔
      (meaning entries key).isSome := by
    intro key
    rw [← meaning_ofList, isSome_meaning_iff]
  rw [← length_eq_card (increasing_ofList entries).nodup hk, List.length_map]
  rfl

end SortedTable

/-! ## One map -/

/-- The ways of looking a name up in a table of the entries. Besides the tables of commands they are
those of any other kind of table that is empty at first and is filled entry by entry, where what is
inserted last for the bytes of a name counts. -/
inductive IsLookup (entries : Entries) : (String → Option Command) → Prop
  | sorted : IsLookup entries (SortedTable.ofList entries).find?
  | hashed : IsLookup entries (HashedTable.ofList entries).find?
  | fnv : IsLookup entries (FnvTable.ofList entries).find?
  | trie : IsLookup entries (Trie.ofList entries).find?
  | filled {τ : Type} {t : τ} {insert : τ → String → Command → τ}
      {find? : τ → String → Option Command} :
      (∀ name, find? t name = none) →
      (∀ t key command name, find? (insert t key command) name =
        if keyBytes name = keyBytes key then some command else find? t name) →
      IsLookup entries (find? (entries.foldl (fun t entry => insert t entry.1 entry.2) t))

theorem IsLookup.eq_meaning {find? : String → Option Command} (h : IsLookup entries find?) :
    find? = meaning entries := by
  cases h with
  | sorted => exact SortedTable.find?_ofList entries
  | hashed => exact HashedTable.find?_ofList entries
  | fnv => exact FnvTable.find?_ofList entries
  | trie => exact Trie.find?_ofList entries
  | @filled τ t insert find? hempty hinsert =>
    funext name
    simp only [keyBytes_inj] at hinsert
    rw [find?_foldl find? hinsert, hempty, Option.or_none]

/-- Every table yields the command of the last entry whose key has the bytes of the name, and
nothing if no entry has it. The keys of the sorted table increase strictly, each table that has a
size holds as many keys as there are different ones, and tokens are parsed alike, failures included,
whichever table the grammar uses. -/
theorem tables_are_one_map (entries : Entries) :
    (∀ find?, IsLookup entries find? → ∀ name,
      (∀ command, find? name = some command ↔
        ∃ before key after, entries = before ++ (key, command) :: after ∧
          keyBytes key = keyBytes name ∧ ∀ entry ∈ after, keyBytes entry.1 ≠ keyBytes name) ∧
      (find? name = none ↔ ∀ entry ∈ entries, keyBytes entry.1 ≠ keyBytes name)) ∧
    SortedTable.Increasing (SortedTable.ofList entries).entries.toList ∧
    ((SortedTable.ofList entries).size = (entries.map Prod.fst).toFinset.card ∧
      (HashedTable.ofList entries).size = (entries.map Prod.fst).toFinset.card ∧
      (FnvTable.ofList entries).size = (entries.map Prod.fst).toFinset.card) ∧
    ∀ find? other, IsLookup entries find? → IsLookup entries other → ∀ implicitProducts ts,
      Grammar.parse ⟨find?, implicitProducts⟩ ts = Grammar.parse ⟨other, implicitProducts⟩ ts ∧
        Grammar.parseComplete ⟨find?, implicitProducts⟩ ts =
          Grammar.parseComplete ⟨other, implicitProducts⟩ ts := by
  refine ⟨?_, SortedTable.increasing_ofList entries, ⟨SortedTable.size_ofList entries,
    HashedTable.size_ofList entries, FnvTable.size_ofList entries⟩, ?_⟩
  · intro find? hf name
    rw [hf.eq_meaning]
    constructor
    · intro command
      rw [meaning_eq_some_iff]
      constructor
      · rintro ⟨before, after, hs, ha⟩
        exact ⟨before, name, after, hs, rfl, fun entry he => keyBytes_inj.not.mpr (ha entry he)⟩
      · rintro ⟨before, key, after, hs, hk, ha⟩
        obtain rfl := keyBytes_inj.mp hk
        exact ⟨before, after, hs, fun entry he => keyBytes_inj.not.mp (ha entry he)⟩
    · simp only [meaning_eq_none_iff, ne_eq, keyBytes_inj]
  · intro find? other hf ho implicitProducts ts
    rw [hf.eq_meaning, ho.eq_meaning]
    exact ⟨rfl, rfl⟩

theorem tables_are_one_map_prefixes :
    let entries : Entries := [("a", .unary .sqrt), ("ab", .binary .add), ("", .binary .pow),
      ("a", .unary .negative), ("é", .binary .divide)]
    let listed : Entries := entries.foldl (fun t entry => (entry.1, entry.2) :: t) []
    (SortedTable.ofList entries).find? "a" = some (.unary .negative) ∧
      (FnvTable.ofList entries).find? "abc" = none ∧ (SortedTable.ofList entries).size = 4 ∧
      ∀ ts, Grammar.parseComplete ⟨(SortedTable.ofList entries).find?, true⟩ ts =
          Grammar.parseComplete ⟨(Trie.ofList entries).find?, true⟩ ts ∧
        Grammar.parseComplete ⟨(Trie.ofList entries).find?, true⟩ ts =
          Grammar.parseComplete ⟨fun name => listed.lookup name, true⟩ ts := by
  intro entries listed
  obtain ⟨hfind, _, ⟨hsize, _, _⟩, hparse⟩ := tables_are_one_map entries
  have hinsert : ∀ (t : Entries) (key : String) (command : Command) (name : String),
      ((key, command) :: t).lookup name =
        if keyBytes name = keyBytes key then some command else t.lookup name := by
    intro t key command name
    simp only [List.lookup_cons, keyBytes_inj]
    split <;> simp_all
  have hlisted : IsLookup entries fun name => listed.lookup name :=
    @IsLookup.filled entries Entries [] (fun t key command => (key, command) :: t)
      (fun t name => t.lookup name) (fun _ => rfl) hinsert
  refine ⟨?_, ?_, hsize, fun ts =>
    ⟨(hparse _ _ .sorted .trie true ts).2, (hparse _ _ .trie hlisted true ts).2⟩⟩
  · refine ((hfind _ .sorted "a").1 _).mpr
      ⟨entries.take 3, "a", [("é", .binary .divide)], rfl, rfl, ?_⟩
    simp [keyBytes_inj]
  · refine (hfind _ .fnv "abc").2.mpr ?_
    simp [entries, keyBytes_inj]

end MathMarkup.Command
