import Period.Foundation.Rearrangement
import Period.Foundation.Search
import Mathlib.Data.Finset.Card
import Mathlib.Data.Finset.Sort
import Mathlib.Data.List.TakeWhile

/-!
# Chosen threads

`SBPMESched._next_chosen` goes through the non-empty sets of threads as increasing
lists, smaller sets first.
-/

namespace Period.Scheduler

open Enumeration Rearrangement Search
set_option autoImplicit false

/-- The `for` loop of `SBPMESched._next_chosen`. -/
def bumpChosen (n : Nat) (chosen : List Nat) : Option (List Nat) :=
  (List.range chosen.length).reverse.findSome? fun i =>
    let curr := chosen.getD i 0
    if curr + chosen.length < n + i then
      some (chosen.take i ++ List.range' (curr + 1) (chosen.length - i))
    else none

def nextChosen (n maxNum : Nat) (chosen : List Nat) : Option (List Nat) :=
  match bumpChosen n chosen with
  | some next => some next
  | none =>
    let num := chosen.length + 1
    if num > maxNum ∨ num > n then none else some (List.range num)

/-- The increasing lists of `k` threads from `lo` on. -/
def combos (n : Nat) : Nat → Nat → List (List Nat)
  | 0, _ => [[]]
  | k + 1, lo => (List.range' lo (n - lo)).flatMap fun c => (combos n k (c + 1)).map (c :: ·)

theorem mem_combos {n k lo : Nat} {c : List Nat} :
    c ∈ combos n k lo ↔ c.length = k ∧ c.Pairwise (· < ·) ∧ ∀ x ∈ c, lo ≤ x ∧ x < n := by
  induction k generalizing lo c with
  | zero =>
    simp only [combos, List.mem_singleton, List.length_eq_zero_iff]
    exact ⟨fun h => by simp [h], fun h => h.1⟩
  | succ k ih =>
    simp only [combos, List.mem_flatMap, List.mem_map, List.mem_range'_1]
    constructor
    · rintro ⟨x, hx, d, hd, rfl⟩
      obtain ⟨hlen, hlt, hbound⟩ := ih.mp hd
      refine ⟨by simp [hlen], List.pairwise_cons.mpr ⟨fun y hy => (hbound y hy).1, hlt⟩, ?_⟩
      intro y hy
      rcases List.mem_cons.mp hy with rfl | hy
      · omega
      · have := hbound y hy
        omega
    · rintro ⟨hlen, hlt, hbound⟩
      cases c with
      | nil => simp at hlen
      | cons x d =>
        obtain ⟨hx, hd⟩ := List.pairwise_cons.mp hlt
        have hxb := hbound x List.mem_cons_self
        refine ⟨x, by omega, d, ih.mpr ⟨by simpa using hlen, hd, ?_⟩, rfl⟩
        exact fun y hy => ⟨hx y hy, (hbound y (List.mem_cons_of_mem x hy)).2⟩

theorem combos_head (n k lo : Nat) :
    (combos n k lo).head? = if lo + k ≤ n ∨ k = 0 then some (List.range' lo k) else none := by
  induction k generalizing lo with
  | zero => simp [combos]
  | succ k ih =>
    simp only [combos, List.head?_flatMap, List.head?_map, ih]
    by_cases hfit : lo + (k + 1) ≤ n
    · have hlo : n - lo = (n - lo - 1) + 1 := by omega
      rw [if_pos (Or.inl hfit), hlo, List.range'_succ, List.findSome?_cons,
        if_pos (Or.inl (by omega)), List.range'_succ]
      rfl
    · rw [if_neg (by omega), List.findSome?_eq_none_iff]
      intro c hc
      have := List.mem_range'_1.mp hc
      rw [if_neg (by omega)]
      rfl

theorem bumpChosen_cons (n c : Nat) (cs : List Nat) :
    bumpChosen n (c :: cs) = ((bumpChosen n cs).map (c :: ·)).or
      (if c + (cs.length + 1) < n then some (List.range' (c + 1) (cs.length + 1)) else none) := by
  rw [bumpChosen, List.length_cons, List.range_succ_eq_map, List.reverse_cons,
    List.findSome?_append, ← List.map_reverse, List.findSome?_map, bumpChosen, List.map_findSome?]
  congr 1
  · apply findSome?_congr_on
    intro i _
    simp only [Function.comp_apply, Nat.succ_eq_add_one, List.getD_cons_succ, List.take_succ_cons,
      Nat.add_sub_add_right, List.cons_append]
    by_cases h : cs.getD i 0 + cs.length < n + i
    · rw [if_pos h, if_pos (by omega)]
      rfl
    · rw [if_neg h, if_neg (by omega)]
      rfl
  · simp

theorem bumpChosen_walks (n k lo : Nat) : WalksTo (bumpChosen n) (combos n k lo) none := by
  induction k generalizing lo with
  | zero => exact ⟨rfl, trivial⟩
  | succ k ih =>
    rw [combos]
    apply walksTo_flatMap
    intro pre c post hsplit
    apply walksTo_map (bumpChosen n) _ _ _ _ (ih (c + 1))
    intro cs hcs
    have hlen := (mem_combos.mp hcs).1
    obtain ⟨hlo, hlt, hpost⟩ := range'_after hsplit
    have hrest : lo + (n - lo) - (c + 1) = n - (c + 1) := by omega
    rw [hrest] at hpost
    have hhead := combos_head n (k + 1) (c + 1)
    rw [combos, ← hpost] at hhead
    rw [bumpChosen_cons, Option.or_none, hhead, hlen]
    congr 1
    by_cases h : c + (k + 1) < n
    · rw [if_pos h, if_pos (Or.inl (by omega))]
    · rw [if_neg h, if_neg (by omega)]

def chosenLists (n maxNum : Nat) : List (List Nat) :=
  (List.range' 1 (min n maxNum)).flatMap fun k => combos n k 0

theorem toFinset_subset_range {n : Nat} {c : List Nat} (hbound : ∀ x ∈ c, x < n) :
    c.toFinset ⊆ Finset.range n :=
  fun x hx => Finset.mem_range.mpr (hbound x (List.mem_toFinset.mp hx))

theorem mem_chosenLists {n maxNum : Nat} {c : List Nat} :
    c ∈ chosenLists n maxNum ↔
      c ≠ [] ∧ c.length ≤ maxNum ∧ c.Pairwise (· < ·) ∧ ∀ x ∈ c, x < n := by
  simp only [chosenLists, List.mem_flatMap, List.mem_range'_1, mem_combos]
  constructor
  · rintro ⟨k, hk, hlen, hlt, hbound⟩
    refine ⟨?_, by omega, hlt, fun x hx => (hbound x hx).2⟩
    rintro rfl
    simp at hlen
    omega
  · rintro ⟨hne, hlen, hlt, hbound⟩
    have hpos := List.length_pos_iff.mpr hne
    have hn : c.length ≤ n := by
      have := Finset.card_le_card (toFinset_subset_range hbound)
      rwa [List.toFinset_card_of_nodup (hlt.imp (fun h => Nat.ne_of_lt h)), Finset.card_range] at this
    exact ⟨c.length, by omega, rfl, hlt, fun x hx => ⟨Nat.zero_le x, hbound x hx⟩⟩

theorem sizes_head (n maxNum k : Nat) :
    ((List.range' k (1 + min n maxNum - k)).flatMap fun k => combos n k 0).head? =
      if k > maxNum ∨ k > n then none else some (List.range k) := by
  by_cases hfit : k > maxNum ∨ k > n
  · have hzero : 1 + min n maxNum - k = 0 := by omega
    rw [if_pos hfit, hzero]
    rfl
  · have hsucc : 1 + min n maxNum - k = (min n maxNum - k) + 1 := by omega
    rw [if_neg hfit, hsucc, List.range'_succ, List.flatMap_cons, List.head?_append, combos_head,
      if_pos (Or.inl (by omega)), List.range_eq_range']
    rfl

theorem nextChosen_nil (n maxNum : Nat) : nextChosen n maxNum [] = (chosenLists n maxNum).head? := by
  have h := sizes_head n maxNum 1
  rw [Nat.add_sub_cancel_left] at h
  exact h.symm

theorem nextChosen_walks (n maxNum : Nat) :
    WalksTo (nextChosen n maxNum) (chosenLists n maxNum) none := by
  apply walksTo_flatMap
  intro pre k post hsplit
  obtain ⟨hlo, hlt, hpost⟩ := range'_after hsplit
  rw [Option.or_none, hpost, sizes_head n maxNum (k + 1)]
  have hmap := @walksTo_map _ _ (nextChosen n maxNum) (bumpChosen n) id (combos n k 0)
    (if k + 1 > maxNum ∨ k + 1 > n then none else some (List.range (k + 1)))
  rw [List.map_id] at hmap
  apply hmap _ (bumpChosen_walks n k 0)
  intro c hc
  rw [id, nextChosen, (mem_combos.mp hc).1]
  cases bumpChosen n c <;> rfl

/-! ## The order of the sets -/

/-- Smaller sets come first, sets of one size in lexicographic order. -/
def Precedes (c d : List Nat) : Prop := c.length < d.length ∨ c.length = d.length ∧ c < d

theorem combos_sorted (n k lo : Nat) : (combos n k lo).Pairwise (· < ·) := by
  induction k generalizing lo with
  | zero => exact List.pairwise_singleton _ _
  | succ k ih =>
    rw [combos]
    exact flatMap_cons_sorted List.pairwise_lt_range' fun c _ => ih (c + 1)

theorem chosenLists_sorted (n maxNum : Nat) : (chosenLists n maxNum).Pairwise Precedes := by
  rw [chosenLists, List.pairwise_flatMap]
  constructor
  · intro k _
    apply (combos_sorted n k 0).imp_of_mem
    intro c d hc hd hlt
    exact Or.inr ⟨(mem_combos.mp hc).1.trans (mem_combos.mp hd).1.symm, hlt⟩
  · have hrange : (List.range' 1 (min n maxNum)).Pairwise (· < ·) := List.pairwise_lt_range'
    apply hrange.imp
    intro k k' hlt c hc d hd
    refine Or.inl ?_
    rwa [(mem_combos.mp hc).1, (mem_combos.mp hd).1]

theorem Precedes.asymm {c d : List Nat} (h : Precedes c d) : ¬ Precedes d c := by
  rintro (hlen | ⟨hlen, hlt⟩) <;> rcases h with hlen' | ⟨hlen', hlt'⟩
  · omega
  · omega
  · omega
  · exact List.lt_asymm hlt hlt'

theorem mem_before_of_precedes {n maxNum : Nat} {c d : List Nat} {pre post : List (List Nat)}
    (hsets : chosenLists n maxNum = pre ++ c :: post) (hd : d ∈ chosenLists n maxNum)
    (h : Precedes d c) : d ∈ pre := by
  have hsorted := chosenLists_sorted n maxNum
  rw [hsets] at hd hsorted
  rcases List.mem_append.mp hd with hd | hd
  · exact hd
  · exfalso
    rcases List.mem_cons.mp hd with rfl | hd
    · exact h.asymm h
    · exact h.asymm ((List.pairwise_cons.mp (List.pairwise_append.mp hsorted).2.1).1 d hd)

theorem chosenLists_nodup (n maxNum : Nat) : (chosenLists n maxNum).Nodup := by
  apply (chosenLists_sorted n maxNum).imp
  rintro c _ h rfl
  exact h.asymm h

theorem chosenLists_ext {n maxNum : Nat} {c d : List Nat} (hc : c ∈ chosenLists n maxNum)
    (hd : d ∈ chosenLists n maxNum) (h : ∀ i, i ∈ c ↔ i ∈ d) : c = d := by
  have hcs := (mem_chosenLists.mp hc).2.2.1
  have hds := (mem_chosenLists.mp hd).2.2.1
  refine List.Perm.eq_of_pairwise (fun a b _ _ (hab : a < b) (hba : b < a) => by omega) hcs hds ?_
  exact (List.perm_ext_iff_of_nodup (hcs.imp Nat.ne_of_lt) (hds.imp Nat.ne_of_lt)).mpr h

theorem nextChosen_walks_nil (n maxNum : Nat) :
    WalksTo (nextChosen n maxNum) ([] :: chosenLists n maxNum) none := by
  refine ⟨?_, nextChosen_walks n maxNum⟩
  rw [nextChosen_nil, Option.or_none]

theorem toFinset_injOn_chosenLists {n maxNum : Nat} {c d : List Nat} (hc : c ∈ chosenLists n maxNum)
    (hd : d ∈ chosenLists n maxNum) (h : c.toFinset = d.toFinset) : c = d := by
  apply chosenLists_ext hc hd
  intro i
  rw [← List.mem_toFinset, h, List.mem_toFinset]

theorem mem_map_toFinset_chosenLists {n maxNum : Nat} {s : Finset Nat} :
    s ∈ (chosenLists n maxNum).map List.toFinset ↔
      s.Nonempty ∧ s ⊆ Finset.range n ∧ s.card ≤ min n maxNum := by
  rw [List.mem_map]
  constructor
  · rintro ⟨c, hc, rfl⟩
    obtain ⟨hne, hlen, hlt, hbound⟩ := mem_chosenLists.mp hc
    have hsub := toFinset_subset_range hbound
    have hcard := List.toFinset_card_of_nodup (hlt.imp Nat.ne_of_lt)
    refine ⟨List.toFinset_nonempty_iff c |>.mpr hne, hsub, Nat.le_min.mpr ⟨?_, ?_⟩⟩
    · have hle := Finset.card_le_card hsub
      rwa [Finset.card_range] at hle
    · rwa [hcard]
  · rintro ⟨hne, hsub, hcard⟩
    refine ⟨s.sort, mem_chosenLists.mpr ⟨?_, ?_, ?_, ?_⟩, Finset.sort_toFinset s (· ≤ ·)⟩
    · intro hnil
      have hlen := s.length_sort (· ≤ ·)
      rw [hnil, List.length_nil] at hlen
      exact absurd hne.card_pos (Nat.not_lt.mpr (Nat.le_of_eq hlen.symm))
    · rw [s.length_sort (· ≤ ·)]
      exact hcard.trans (Nat.min_le_right n maxNum)
    · exact (Finset.sortedLT_sort s).pairwise
    · exact fun x hx => Finset.mem_range.mp (hsub ((Finset.mem_sort _).mp hx))

/-- From the empty list, `_next_chosen` yields every set once, in order, and then stops. -/
theorem chosen_exact (n maxNum : Nat) : ∃ rounds out,
    (∀ fuel, rounds ≤ fuel → walk (nextChosen n maxNum) fuel [] = some ([] :: out)) ∧
    (∀ c ∈ out, c.Pairwise (· < ·)) ∧
    (∀ s : Finset Nat, (out.map List.toFinset).count s =
      if s.Nonempty ∧ s ⊆ Finset.range n ∧ s.card ≤ min n maxNum then 1 else 0) ∧
    out.Pairwise Precedes := by
  refine ⟨(chosenLists n maxNum).length + 1, chosenLists n maxNum, fun fuel hfuel => ?_, fun c hc => ?_,
    fun s => ?_, chosenLists_sorted n maxNum⟩
  · exact walk_eq (nextChosen_walks_nil n maxNum) hfuel
  · exact (mem_chosenLists.mp hc).2.2.1
  · have hnodup : ((chosenLists n maxNum).map List.toFinset).Nodup :=
      (chosenLists_nodup n maxNum).map_on fun c hc d hd h => toFinset_injOn_chosenLists hc hd h
    rw [hnodup.count]
    simp only [mem_map_toFinset_chosenLists]

example : walk (nextChosen 3 2) 7 [] = some [[], [0], [1], [2], [0, 1], [0, 2], [1, 2]] := by decide

/-- Thread `m` in the place of a larger thread `x`. -/
def swapIn (c : List Nat) (x m : Nat) : List Nat :=
  c.takeWhile (· < m) ++ m :: (c.dropWhile (· < m)).erase x

section Swap
variable {n maxNum x m : Nat} {c : List Nat} (hc : c ∈ chosenLists n maxNum) (hx : x ∈ c)
  (hm : m ∉ c) (hlt : m < x)
include hc hx hm hlt

omit hc in
/-- The threads below `m`, and the others with `x` among them. -/
theorem swap_split : ∃ lows b highs, c.takeWhile (· < m) = lows ∧ c.dropWhile (· < m) = b :: highs ∧
    c = lows ++ b :: highs ∧ (∀ y ∈ lows, y < m) ∧ m < b ∧ x ∈ b :: highs := by
  have hsplit := List.takeWhile_append_dropWhile (p := (· < m)) (l := c)
  have hlows : ∀ y ∈ c.takeWhile (· < m), y < m := fun y hy => by
    simpa using List.mem_takeWhile_imp hy
  have hxhigh : x ∈ c.dropWhile (· < m) := by
    rw [← hsplit] at hx
    rcases List.mem_append.mp hx with hx | hx
    · have := hlows x hx
      omega
    · exact hx
  cases hdrop : c.dropWhile (· < m) with
  | nil => simp [hdrop] at hxhigh
  | cons b highs =>
    rw [hdrop] at hxhigh hsplit
    refine ⟨_, b, highs, rfl, rfl, hsplit.symm, hlows, ?_, hxhigh⟩
    have hb : ¬ b < m := by
      have := List.head?_dropWhile_not (· < m) c
      rw [hdrop] at this
      simpa using this
    have hne : m ≠ b := by
      rintro rfl
      exact hm (by rw [← hsplit]; simp)
    omega

theorem swapIn_toFinset : (swapIn c x m).toFinset = insert m (c.toFinset.erase x) := by
  obtain ⟨lows, b, highs, htake, hdrop, hsplit, hlows, hb, hxhigh⟩ := swap_split hx hm hlt
  have hnodup : c.Nodup := (mem_chosenLists.mp hc).2.2.1.imp Nat.ne_of_lt
  have hhigh : (b :: highs).Nodup := by
    rw [hsplit] at hnodup
    exact (List.nodup_append.mp hnodup).2.1
  rw [swapIn, htake, hdrop]
  ext y
  have hmem : y ∈ c ↔ y ∈ lows ∨ y ∈ b :: highs := by rw [hsplit, List.mem_append]
  simp only [List.mem_toFinset, List.mem_append, List.mem_cons (b := m), hhigh.mem_erase_iff,
    Finset.mem_insert, Finset.mem_erase, hmem]
  constructor
  · rintro (hy | rfl | ⟨hne, hy⟩)
    · have := hlows y hy
      exact Or.inr ⟨by omega, Or.inl hy⟩
    · exact Or.inl rfl
    · exact Or.inr ⟨hne, Or.inr hy⟩
  · rintro (rfl | ⟨hne, hy | hy⟩)
    · exact Or.inr (Or.inl rfl)
    · exact Or.inl hy
    · exact Or.inr (Or.inr ⟨hne, hy⟩)

omit hc in
theorem swapIn_length : (swapIn c x m).length = c.length := by
  obtain ⟨lows, b, highs, htake, hdrop, hsplit, hlows, hb, hxhigh⟩ := swap_split hx hm hlt
  rw [swapIn, htake, hdrop, hsplit]
  simp only [List.length_append, List.length_cons, List.length_erase_of_mem hxhigh,
    Nat.add_sub_cancel]

omit hc in
theorem swapIn_precedes : Precedes (swapIn c x m) c := by
  have hlen := swapIn_length hx hm hlt
  obtain ⟨lows, b, highs, htake, hdrop, hsplit, hlows, hb, hxhigh⟩ := swap_split hx hm hlt
  refine Or.inr ⟨hlen, ?_⟩
  rw [swapIn, htake, hdrop, hsplit]
  exact List.append_left_lt (List.cons_lt_cons_iff.mpr (Or.inl hb))

theorem swapIn_chosen (hmn : m < n) : swapIn c x m ∈ chosenLists n maxNum := by
  have hlen := swapIn_length hx hm hlt
  obtain ⟨hne, hmax, hsorted, hbound⟩ := mem_chosenLists.mp hc
  obtain ⟨lows, b, highs, htake, hdrop, hsplit, hlows, hb, hxhigh⟩ := swap_split hx hm hlt
  refine mem_chosenLists.mpr ⟨?_, by omega, ?_, ?_⟩
  · rw [swapIn]
    simp
  · rw [swapIn, htake, hdrop]
    rw [hsplit, List.pairwise_append, List.pairwise_cons] at hsorted
    have hsub : List.Sublist ((b :: highs).erase x) (b :: highs) := List.erase_sublist
    have hbig : ∀ y ∈ b :: highs, m < y := by
      intro y hy
      rcases List.mem_cons.mp hy with rfl | hy
      · exact hb
      · exact Nat.lt_trans hb (hsorted.2.1.1 y hy)
    refine List.pairwise_append.mpr ⟨hsorted.1, List.pairwise_cons.mpr ⟨?_, ?_⟩, ?_⟩
    · exact fun y hy => hbig y (hsub.subset hy)
    · exact (List.pairwise_cons.mpr hsorted.2.1).sublist hsub
    · intro y hy z hz
      rcases List.mem_cons.mp hz with rfl | hz
      · exact hlows y hy
      · exact hsorted.2.2 y hy z (hsub.subset hz)
  · intro y hy
    have hy : y ∈ insert m (c.toFinset.erase x) :=
      swapIn_toFinset hc hx hm hlt ▸ List.mem_toFinset.mpr hy
    rcases Finset.mem_insert.mp hy with rfl | hy
    · exact hmn
    · exact hbound y (List.mem_toFinset.mp (Finset.mem_of_mem_erase hy))

end Swap

end Period.Scheduler
