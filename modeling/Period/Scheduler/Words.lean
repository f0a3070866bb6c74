import Period.Foundation.Enumeration
import Period.Foundation.Search
import Period.Scheduler.Sched

/-!
# Thread words

A word names the thread of every period. `words` lists the legal words by their
first letter; `_init_pattern` returns its head and `_next_pattern` walks through it,
so both shortcuts of `_init_pattern` only save work.
-/

namespace Period.Scheduler

open Enumeration Search
set_option autoImplicit false

def initPattern (n : Nat) : (p : Nat) → (kps : List Nat) → (mustDo : Finset Nat) →
    (last : Option Nat) → Option (List Nat)
  | 0, _, _, _ => none
  | p + 1, kps, mustDo, last =>
    if p + 1 < mustDo.card then none
    else if p = 0 then
      if mustDo.card = 1 then
        mustDo.sort.head?.bind fun candidate =>
          if some candidate = last then none else some [candidate]
      else
        (List.range n).findSome? fun i =>
          if some i = last then none
          else if kpsOf kps i ≤ 0 then none
          else some [i]
    else if p + 1 = mustDo.card then
      mustDo.sort.findSome? fun i =>
        if some i = last then none else some (i :: mustDo.sort.erase i)
    else
      (List.range n).findSome? fun i =>
        if some i = last then none
        else if kpsOf kps i ≤ 0 then none
        else (initPattern n p (useUp kps i) (mustDo.erase i) (some i)).map (i :: ·)

def nextPattern (n : Nat) : (p : Nat) → (kps : List Nat) → (pattern : List Nat) →
    (mustDo : Finset Nat) → (last : Option Nat) → Option (List Nat)
  | 0, _, _, _, _ => none
  | _, _, [], _, _ => none
  | 1, kps, x :: _, mustDo, last =>
    if mustDo.card > 1 then none
    else if mustDo.card = 1 then
      mustDo.sort.head?.bind fun candidate =>
        if candidate = x ∨ some candidate = last then none else some [candidate]
    else
      (List.range' (x + 1) (n - (x + 1))).findSome? fun i =>
        if some i = last then none
        else if kpsOf kps i ≤ 0 then none
        else some [i]
  | p + 2, kps, x :: rest, mustDo, last =>
    match nextPattern n (p + 1) (useUp kps x) rest (mustDo.erase x) (some x) with
    | some sub => some (x :: sub)
    | none =>
      (List.range' (x + 1) (n - (x + 1))).findSome? fun i =>
        if some i = last then none
        else if kpsOf kps i ≤ 0 then none
        else (initPattern n (p + 1) (useUp kps i) (mustDo.erase i) (some i)).map (i :: ·)

/-- The threads that may come after `last`. -/
def candidates (n : Nat) (kps : List Nat) (last : Option Nat) : List Nat :=
  (List.range n).filter fun i => some i ≠ last ∧ 0 < kpsOf kps i

def words (n : Nat) : Nat → List Nat → Finset Nat → Option Nat → List (List Nat)
  | 0, _, mustDo, _ => if mustDo = ∅ then [[]] else []
  | p + 1, kps, mustDo, last =>
    (candidates n kps last).flatMap fun i =>
      (words n p (useUp kps i) (mustDo.erase i) (some i)).map (i :: ·)

structure LegalWord (n : Nat) (kps : List Nat) (mustDo : Finset Nat) (last : Option Nat)
    (w : List Nat) : Prop where
  first : ∀ x ∈ w.head?, some x ≠ last
  adjacent : w.IsChain (· ≠ ·)
  count_le : ∀ i, w.count i ≤ kpsOf kps i
  must : ∀ i ∈ mustDo, i ∈ w
  lt : ∀ i ∈ w, i < n

@[simp] theorem kpsOf_useUp (kps : List Nat) (i j : Nat) :
    kpsOf (useUp kps i) j = kpsOf kps j - if i = j then 1 else 0 := by
  simp only [kpsOf, useUp, List.getD_eq_getElem?_getD, List.getElem?_modify]
  cases kps[j]? <;> split <;> simp

@[simp] theorem mem_candidates {n : Nat} {kps : List Nat} {last : Option Nat} {i : Nat} :
    i ∈ candidates n kps last ↔ i < n ∧ some i ≠ last ∧ 0 < kpsOf kps i := by
  simp [candidates]

theorem candidates_nodup (n : Nat) (kps : List Nat) (last : Option Nat) :
    (candidates n kps last).Nodup := List.nodup_range.filter _

theorem isChain_cons_iff (x : Nat) (w : List Nat) :
    (x :: w).IsChain (· ≠ ·) ↔ (∀ y ∈ w.head?, some y ≠ some x) ∧ w.IsChain (· ≠ ·) := by
  cases w with
  | nil => simp
  | cons y w =>
    simp only [List.isChain_cons_cons, List.head?_cons, Option.mem_def, Option.some.injEq,
      forall_eq', ne_eq, eq_comm]

/-- What is left of the key points is enough for the rest of the word. -/
theorem count_le_useUp_iff {kps w : List Nat} {x : Nat} (hpos : 0 < kpsOf kps x) {i : Nat} :
    w.count i ≤ kpsOf (useUp kps x) i ↔ (x :: w).count i ≤ kpsOf kps i := by
  rw [kpsOf_useUp, List.count_cons]
  by_cases hxi : x = i
  · subst hxi
    simp only [beq_self_eq_true, if_true]
    omega
  · simp only [beq_iff_eq, hxi, if_false]
    omega

theorem count_lt_useUp_iff {kps w : List Nat} {x i : Nat} :
    w.count i < kpsOf (useUp kps x) i ↔ (x :: w).count i < kpsOf kps i := by
  rw [kpsOf_useUp, List.count_cons]
  by_cases hxi : x = i
  · simp only [hxi, beq_self_eq_true, if_true]
    omega
  · simp only [beq_iff_eq, hxi, if_false]
    omega

theorem forall_mem_erase_iff {mustDo : Finset Nat} {x : Nat} {w : List Nat} :
    (∀ i ∈ mustDo.erase x, i ∈ w) ↔ ∀ i ∈ mustDo, i ∈ x :: w := by
  constructor
  · intro h i hi
    by_cases hix : i = x
    · exact hix ▸ List.mem_cons_self
    · exact List.mem_cons_of_mem x (h i (Finset.mem_erase.mpr ⟨hix, hi⟩))
  · intro h i hi
    obtain ⟨hne, hi⟩ := Finset.mem_erase.mp hi
    exact (List.mem_cons.mp (h i hi)).resolve_left hne

theorem legalWord_cons_iff {n : Nat} {kps : List Nat} {mustDo : Finset Nat} {last : Option Nat}
    {x : Nat} {w : List Nat} :
    LegalWord n kps mustDo last (x :: w) ↔
      x ∈ candidates n kps last ∧ LegalWord n (useUp kps x) (mustDo.erase x) (some x) w := by
  rw [mem_candidates]
  constructor
  · intro h
    have hadj := (isChain_cons_iff x w).mp h.adjacent
    have hpos : 0 < kpsOf kps x := by
      have := h.count_le x
      rw [List.count_cons_self] at this
      omega
    refine ⟨⟨h.lt x List.mem_cons_self, h.first x rfl, hpos⟩, hadj.1, hadj.2, ?_, ?_, ?_⟩
    · exact fun i => (count_le_useUp_iff hpos).mpr (h.count_le i)
    · exact forall_mem_erase_iff.mpr h.must
    · exact fun i hi => h.lt i (List.mem_cons_of_mem x hi)
  · rintro ⟨⟨hx, hlast, hpos⟩, h⟩
    refine ⟨?_, (isChain_cons_iff x w).mpr ⟨h.first, h.adjacent⟩, ?_, ?_, ?_⟩
    · intro y hy
      obtain rfl : x = y := Option.some.inj hy
      exact hlast
    · exact fun i => (count_le_useUp_iff hpos).mp (h.count_le i)
    · exact forall_mem_erase_iff.mp h.must
    · intro i hi
      rcases List.mem_cons.mp hi with rfl | hi
      · exact hx
      · exact h.lt i hi

theorem mem_words {n p : Nat} {kps : List Nat} {mustDo : Finset Nat} {last : Option Nat}
    {w : List Nat} :
    w ∈ words n p kps mustDo last ↔ w.length = p ∧ LegalWord n kps mustDo last w := by
  induction p generalizing kps mustDo last w with
  | zero =>
    have hnil : LegalWord n kps mustDo last [] ↔ mustDo = ∅ :=
      ⟨fun h => Finset.eq_empty_of_forall_notMem fun i hi => by simpa using h.must i hi,
        fun h => ⟨by simp, by simp, by simp, by simp [h], by simp⟩⟩
    cases w with
    | nil => simp [words, hnil]
    | cons x w => simp [words]
  | succ p ih =>
    simp only [words, List.mem_flatMap, List.mem_map]
    constructor
    · rintro ⟨i, hi, v, hv, rfl⟩
      obtain ⟨hlen, hlegal⟩ := ih.mp hv
      exact ⟨by simp [hlen], legalWord_cons_iff.mpr ⟨hi, hlegal⟩⟩
    · rintro ⟨hlen, h⟩
      cases w with
      | nil => simp at hlen
      | cons x w =>
        obtain ⟨hx, hlegal⟩ := legalWord_cons_iff.mp h
        exact ⟨x, hx, w, ih.mpr ⟨by simpa using hlen, hlegal⟩, rfl⟩

/-- The threads of `mustDo` exist and have key points left. -/
def Feasible (n : Nat) (kps : List Nat) (mustDo : Finset Nat) : Prop :=
  ∀ i ∈ mustDo, i < n ∧ 0 < kpsOf kps i

theorem Feasible.erase {n : Nat} {kps : List Nat} {mustDo : Finset Nat}
    (h : Feasible n kps mustDo) (x : Nat) : Feasible n (useUp kps x) (mustDo.erase x) := by
  intro i hi
  obtain ⟨hne, hi⟩ := Finset.mem_erase.mp hi
  refine ⟨(h i hi).1, ?_⟩
  rw [kpsOf_useUp, if_neg (Ne.symm hne)]
  exact (h i hi).2

/-- The `continue` tests of both loops keep exactly the candidates. -/
theorem findSome?_candidates (n : Nat) (kps : List Nat) (last : Option Nat)
    (f : Nat → Option (List Nat)) :
    ((List.range n).findSome? fun i =>
      if some i = last then none else if kpsOf kps i ≤ 0 then none else f i) =
      (candidates n kps last).findSome? f := by
  rw [findSome?_filter_of_none (q := fun i => some i ≠ last ∧ 0 < kpsOf kps i)]
  · apply findSome?_congr_on
    intro i hi
    obtain ⟨_, hlast, hpos⟩ := mem_candidates.mp hi
    rw [if_neg hlast, if_neg (by omega)]
  · intro i _ hi
    by_cases hlast : some i = last
    · rw [if_pos hlast]
    · rw [if_neg hlast, if_pos]
      simp only [ne_eq, hlast, not_false_eq_true, true_and, decide_eq_false_iff_not] at hi
      omega

theorem sort_erase (s : Finset Nat) (i : Nat) : s.sort.erase i = (s.erase i).sort := by
  have hnodup : (s.sort.erase i).Nodup := (s.sort_nodup (· ≤ ·)).erase i
  have hset : (s.sort.erase i).toFinset = s.erase i := by
    ext j
    simp [(s.sort_nodup (· ≤ ·)).mem_erase_iff]
  rw [← hset]
  exact ((List.toFinset_sort (· ≤ ·) hnodup).mpr
    ((s.pairwise_sort (· ≤ ·)).sublist List.erase_sublist)).symm

end Period.Scheduler
