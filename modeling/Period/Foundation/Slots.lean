import Mathlib.Algebra.Order.BigOperators.Group.List
import Period.Foundation.RowMajor
import Period.Foundation.Search

/-!
# Selected slots of a row-major array

The slots of an array with rows of length `m` that satisfy `q`, row by row, and the values
put into them.
-/

namespace Period.RowMajor

open Search
set_option autoImplicit false

universe u v w
variable {α : Type u} {β : Type v} {γ : Type w}

def setSlot (m x : Nat) (a : α) (rows : List (List α)) : List (List α) :=
  rows.modify (x / m) fun row => row.set (x - x / m * m) a

theorem setSlot_length (m x : Nat) (a : α) (rows : List (List α)) :
    (setSlot m x a rows).length = rows.length := by
  rw [setSlot, List.length_modify]

theorem setSlot_uniform {m x : Nat} {a : α} {rows : List (List α)} (h : Uniform m rows) :
    Uniform m (setSlot m x a rows) := by
  intro row hrow
  obtain ⟨t, ht⟩ := List.mem_iff_getElem?.mp hrow
  rw [setSlot, List.getElem?_modify] at ht
  obtain ⟨old, hold, rfl⟩ := Option.map_eq_some_iff.mp ht
  have hlen := h old (List.mem_of_getElem? hold)
  split
  · rw [List.length_set]
    exact hlen
  · exact hlen

section Entries
variable [Zero α]

def entry (rows : List (List α)) (t k : Nat) : α := (rows.getD t []).getD k 0

theorem entry_setSlot {m x t k : Nat} {a : α} {rows : List (List α)} (h : Uniform m rows)
    (ht : t < rows.length) (hk : k < m) :
    entry (setSlot m x a rows) t k = if x = t * m + k then a else entry rows t k := by
  have hrow : rows[t]? = some rows[t] := List.getElem?_eq_getElem ht
  have hlen : rows[t].length = m := h _ (List.getElem_mem ht)
  have hsplit : x = x / m * m + (x - x / m * m) := by
    have := Nat.div_mul_le_self x m
    omega
  simp only [entry, setSlot, List.getD_eq_getElem?_getD, List.getElem?_modify, hrow]
  by_cases hx : x = t * m + k
  · have hdiv : x / m = t := by
      rw [hx]
      exact index_div hk t
    have hcol : x - t * m = k := by
      rw [hx]
      exact Nat.add_sub_cancel_left _ _
    rw [if_pos hx, hdiv]
    simp only [if_true, Option.map_eq_map, Option.map_some, Option.getD_some]
    rw [hcol, List.getElem?_set_self (by rw [hlen]; exact hk)]
    rfl
  · rw [if_neg hx]
    by_cases hdiv : x / m = t
    · have hcol : x - x / m * m ≠ k := by
        intro hcol
        rw [hcol, hdiv] at hsplit
        exact hx hsplit
      simp only [if_pos hdiv, Option.map_eq_map, Option.map_some, Option.getD_some]
      rw [List.getElem?_set_ne hcol]
    · simp only [if_neg hdiv, Option.map_eq_map, Option.map_some, Option.getD_some]

theorem entry_replicate (n m t k : Nat) :
    entry (List.replicate n (List.replicate m (0 : α))) t k = 0 := by
  simp only [entry, List.getD_eq_getElem?_getD, List.getElem?_replicate]
  split
  · rw [Option.getD_some, List.getElem?_replicate]
    split <;> rfl
  · rfl

theorem entry_outside {n m t k : Nat} {rows : List (List α)} (h : Uniform m rows)
    (hlen : rows.length = n) (hout : ¬ (t < n ∧ k < m)) : entry rows t k = 0 := by
  unfold entry
  by_cases ht : t < rows.length
  · have hm : (rows.getD t []).length = m := by
      rw [List.getD_eq_getElem _ _ ht]
      exact h _ (List.getElem_mem ht)
    apply List.getD_eq_default
    omega
  · rw [List.getD_eq_default rows [] (by omega)]
    rfl

end Entries

section Rows
variable (q : Nat → Bool) (m : Nat)

def slotsOf (t : Nat) : List Nat := ((List.range m).filter fun k => q (t * m + k)).map (t * m + ·)

/-- How many selected slots come before entry `k` of row `t`. -/
def rank (t k : Nat) : Nat := (List.range k).countP fun d => q (t * m + d)

theorem slotsOf_length (t : Nat) : (slotsOf q m t).length = rank q m t m := by
  rw [slotsOf, List.length_map, ← List.countP_eq_length_filter, rank]

theorem filter_range_mul (n : Nat) :
    (List.range (n * m)).filter q = (List.range n).flatMap (slotsOf q m) := by
  induction n with
  | zero => rw [Nat.zero_mul]; rfl
  | succ n ih =>
    rw [Nat.succ_mul, List.range_add, List.filter_append, ih, List.range_succ, List.flatMap_append,
      List.flatMap_singleton, List.filter_map]
    rfl

variable {q m}

theorem mem_slotsOf {t x : Nat} : x ∈ slotsOf q m t ↔ ∃ k, k < m ∧ q (t * m + k) = true ∧ x = t * m + k := by
  simp only [slotsOf, List.mem_map, List.mem_filter, List.mem_range, and_assoc, eq_comm]

theorem rank_succ (t k : Nat) : rank q m t (k + 1) = rank q m t k + if q (t * m + k) then 1 else 0 := by
  rw [rank, List.range_succ, List.countP_append, List.countP_singleton]
  rfl

theorem rank_mono (t : Nat) {k l : Nat} (h : k ≤ l) : rank q m t k ≤ rank q m t l := by
  obtain ⟨d, rfl⟩ := Nat.exists_eq_add_of_le h
  rw [rank, rank, List.range_add, List.countP_append]
  exact Nat.le_add_right _ _

theorem slotsOf_getElem? {t k : Nat} (hk : k < m) (hq : q (t * m + k) = true) :
    (slotsOf q m t)[rank q m t k]? = some (t * m + k) := by
  have hget : (List.range m)[k]? = some k := List.getElem?_range hk
  have hslot := getElem?_filter_countP (q := fun k => q (t * m + k)) hget hq
  rw [List.take_range, Nat.min_eq_left (Nat.le_of_lt hk)] at hslot
  rw [slotsOf, List.getElem?_map, rank, hslot]
  rfl

theorem countP_row {n t : Nat} (ht : t < n) :
    ((List.range n).flatMap (slotsOf q m)).countP (fun x => x / m = t) = rank q m t m := by
  have hrow : ∀ u, (slotsOf q m u).countP (fun x => x / m = t) = if u = t then rank q m t m else 0 := by
    intro u
    have hdiv : ∀ x ∈ slotsOf q m u, x / m = u := by
      intro x hx
      obtain ⟨k, hk, _, rfl⟩ := mem_slotsOf.mp hx
      exact index_div hk u
    split
    · next hu =>
      subst hu
      rw [← slotsOf_length, List.countP_eq_length]
      exact fun x hx => decide_eq_true (hdiv x hx)
    · next hu =>
      rw [List.countP_eq_zero]
      intro x hx h
      exact hu ((hdiv x hx).symm.trans (of_decide_eq_true h))
  induction n with
  | zero => cases ht
  | succ n ih =>
    rw [List.range_succ, List.flatMap_append, List.countP_append, List.flatMap_singleton, hrow]
    by_cases hn : n = t
    · have hbefore : ((List.range n).flatMap (slotsOf q m)).countP (fun x => x / m = t) = 0 := by
        rw [List.countP_flatMap, List.sum_eq_zero]
        intro c hc
        obtain ⟨u, hu, rfl⟩ := List.mem_map.mp hc
        have := List.mem_range.mp hu
        rw [Function.comp_apply, hrow, if_neg (by omega)]
      rw [hbefore, if_pos hn, Nat.zero_add]
    · rw [ih (by omega), if_neg hn, Nat.add_zero]

/-- The values of the selected slots of a row, added up. -/
theorem sum_ranks (g : Nat → Nat) (t k : Nat) :
    ((List.range k).map fun d => if q (t * m + d) then g (rank q m t d) else 0).sum =
      ((List.range (rank q m t k)).map g).sum := by
  induction k with
  | zero => rfl
  | succ k ih =>
    rw [List.range_succ, List.map_append, List.sum_append, ih, rank_succ, List.map_singleton,
      List.sum_singleton]
    split
    · rw [List.range_succ, List.map_append, List.sum_append, List.map_singleton, List.sum_singleton]
    · rfl

end Rows

/-- Blocks of the same length are paired block by block. -/
theorem zip_flatMap {f : γ → List α} {g : γ → List β} {l : List γ}
    (h : ∀ c ∈ l, (f c).length = (g c).length) (rest : List β) :
    (l.flatMap f).zip (l.flatMap g ++ rest) = l.flatMap fun c => (f c).zip (g c) := by
  induction l with
  | nil => rfl
  | cons c l ih =>
    rw [List.flatMap_cons, List.flatMap_cons, List.flatMap_cons, List.append_assoc,
      List.zip_append (h c List.mem_cons_self), ih fun d hd => h d (List.mem_cons_of_mem c hd)]

end Period.RowMajor
