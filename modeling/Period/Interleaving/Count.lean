import Mathlib.Data.Nat.Choose.Multinomial
import Period.Foundation.RearrangementCount
import Period.Interleaving.Iterator

/-!
# The number of interleavings

`interleaving_count` divides a factorial by small numbers, one after another. What is left is
the number of rearrangements, so no division rounds in the end.
-/

namespace Period.Interleaving

open Rearrangement
open Period.Scheduler
set_option autoImplicit false

/-- `M[i] if i < len(M) else M[-1]`. -/
def entryOf (M : List Nat) (i : Nat) : Except Halt Nat :=
  if i < M.length then .ok (kpsOf M i) else M.getLast?.elim (throw .indexError) pure

def interleavingCount (n : Nat) (M : List Nat) : Except Halt Nat := do
  let totalM ← (List.range n).foldlM (fun totalM i => return totalM + (← entryOf M i)) 0
  let rlt := (List.range' 1 totalM).foldl (fun rlt i => rlt * i) 1
  (List.range n).foldlM (fun rlt i => do
    let m ← entryOf M i
    return (List.range' 1 m).foldl (fun rlt j => rlt / j) rlt) rlt

theorem entryOf_eq {M : List Nat} (hM : M ≠ []) (i : Nat) :
    entryOf M i = .ok (M.getD i (M.getLast hM)) := by
  rw [entryOf]
  split
  · next hi => rw [kpsOf, List.getD_eq_getElem _ _ hi, List.getD_eq_getElem _ _ hi]
  · next hi =>
    rw [List.getLast?_eq_some_getLast hM, List.getD_eq_default _ _ (Nat.le_of_not_lt hi)]
    rfl

theorem foldlM_eq_foldl {β γ : Type} {f : γ → β → Except Halt γ} {g : γ → β → γ}
    (h : ∀ c x, f c x = .ok (g c x)) (xs : List β) (c : γ) : xs.foldlM f c = .ok (xs.foldl g c) := by
  induction xs generalizing c with
  | nil => rfl
  | cons x xs ih =>
    rw [List.foldlM_cons, h]
    exact ih (g c x)

theorem foldl_add_range (m : Nat → Nat) (n : Nat) :
    (List.range n).foldl (fun t i => t + m i) 0 = ∑ i ∈ Finset.range n, m i := by
  induction n with
  | zero => rfl
  | succ n ih => rw [List.range_succ, List.foldl_append, ih, Finset.sum_range_succ]; rfl

theorem foldl_mul_range' (t : Nat) : (List.range' 1 t).foldl (fun r i => r * i) 1 = t.factorial := by
  induction t with
  | zero => rfl
  | succ t ih =>
    rw [List.range'_concat, List.foldl_append, ih, List.foldl_cons, List.foldl_nil, Nat.one_mul,
      Nat.factorial_succ, Nat.mul_comm, Nat.add_comm]

/-- Dividing by all numbers up to `m` in turn divides by the factorial. -/
theorem foldl_div_range' (r m : Nat) :
    (List.range' 1 m).foldl (fun r j => r / j) r = r / m.factorial := by
  induction m with
  | zero => exact (Nat.div_one r).symm
  | succ m ih =>
    rw [List.range'_concat, List.foldl_append, ih, List.foldl_cons, List.foldl_nil,
      Nat.div_div_eq_div_mul, Nat.factorial_succ, Nat.mul_comm, Nat.one_mul, Nat.add_comm]

theorem foldl_div_range (m : Nat → Nat) (r n : Nat) :
    (List.range n).foldl (fun r i => (List.range' 1 (m i)).foldl (fun r j => r / j) r) r =
      r / ∏ i ∈ Finset.range n, (m i).factorial := by
  induction n with
  | zero => exact (Nat.div_one r).symm
  | succ n ih =>
    rw [List.range_succ, List.foldl_append, ih, List.foldl_cons, List.foldl_nil, foldl_div_range',
      Nat.div_div_eq_div_mul, Finset.prod_range_succ]

theorem interleavingCount_eq {M : List Nat} (hM : M ≠ []) (n : Nat) :
    interleavingCount n M =
      .ok (Nat.multinomial (Finset.range n) fun i => M.getD i (M.getLast hM)) := by
  have htotal := @foldlM_eq_foldl Nat Nat (fun t i => return t + (← entryOf M i))
    (fun t i => t + M.getD i (M.getLast hM)) (fun t i => by rw [entryOf_eq hM]; rfl) (List.range n) 0
  have hdivide := foldlM_eq_foldl
    (f := fun r i => do
      let m ← entryOf M i
      return (List.range' 1 m).foldl (fun rlt j => rlt / j) r)
    (g := fun r i => (List.range' 1 (M.getD i (M.getLast hM))).foldl (fun rlt j => rlt / j) r)
    (fun r i => by rw [entryOf_eq hM]; rfl) (List.range n)
  rw [interleavingCount, htotal]
  simp only [bind, Except.bind] at hdivide ⊢
  rw [hdivide, foldl_div_range fun i => M.getD i (M.getLast hM), foldl_mul_range', foldl_add_range]
  rfl

theorem length_rearrangements_restOf (n : Nat) (M : List Nat) :
    (rearrangements (restOf n M [])).length = Nat.multinomial (Finset.range n) (kpsOf M) := by
  have hcount : ∀ i ∈ Finset.range n, (restOf n M []).count i = kpsOf M i := by
    intro i hi
    rw [perm_restOf_iff.mp (List.Perm.refl _) i, if_pos (Finset.mem_range.mp hi), List.count_nil, Nat.sub_zero]
  have hmem : ∀ i ∈ restOf n M [], i ∈ Finset.range n := by
    intro i hi
    by_contra hout
    have hpos := List.count_pos_iff.mpr hi
    rw [perm_restOf_iff.mp (List.Perm.refl _) i, if_neg fun h => hout (Finset.mem_range.mpr h)] at hpos
    exact Nat.lt_irrefl 0 hpos
  have hlen : (restOf n M []).length = ∑ i ∈ Finset.range n, kpsOf M i := by
    rw [← Finset.sum_congr rfl hcount]
    exact (sum_count_eq_length hmem).symm
  have hmul := length_rearrangements_mul_prod hmem
  rw [Finset.prod_congr rfl fun i hi => congrArg Nat.factorial (hcount i hi), hlen,
    ← Nat.multinomial_spec, Nat.mul_comm] at hmul
  exact Nat.eq_of_mul_eq_mul_left (Finset.prod_pos fun i _ => Nat.factorial_pos _) hmul

/-- The count is the number of interleavings the iterator yields, and the divisions lose nothing. -/
theorem interleavingCount_eq_length {M : List Nat} (hM : M ≠ []) (n : Nat) :
    ∃ count out rounds, interleavingCount n M = .ok count ∧
      (∀ fuel, rounds ≤ fuel → interleavingIter fuel n M [] = .ok out) ∧ out.length = count ∧
      count = Nat.multinomial (Finset.range n) (fun i => M.getD i (M.getLast hM)) ∧
      count * ∏ i ∈ Finset.range n, (M.getD i (M.getLast hM)).factorial =
        (∑ i ∈ Finset.range n, M.getD i (M.getLast hM)).factorial := by
  obtain ⟨M', hpad, hn, hkps⟩ := @padKps_ok n M hM
  refine ⟨_, _, _, interleavingCount_eq hM n, fun fuel hfuel => interleavingIter_eq hpad hn hfuel, ?_, rfl, ?_⟩
  · have hpre : getPrefix ([] : List Nat) = [] := rfl
    rw [List.length_map, hpre, length_rearrangements_restOf]
    exact Nat.multinomial_congr fun i hi => hkps i (Finset.mem_range.mp hi)
  · rw [Nat.mul_comm]
    exact Nat.multinomial_spec _ _

/-- Three threads, the last two with one key point each. -/
theorem interleavingCount_eq_length_three :
    ∃ count out rounds, interleavingCount 3 [2, 1] = .ok count ∧
      (∀ fuel, rounds ≤ fuel → interleavingIter fuel 3 [2, 1] [] = .ok out) ∧ out.length = count ∧
      count = Nat.multinomial (Finset.range 3) (fun i => [2, 1].getD i ([2, 1].getLast (by decide))) ∧
      count * ∏ i ∈ Finset.range 3, ([2, 1].getD i ([2, 1].getLast (by decide))).factorial =
        (∑ i ∈ Finset.range 3, [2, 1].getD i ([2, 1].getLast (by decide))).factorial :=
  interleavingCount_eq_length (by decide) 3

example : interleavingCount 3 [2, 1] = .ok 12 := by decide

end Period.Interleaving
