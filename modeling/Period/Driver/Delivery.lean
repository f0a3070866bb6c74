import Period.Driver.Launch
import Period.Runtime.Yields
import Period.Scheduler.YieldPattern

/-!
# Delivery of a schedule

The driver writes a pattern with one row for each thread of the scheduler, the target
loads `N` rows of it. Threads without key points are not counted in `N`, so the last rows
do not arrive when there are any.
-/

namespace Period.Driver

open RowMajor
open Period.Runtime Period.Scheduler
set_option autoImplicit false

def testTarget (n N M : Nat) (kpNum : List Nat) (sched : Schedule) (loopUnwindedNum : Nat)
    (m : Bytes.Mem) : Target :=
  launch loopUnwindedNum (writeTest N M (filledWithZero (getYieldPattern n kpNum sched) M) m)

/-- Up to each of its key points a child yields as often as periods of the schedule end. -/
def Delivered (sched : Schedule) (accesses : List Access) : Prop :=
  ∀ i k j, LiesIn sched i k j → ((yieldsOf (i + 1) accesses).take (k + 1)).sum = j

/-- The threads that get a row never wait longer than a `c_uint16` can say, the others
never have to wait. -/
structure Deliverable (N : Nat) (kpNum : List Nat) (sched : Schedule) : Prop where
  fits : ∀ i, i < N → ∀ k, k < kpsOf kpNum i → waits sched i k < 65536
  first : ∀ i k j, N ≤ i → LiesIn sched i k j → j = 0

section Delivery
variable {kpNum : List Nat} {N z M : Nat} {sched : Schedule} {loopUnwindedNum : Nat} {m : Bytes.Mem}
variable (hlen : kpNum.length = N + z) (hM : ∀ c ∈ kpNum, c ≤ M)
variable (hroom : M * (N + z) ≤ shareArraySize)

theorem kpsOf_le {kpNum : List Nat} {M : Nat} (hM : ∀ c ∈ kpNum, c ≤ M) (i : Nat) :
    kpsOf kpNum i ≤ M := by
  unfold kpsOf
  rw [List.getD_eq_getElem?_getD]
  cases h : kpNum[i]? with
  | none => exact Nat.zero_le M
  | some c => exact hM c (List.mem_of_getElem? h)

include hM in
theorem pattern_entry {i k : Nat} (hi : i < N + z) (hk : k < kpsOf kpNum i) :
    (filledWithZero (getYieldPattern (N + z) kpNum sched) M).flatten[i * M + k]? =
      some (waits sched i k) := by
  have hrows : ∀ row ∈ getYieldPattern (N + z) kpNum sched, row.length ≤ M := by
    rw [getYieldPattern_eq]
    intro row hrow
    obtain ⟨t, _, rfl⟩ := List.mem_map.mp hrow
    rw [yieldRow, List.length_map, List.length_range]
    exact kpsOf_le hM t
  have hrow : (yieldRow sched i (kpsOf kpNum i)).length = kpsOf kpNum i := by
    rw [yieldRow, List.length_map, List.length_range]
  have hget : (getYieldPattern (N + z) kpNum sched)[i]? = some (yieldRow sched i (kpsOf kpNum i)) := by
    rw [getYieldPattern_eq, List.getElem?_map, List.getElem?_range hi, Option.map_some]
  rw [flatten_getElem? (filledWithZero_uniform hrows) i (Nat.lt_of_lt_of_le hk (kpsOf_le hM i)),
    filledWithZero, List.getElem?_map, hget, Option.map_some, Option.bind_some,
    filledWithZero_entry M (by rw [hrow]; exact hk), yieldRow, List.getElem?_map,
    List.getElem?_range hk, Option.map_some]

include hlen hM hroom in
theorem testTarget_loads {i k : Nat} (hk : k < kpsOf kpNum i) :
    (testTarget (N + z) N M kpNum sched loopUnwindedNum m).numKp = M ∧
    (testTarget (N + z) N M kpNum sched loopUnwindedNum m).kpYield (i * M + k) =
      if i < N then waits sched i k % 65536 else 0 := by
  have hi : i < N + z := hlen ▸ kpsOf_pos_lt (Nat.zero_lt_of_lt hk)
  have hkM : k < M := Nat.lt_of_lt_of_le hk (kpsOf_le hM i)
  have hsize : shareArraySize = 1990 := rfl
  have hMle : M * 1 ≤ M * (N + z) := Nat.mul_le_mul_left M (by omega)
  have hnle : 1 * (N + z) ≤ M * (N + z) := Nat.mul_le_mul_right _ (by omega)
  have hN : toInt (N % 2 ^ 32) = N := by
    rw [Nat.mod_eq_of_lt (by omega), toInt_of_lt (by omega)]
  have hM32 : toInt (M % 2 ^ 32) = M := by
    rw [Nat.mod_eq_of_lt (by omega), toInt_of_lt (by omega)]
  unfold testTarget launch traceBegin
  rw [writeTest_N, writeTest_M, hN, hM32]
  refine ⟨rfl, ?_⟩
  have hslot : i * M + k < (N + z) * M := (index_lt hkM).mpr hi
  have hfull : shareMemoryArraySize = 3964 := rfl
  have hbound : i * M + k < shareMemoryArraySize := by
    rw [Nat.mul_comm (N + z)] at hslot
    omega
  show loadYield N M _ (i * M + k) = _
  unfold loadYield
  rcases Nat.lt_or_ge i N with hiN | hiN
  · rw [if_pos ⟨(index_lt hkM).mpr hiN, hbound⟩, if_pos hiN, writeTest_kp, overlay,
      pattern_entry hM hi hk]
  · rw [if_neg fun h => Nat.not_lt.mpr hiN ((index_lt hkM).mp h.1), if_neg (Nat.not_lt.mpr hiN)]

include hlen hM hroom in
/-- The yields of a child in a run in which the children hit their key points. -/
theorem yieldsOf_test {calls : List Call} {s : Target}
    (hs : s = testTarget (N + z) N M kpNum sched loopUnwindedNum m)
    (hcalls : Along (Call.Admissible (N + z)) calls s)
    (hhits : ∀ i, (yieldsOf (i + 1) (performAll calls s).2).length = kpsOf kpNum i) (i : Nat) :
    yieldsOf (i + 1) (performAll calls s).2 =
      if i < N then (yieldRow sched i (kpsOf kpNum i)).map (· % 65536)
      else List.replicate (kpsOf kpNum i) 0 := by
  have hfresh : Untouched s.numKp s.kpYield s := by
    subst hs
    exact untouched_traceBegin _ _ _ _
  have hzero : ∀ t, s.mapTid t = 0 := by
    subst hs
    exact fun _ => rfl
  have hloads : ∀ i k, k < kpsOf kpNum i → s.numKp = M ∧
      s.kpYield (i * M + k) = if i < N then waits sched i k % 65536 else 0 := by
    subst hs
    exact fun i k hk => testTarget_loads hlen hM hroom hk
  have hrows : ∀ t, t ≠ 0 → s.mapTid t + (yieldsOf t (performAll calls s).2).length ≤ s.numKp := by
    intro t ht
    obtain ⟨u, rfl⟩ := Nat.exists_eq_succ_of_ne_zero ht
    rw [hzero, hhits u]
    rcases Nat.eq_zero_or_pos (kpsOf kpNum u) with hnone | hpos
    · omega
    · rw [(hloads u 0 hpos).1, Nat.zero_add]
      exact kpsOf_le hM u
  have hrun := yieldsOf_performAll hfresh hcalls hrows (Nat.succ_ne_zero i)
  rw [hhits i, hzero, ← List.range_eq_range'] at hrun
  have hentries : ∀ k ∈ List.range (kpsOf kpNum i), s.kpYield ((i + 1 - 1) * s.numKp + k) =
      if i < N then waits sched i k % 65536 else 0 := by
    intro k hk
    obtain ⟨hnumKp, hentry⟩ := hloads i k (List.mem_range.mp hk)
    rw [Nat.add_sub_cancel, hnumKp, hentry]
  rw [hrun, List.map_congr_left hentries]
  split
  · rw [yieldRow, List.map_map]
    rfl
  · rw [List.map_const', List.length_range]

end Delivery

/-- When the schedule arrives, given the yields of the children. -/
theorem delivered_iff {N : Nat} {kpNum : List Nat} {sched : Schedule} {accesses : List Access}
    (hsched : ∀ t, sched.flatten.count t = kpsOf kpNum t)
    (hyields : ∀ i, yieldsOf (i + 1) accesses =
      if i < N then (yieldRow sched i (kpsOf kpNum i)).map (· % 65536)
      else List.replicate (kpsOf kpNum i) 0) :
    Delivered sched accesses ↔ Deliverable N kpNum sched := by
  constructor
  · intro h
    refine ⟨fun i hi => ?_, fun i k j hi hlies => ?_⟩
    · have hsame : (yieldRow sched i (kpsOf kpNum i)).map (· % 65536) =
          yieldRow sched i (kpsOf kpNum i) := by
        apply eq_of_prefix_sums (List.length_map _)
        intro k hk
        have hk : k < kpsOf kpNum i := by simpa [yieldRow] using hk
        obtain ⟨j, hj⟩ := exists_liesIn (by rw [hsched]; exact hk)
        have hsum := h i k j hj
        rw [hyields, if_pos hi] at hsum
        rw [hsum, yieldRow_take_sum hk, periodOf_eq_of_liesIn hj]
      intro k hk
      have hentry := congrArg (·[k]?) hsame
      simp only [yieldRow, List.map_map, List.getElem?_map, List.getElem?_range hk, Option.map_some,
        Function.comp_apply, Option.some.injEq] at hentry
      rw [← hentry]
      exact Nat.mod_lt _ (by decide)
    · have hsum := h i k j hlies
      rw [hyields, if_neg (Nat.not_lt.mpr hi), List.take_replicate, List.sum_replicate_nat] at hsum
      simpa using hsum.symm
  · intro h i k j hlies
    have hk : k < kpsOf kpNum i := by
      rw [← hsched]
      exact hlies.lt_count
    rw [hyields]
    rcases Nat.lt_or_ge i N with hi | hi
    · have hsame : (yieldRow sched i (kpsOf kpNum i)).map (· % 65536) =
          yieldRow sched i (kpsOf kpNum i) := by
        unfold yieldRow
        rw [List.map_map]
        apply List.map_congr_left
        intro k hk
        exact Nat.mod_eq_of_lt (h.fits i hi k (List.mem_range.mp hk))
      rw [if_pos hi, hsame, yieldRow_take_sum hk, periodOf_eq_of_liesIn hlies]
    · rw [if_neg (Nat.not_lt.mpr hi), h.first i k j hi hlies, List.take_replicate, List.sum_replicate_nat]
      exact Nat.mul_zero _

/-- A run of the target of a test follows the schedule of the test exactly when the schedule
is deliverable. -/
theorem delivery_iff {kpNum : List Nat} {N z M : Nat} {sched : Schedule} {calls : List Call}
    (loopUnwindedNum : Nat) (m : Bytes.Mem) (hlen : kpNum.length = N + z)
    (hM : ∀ c ∈ kpNum, c ≤ M) (hroom : M * (N + z) ≤ shareArraySize)
    (hsched : ∀ t, sched.flatten.count t = kpsOf kpNum t)
    (hcalls : Along (Call.Admissible (N + z)) calls
      (testTarget (N + z) N M kpNum sched loopUnwindedNum m))
    (hhits : ∀ i, (yieldsOf (i + 1)
      (performAll calls (testTarget (N + z) N M kpNum sched loopUnwindedNum m)).2).length =
        kpsOf kpNum i) :
    Delivered sched (performAll calls (testTarget (N + z) N M kpNum sched loopUnwindedNum m)).2 ↔
      Deliverable N kpNum sched :=
  delivered_iff hsched (yieldsOf_test hlen hM hroom rfl hcalls hhits)

def twoCalls (t u : Nat) : List Call :=
  [.pthreadCall t, .pthreadCall u, .locString t 7, .locString u 8]

theorem delivery_iff_two :
    Delivered [[0], [1]]
      (performAll (twoCalls 1 2) (testTarget 2 2 1 [1, 1] [[0], [1]] 4 fun _ => 0)).2 ↔
      Deliverable 2 [1, 1] [[0], [1]] := by
  have haccesses : (performAll (twoCalls 1 2)
      (testTarget 2 2 1 [1, 1] [[0], [1]] 4 fun _ => 0)).2 = [⟨1, 0, 0⟩, ⟨2, 1, 1⟩] := by decide
  refine delivery_iff (N := 2) (z := 0) (M := 1) 4 (fun _ => 0) rfl (by decide) (by decide) ?_
    ⟨⟨by decide, by decide⟩, ⟨by decide, by decide⟩, Or.inr rfl, Or.inr rfl, trivial⟩ ?_
  · intro t
    match t with
    | 0 => rfl
    | 1 => rfl
    | t + 2 => simp [kpsOf]
  · intro i
    rw [haccesses]
    match i with
    | 0 => rfl
    | 1 => rfl
    | i + 2 => simp [yieldsOf, kpsOf]

/-- The first child hits no key point: the row of the third one is not loaded, and it does not
wait for the second. -/
theorem delivery_fails :
    Along (Call.Admissible 3) (twoCalls 2 3) (testTarget 3 2 1 [0, 1, 1] [[1], [2]] 4 fun _ => 0) ∧
    (∀ i, (yieldsOf (i + 1) (performAll (twoCalls 2 3)
      (testTarget 3 2 1 [0, 1, 1] [[1], [2]] 4 fun _ => 0)).2).length = kpsOf [0, 1, 1] i) ∧
    ¬ Delivered [[1], [2]]
      (performAll (twoCalls 2 3) (testTarget 3 2 1 [0, 1, 1] [[1], [2]] 4 fun _ => 0)).2 := by
  have haccesses : (performAll (twoCalls 2 3)
      (testTarget 3 2 1 [0, 1, 1] [[1], [2]] 4 fun _ => 0)).2 = [⟨2, 1, 0⟩, ⟨3, 2, 0⟩] := by decide
  refine ⟨⟨⟨by decide, by decide⟩, ⟨by decide, by decide⟩, Or.inr rfl, Or.inr rfl, trivial⟩, ?_, ?_⟩
  · intro i
    rw [haccesses]
    match i with
    | 0 => rfl
    | 1 => rfl
    | 2 => rfl
    | i + 3 => simp [yieldsOf, kpsOf]
  · intro h
    have hsum := h 2 0 1 ⟨by decide, by decide⟩
    rw [haccesses] at hsum
    exact absurd hsum (by decide)

end Period.Driver
