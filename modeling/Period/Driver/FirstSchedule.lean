import Period.Driver.Decoded
import Period.Driver.DefaultRun

/-!
# What the first default run executes

The pattern of the first default run lets up to twenty threads go one after the other. The target
loads as many rows as it has counted children, so threads behind those are not held back.
-/

namespace Period.Driver

open Aligned Runs RowMajor
open Period.Runtime Period.Scheduler Period.Interleaving
set_option autoImplicit false

/-- What the script writes before a default run. It leaves `N` and `M` as they are. -/
def writeDefault (N : Nat) (pattern : List (List Nat)) (m : Bytes.Mem) : Bytes.Mem :=
  setNumber (8 + 4 * 2) 4 ((N + 4294967295) % 4294967296) (memmovePatternList pattern m)

def placeOf (N t : Nat) : Nat := if N ≤ 20 ∧ t < N then t else 0

/-- The first thread and those without a row, in any order. -/
def unordered (N : Nat) (kpNum : List Nat) : List Nat :=
  (List.range kpNum.length).flatMap fun t => if t = 0 ∨ N ≤ t then List.replicate (kpsOf kpNum t) t else []

def inTurn (N : Nat) (kpNum : List Nat) : List Nat :=
  (List.range' 1 (N - 1)).flatMap fun t => List.replicate (kpsOf kpNum t) t

def everyHit (kpNum : List Nat) : List Nat :=
  (List.range kpNum.length).flatMap fun t => List.replicate (kpsOf kpNum t) t

section Rows
variable (N M z : Nat) (m : Bytes.Mem)

theorem zeroPattern_eq : zeroPattern N M z =
    (List.range (N + z)).map fun row => (List.range M).map fun i => if 1 ≤ i then 0 else if N ≤ 20 then row else 0 := by
  unfold zeroPattern
  split
  · rfl
  · simp only [ite_self, List.map_const', List.length_range]

theorem zeroPattern_uniform : Uniform M (zeroPattern N M z) := by
  rw [zeroPattern_eq]
  intro row hrow
  obtain ⟨t, _, rfl⟩ := List.mem_map.mp hrow
  rw [List.length_map, List.length_range]

theorem zeroPattern_entry {t k : Nat} (ht : t < N + z) (hk : k < M) :
    (zeroPattern N M z).flatten[t * M + k]? = some (if 1 ≤ k then 0 else if N ≤ 20 then t else 0) := by
  rw [flatten_getElem? (zeroPattern_uniform N M z) t hk, zeroPattern_eq, List.getElem?_map, List.getElem?_range ht]
  simp only [Option.map_some, Option.bind_some, List.getElem?_map, List.getElem?_range hk]

theorem writeDefault_N (pattern : List (List Nat)) :
    (schedInfo (writeDefault N pattern m)).N = (schedInfo m).N := by
  have hkpAddr : kpAddr = 220 := rfl
  change Bytes.read (writeDefault N pattern m) 8 4 = Bytes.read m 8 4
  unfold writeDefault
  rw [read_setNumber_frame _ _ _ _ (Or.inl (by omega)), read_unwritten _ _ (Or.inl (by omega))]

theorem writeDefault_M (pattern : List (List Nat)) :
    (schedInfo (writeDefault N pattern m)).M = (schedInfo m).M := by
  have hkpAddr : kpAddr = 220 := rfl
  change Bytes.read (writeDefault N pattern m) 12 4 = Bytes.read m 12 4
  unfold writeDefault
  rw [read_setNumber_frame _ _ _ _ (Or.inl (by omega)), read_unwritten _ _ (Or.inl (by omega))]

theorem writeDefault_kp (pattern : List (List Nat)) (i : Nat) :
    (schedInfo (writeDefault N pattern m)).kp i = overlay pattern.flatten (schedInfo m).kp i := by
  have hkpAddr : kpAddr = 220 := rfl
  have hkeep : (schedInfo (writeDefault N pattern m)).kp i = (schedInfo (memmovePatternList pattern m)).kp i := by
    rw [schedInfo_kp, schedInfo_kp]
    unfold writeDefault
    rw [read_setNumber_frame _ _ _ _ (Or.inr (by omega))]
  rw [hkeep, kp_memmovePatternList]

end Rows

section Periods
variable {dry : Reading} {z : Nat} {kpNum : List Nat} {m : Bytes.Mem} {loopUnwindedNum : Nat}
  (hacc : Accepts dry z) (hN : (schedInfo m).N = dry.A) (hM : (schedInfo m).M = dry.B)
  (hlen : kpNum.length = dry.A + z) (hfit : ∀ c ∈ kpNum, c ≤ dry.B)

/-- The rows as far as the target loads them, cut behind the first entry. -/
def firstRows (N n : Nat) : List (List Nat) := (List.range n).map fun t => [placeOf N t]

theorem sumTo_firstRows {N n t : Nat} (ht : t < n) (k : Nat) : sumTo ((firstRows N n).getD t []) k = placeOf N t := by
  rw [firstRows, List.getD_eq_getElem?_getD, List.getElem?_map, List.getElem?_range ht]
  simp [sumTo]

theorem emitted_firstRows {N n t : Nat} (ht : t < n) (j : Nat) :
    emitted kpNum (firstRows N n) j t = if placeOf N t = j then List.replicate (kpsOf kpNum t) t else [] := by
  rw [emitted, passedIn]
  simp only [sumTo_firstRows ht]
  split
  · next hplace => simp [hplace]
  · next hplace => simp [hplace]

def firstTarget (dry : Reading) (z loopUnwindedNum : Nat) (m : Bytes.Mem) : Target :=
  launch loopUnwindedNum (writeDefault dry.A (zeroPattern dry.A dry.B z) m)

include hacc hN hM in
theorem firstTarget_eq : firstTarget dry z loopUnwindedNum m =
    traceBegin dry.A dry.B loopUnwindedNum (overlay (zeroPattern dry.A dry.B z).flatten (schedInfo m).kp) := by
  have hthreads : SHARE_THREAD_NUM = 100 := rfl
  have hsize : SHARE_ARRAY_SIZE = 1990 := rfl
  have hA := hacc.threads
  have hB := hacc.points
  have hkp : (schedInfo (writeDefault dry.A (zeroPattern dry.A dry.B z) m)).kp =
      overlay (zeroPattern dry.A dry.B z).flatten (schedInfo m).kp := funext fun i => writeDefault_kp _ _ _ i
  rw [firstTarget, launch, writeDefault_N, writeDefault_M, hN, hM, toInt_of_lt (by omega), toInt_of_lt (by omega), hkp]

include hacc hN hM hlen hfit in
theorem dueIn_firstTarget {t k : Nat} (hk : k < kpsOf kpNum t) :
    dueIn (firstTarget dry z loopUnwindedNum m) t k = placeOf dry.A t := by
  have hsize : SHARE_ARRAY_SIZE = 1990 := rfl
  have hfull : shareMemoryArraySize = 3964 := rfl
  have hthreads : SHARE_THREAD_NUM = 100 := rfl
  have ht : t < dry.A + z := hlen ▸ kpsOf_pos_lt (Nat.zero_lt_of_lt hk)
  have hle := hacc.threads
  rw [firstTarget_eq hacc hN hM]
  have hentries : ∀ l ∈ List.range (k + 1), loadYield dry.A dry.B
      (overlay (zeroPattern dry.A dry.B z).flatten (schedInfo m).kp) ((t + 1 - 1) * dry.B + l) =
      [placeOf dry.A t].getD l 0 := by
    intro l hl
    have hlk : l < kpsOf kpNum t := Nat.lt_of_lt_of_le (List.mem_range.mp hl) hk
    have hlB : l < dry.B := Nat.lt_of_lt_of_le hlk (kpsOf_le hfit t)
    rw [Nat.add_sub_cancel, loadYield]
    by_cases htN : t < dry.A
    · have hslot : t * dry.B + l < (dry.A + z) * dry.B := (index_lt hlB).mpr ht
      have hroom := hacc.room
      rw [Nat.mul_comm] at hroom
      rw [if_pos ⟨(index_lt hlB).mpr htN, by omega⟩, overlay, zeroPattern_entry _ _ _ ht hlB]
      cases l with
      | zero =>
        have hsmall : (if dry.A ≤ 20 then t else 0) < 65536 := by split <;> omega
        simp only [placeOf, htN, and_true, List.getD_cons_zero]
        exact Nat.mod_eq_of_lt hsmall
      | succ l => simp
    · rw [if_neg fun h => htN ((index_lt hlB).mp h.1), placeOf, if_neg fun h => htN h.2]
      cases l <;> rfl
  change ((List.range (k + 1)).map fun l => loadYield dry.A dry.B
    (overlay (zeroPattern dry.A dry.B z).flatten (schedInfo m).kp) ((t + 1 - 1) * dry.B + l)).sum = _
  rw [List.map_congr_left hentries, sum_getD]
  simp

include hacc hN hM hlen hfit in
theorem loaded_firstTarget {R : Nat} (hR : ∀ t, t < dry.A + z → placeOf dry.A t < R) :
    Loaded kpNum (patternSched (dry.A + z) kpNum (firstRows dry.A (dry.A + z)) R)
      (firstTarget dry z loopUnwindedNum m) := by
  rw [firstTarget_eq hacc hN hM]
  refine loaded_of_due hlen (fun t ht k _ => ?_) (fresh_traceBegin ..) (kpsOf_le hfit) fun t k hk => ?_
  · rw [sumTo_firstRows ht]
    exact hR t ht
  · have ht : t < dry.A + z := hlen ▸ kpsOf_pos_lt (Nat.zero_lt_of_lt hk)
    rw [← firstTarget_eq hacc hN hM, dueIn_firstTarget hacc hN hM hlen hfit hk, sumTo_firstRows ht]

end Periods

/-! ## The words -/

section Words
variable {kpNum : List Nat} {N n : Nat}

theorem flatMap_only {α : Type} {j : Nat} (f : Nat → List α) (hj : j < n) :
    ((List.range n).flatMap fun t => if t = j then f t else []) = f j := by
  induction n with
  | zero => exact absurd hj (Nat.not_lt_zero j)
  | succ n ih =>
    rw [List.range_succ, List.flatMap_append, List.flatMap_singleton]
    rcases Nat.lt_or_eq_of_le (Nat.le_of_lt_succ hj) with hlt | rfl
    · rw [ih hlt, if_neg (Nat.ne_of_gt hlt), List.append_nil]
    · have hnone : ((List.range j).flatMap fun t => if t = j then f t else []) = [] := by
        rw [List.flatMap_eq_nil_iff]
        intro t ht
        exact if_neg (Nat.ne_of_lt (List.mem_range.mp ht))
      rw [hnone, if_pos rfl, List.nil_append]

theorem period_firstRows (j : Nat) : (List.range n).flatMap (emitted kpNum (firstRows N n) j) =
    (List.range n).flatMap fun t => if placeOf N t = j then List.replicate (kpsOf kpNum t) t else [] :=
  List.flatMap_congr fun _ ht => emitted_firstRows (List.mem_range.mp ht) j

theorem patternSched_few (hpos : 0 < N) (hfew : N ≤ 20) (hle : N ≤ kpNum.length) :
    patternSched kpNum.length kpNum (firstRows N kpNum.length) N =
      unordered N kpNum :: (List.range' 1 (N - 1)).map fun t => List.replicate (kpsOf kpNum t) t := by
  obtain ⟨N, rfl⟩ := Nat.exists_eq_add_one.mpr hpos
  rw [patternSched, List.range_eq_range' (n := N + 1), List.range'_succ, List.map_cons, Nat.zero_add, Nat.add_sub_cancel]
  congr 1
  · rw [period_firstRows, unordered]
    apply List.flatMap_congr
    intro t _
    have hplace : placeOf (N + 1) t = 0 ↔ t = 0 ∨ N + 1 ≤ t := by
      unfold placeOf
      split <;> omega
    simp only [hplace]
  · apply List.map_congr_left
    intro j hj
    obtain ⟨hone, hlt⟩ := List.mem_range'_1.mp hj
    have hplace : ∀ t, placeOf (N + 1) t = j ↔ t = j := by
      intro t
      unfold placeOf
      split <;> omega
    rw [period_firstRows]
    simp only [hplace]
    exact flatMap_only (fun t => List.replicate (kpsOf kpNum t) t) (by omega)

theorem patternSched_many (hmany : ¬ N ≤ 20) :
    patternSched kpNum.length kpNum (firstRows N kpNum.length) 1 = [everyHit kpNum] := by
  rw [patternSched, List.range_one, List.map_singleton, period_firstRows, everyHit]
  have hplace : ∀ t, placeOf N t = 0 := fun t => if_neg fun h => hmany h.1
  simp only [hplace, if_true]

theorem arranges_few {order : Schedule} {first : List Nat} : Arranges order (first ::
      (List.range' 1 (N - 1)).map fun t => List.replicate (kpsOf kpNum t) t) ↔
    ∃ first', first'.Perm first ∧
      order = first' :: (List.range' 1 (N - 1)).map fun t => List.replicate (kpsOf kpNum t) t := by
  constructor
  · intro h
    obtain ⟨first', rest, hperm, hrest, rfl⟩ := List.forall₂_cons_right_iff.mp h
    refine ⟨first', hperm, ?_⟩
    rw [eq_of_arrangement hrest]
    intro period hperiod x hx y hy
    obtain ⟨t, _, rfl⟩ := List.mem_map.mp hperiod
    rw [List.eq_of_mem_replicate hx, List.eq_of_mem_replicate hy]
  · rintro ⟨first', hperm, rfl⟩
    exact List.Forall₂.cons hperm (arrangement_refl _)

theorem loaded_executes_iff {sched : Schedule} {a : Target} {numTd : Nat} (h : Loaded kpNum sched a)
    (hnum : 0 < a.loopUnwindedNum) (htd : kpNum.length ≤ numTd) (word : List Nat) :
    (∃ acts, Meets Execution.step (Act.InRow numTd) acts (.start a) ∧
      Timely kpNum (run Execution.step acts (.start a)).log ∧
      (run Execution.step acts (.start a)).log.map threadOf = word) ↔
      ∃ order, Arranges order sched ∧ word = order.flatten := by
  constructor
  · rintro ⟨acts, hacts, htimely, rfl⟩
    exact arranges_of_timely h rfl hacts htimely
  · rintro ⟨order, horder, rfl⟩
    exact exists_timely h hnum htd horder

end Words

/-- The first default run takes up to twenty threads one after the other, but those behind the rows
that the target loads go along with the first one. More threads run in any order. -/
theorem firstRun_executes_iff {dry : Reading} {z loopUnwindedNum : Nat} {kpNum : List Nat} {m : Bytes.Mem}
    (hacc : Accepts dry z) (hN : (schedInfo m).N = dry.A) (hM : (schedInfo m).M = dry.B)
    (hlen : kpNum.length = dry.A + z) (hfit : ∀ c ∈ kpNum, c ≤ dry.B) (hpos : 0 < dry.A)
    (hnum : 0 < loopUnwindedNum) (word : List Nat) :
    (∃ acts, Meets Execution.step (Act.InRow (dry.A + z)) acts (.start (firstTarget dry z loopUnwindedNum m)) ∧
      Timely kpNum (run Execution.step acts (.start (firstTarget dry z loopUnwindedNum m))).log ∧
      (run Execution.step acts (.start (firstTarget dry z loopUnwindedNum m))).log.map threadOf = word) ↔
      if dry.A ≤ 20 then ∃ first, first.Perm (unordered dry.A kpNum) ∧ word = first ++ inTurn dry.A kpNum
      else word.Perm (everyHit kpNum) := by
  have hloops : 0 < (firstTarget dry z loopUnwindedNum m).loopUnwindedNum := hnum
  have hload := fun {R : Nat} => @loaded_firstTarget dry z kpNum m loopUnwindedNum hacc hN hM hlen hfit R
  rw [← hlen] at hload
  split
  · next hfew =>
    have hplaces : ∀ t, t < kpNum.length → placeOf dry.A t < dry.A := by
      intro t _
      unfold placeOf
      split <;> omega
    rw [loaded_executes_iff (hload hplaces) hloops (Nat.le_of_eq hlen), patternSched_few hpos hfew (by omega)]
    constructor
    · rintro ⟨order, horder, rfl⟩
      obtain ⟨first, hperm, rfl⟩ := arranges_few.mp horder
      exact ⟨first, hperm, by rw [List.flatten_cons, inTurn, List.flatMap_def]⟩
    · rintro ⟨first, hperm, rfl⟩
      exact ⟨_, arranges_few.mpr ⟨first, hperm, rfl⟩, by rw [List.flatten_cons, inTurn, List.flatMap_def]⟩
  · next hmany =>
    have hplaces : ∀ t, t < kpNum.length → placeOf dry.A t < 1 := by
      intro t _
      rw [placeOf, if_neg fun h => hmany h.1]
      exact Nat.one_pos
    rw [loaded_executes_iff (hload hplaces) hloops (Nat.le_of_eq hlen), patternSched_many hmany]
    constructor
    · rintro ⟨order, horder, rfl⟩
      obtain ⟨w, rest, hperm, hrest, rfl⟩ := List.forall₂_cons_right_iff.mp horder
      rw [List.forall₂_nil_right_iff.mp hrest, List.flatten_singleton]
      exact hperm
    · intro hperm
      exact ⟨[word], List.Forall₂.cons hperm List.Forall₂.nil, List.flatten_singleton.symm⟩

/-- The segment after a dry run with two threads and a key point each. -/
def afterDryRun : Bytes.Mem := writeTest 2 1 [] fun _ => 0

theorem firstRun_executes_iff_two :
    (∃ acts, Meets Execution.step (Act.InRow 2) acts (.start (firstTarget oneEach 0 4 afterDryRun)) ∧
      Timely [1, 1] (run Execution.step acts (.start (firstTarget oneEach 0 4 afterDryRun))).log ∧
      (run Execution.step acts (.start (firstTarget oneEach 0 4 afterDryRun))).log.map threadOf = [0, 1]) ↔
      if oneEach.A ≤ 20 then ∃ first, first.Perm (unordered 2 [1, 1]) ∧ [0, 1] = first ++ inTurn 2 [1, 1]
      else List.Perm [0, 1] (everyHit [1, 1]) := by
  have hacc : Accepts oneEach 0 :=
    ⟨zeroNum_dense dense_oneEach (by decide), by decide, by decide, by decide⟩
  exact firstRun_executes_iff hacc (writeTest_N ..) (writeTest_M ..) rfl (by decide) (by decide) (by decide) [0, 1]

end Period.Driver
