import Period.Driver.Delivery
import Period.Runtime.Order
import Period.Scheduler.Arrangement

/-!
# What the test of a schedule executes

The pattern of a schedule puts every key point into its period. What a run executes is then
the schedule, with the key points of each period in some order.
-/

namespace Period.Driver

open Aligned Runs RowMajor
open Period.Runtime Period.Scheduler
set_option autoImplicit false

def threadOf (hit : Hit) : Nat := hit.access.schedTid - 1

/-- Every child has passed all its key points, and no period was too short for it. -/
structure Timely (kpNum : List Nat) (log : List Hit) : Prop where
  complete : ∀ i, (passedBy (i + 1) log).length = kpsOf kpNum i
  prompt : ∀ hit ∈ log, hit.missed = 0

/-- The period in which key point `k` of thread `i` is due, from the loaded counts. -/
def dueIn (a : Target) (i k : Nat) : Nat :=
  ((List.range (k + 1)).map fun l => a.kpYield ((i + 1 - 1) * a.numKp + l)).sum

theorem countP_between (a b n : Nat) :
    (List.range n).countP (fun k => a ≤ k ∧ k < b) = min n b - a := by
  induction n with
  | zero => simp
  | succ n ih =>
    rw [List.range_succ, List.countP_append, List.countP_singleton, ih]
    by_cases hn : a ≤ n ∧ n < b
    · rw [if_pos (by simpa using hn)]
      omega
    · rw [if_neg (by simpa using hn)]
      omega

theorem take_succ_count (sched : Schedule) (t j : Nat) :
    (sched.take (j + 1)).flatten.count t = (sched.take j).flatten.count t + (sched.getD j []).count t := by
  rw [List.take_add_one, List.flatten_append, List.count_append, List.getD_eq_getElem?_getD]
  cases sched[j]? <;> simp

/-- How many key points of a thread have their period there. -/
theorem countP_periodOf (sched : Schedule) (t j : Nat) :
    (List.range (sched.flatten.count t)).countP (fun k => periodOf sched t k = j) =
      (sched.getD j []).count t := by
  have hlies : ∀ k ∈ List.range (sched.flatten.count t), decide (periodOf sched t k = j) = true ↔
      decide ((sched.take j).flatten.count t ≤ k ∧ k < (sched.take (j + 1)).flatten.count t) = true := by
    intro k hk
    obtain ⟨j', hj'⟩ := exists_liesIn (List.mem_range.mp hk)
    rw [decide_eq_true_iff, decide_eq_true_iff]
    constructor
    · rintro rfl
      rwa [← periodOf_eq_of_liesIn hj'] at hj'
    · exact periodOf_eq_of_liesIn
  have hle : (sched.take (j + 1)).flatten.count t ≤ sched.flatten.count t := by
    have := passed_mono sched t (Nat.le_max_left (j + 1) sched.length)
    rwa [List.take_of_length_le (Nat.le_max_right (j + 1) sched.length)] at this
  rw [List.countP_congr hlies, countP_between, Nat.min_eq_right hle, take_succ_count,
    Nat.add_sub_cancel_left]

/-- The counts of a fresh target put every key point into its period of the schedule. -/
structure Loaded (kpNum : List Nat) (sched : Schedule) (a : Target) : Prop where
  fresh : Fresh a
  complete : ∀ t, sched.flatten.count t = kpsOf kpNum t
  due : ∀ i k, k < kpsOf kpNum i → dueIn a i k = periodOf sched i k
  fits : ∀ i, kpsOf kpNum i ≤ a.numKp

theorem loaded_testTarget {kpNum : List Nat} {N z M : Nat} {sched : Schedule} (loopUnwindedNum : Nat)
    (m : Bytes.Mem) (hlen : kpNum.length = N + z) (hM : ∀ c ∈ kpNum, c ≤ M)
    (hroom : M * (N + z) ≤ shareArraySize) (hsched : ∀ t, sched.flatten.count t = kpsOf kpNum t)
    (hdeliver : Deliverable N kpNum sched) :
    Loaded kpNum sched (testTarget (N + z) N M kpNum sched loopUnwindedNum m) := by
  have hloads := fun {i k : Nat} (hk : k < kpsOf kpNum i) =>
    @testTarget_loads kpNum N z M sched loopUnwindedNum m hlen hM hroom i k hk
  refine ⟨fresh_traceBegin .., hsched, fun i k hk => ?_, fun i => ?_⟩
  · have hentries : ∀ l ∈ List.range (k + 1),
        (testTarget (N + z) N M kpNum sched loopUnwindedNum m).kpYield ((i + 1 - 1) *
          (testTarget (N + z) N M kpNum sched loopUnwindedNum m).numKp + l) =
        if i < N then waits sched i l % 65536 else 0 := by
      intro l hl
      have hl : l < kpsOf kpNum i := Nat.lt_of_lt_of_le (List.mem_range.mp hl) hk
      obtain ⟨hnumKp, hentry⟩ := hloads hl
      rw [Nat.add_sub_cancel, hnumKp, hentry]
    rw [dueIn, List.map_congr_left hentries]
    rcases Nat.lt_or_ge i N with hi | hi
    · have hfits : ∀ l ∈ List.range (k + 1), (if i < N then waits sched i l % 65536 else 0) =
          waits sched i l := by
        intro l hl
        rw [if_pos hi]
        exact Nat.mod_eq_of_lt (hdeliver.fits i hi l (Nat.lt_of_lt_of_le (List.mem_range.mp hl) hk))
      rw [List.map_congr_left hfits, ← yieldRow_take_sum hk, yieldRow, ← List.map_take, List.take_range,
        Nat.min_eq_left hk]
    · obtain ⟨j, hj⟩ := exists_liesIn (t := i) (by rw [hsched]; exact hk)
      rw [periodOf_eq_of_liesIn hj, hdeliver.first i k j hi hj]
      simp [Nat.not_lt.mpr hi]
  · rcases Nat.eq_zero_or_pos (kpsOf kpNum i) with h0 | hpos
    · omega
    · rw [(hloads hpos).1]
      exact kpsOf_le hM i

section Executed
variable {kpNum : List Nat} {sched : Schedule} {a : Target} (h : Loaded kpNum sched a)
variable {numTd : Nat} {acts : List Act} {s : Execution} (hs : s = .start a)
  (hacts : Meets Execution.step (Act.InRow numTd) acts s)
  (htimely : Timely kpNum (run Execution.step acts s).log)

include h hs hacts htimely

/-- A key point that comes in time is passed in its period of the schedule. -/
theorem liesIn_of_timely {i k : Nat} {hit : Hit}
    (hhit : (passedBy (i + 1) (run Execution.step acts s).log)[k]? = some hit) :
    LiesIn sched i k hit.period := by
  have hk : k < kpsOf kpNum i := by
    rw [← htimely.complete i]
    exact (List.getElem?_eq_some_iff.mp hhit).1
  obtain ⟨j, hj⟩ := exists_liesIn (t := i) (by rw [h.complete]; exact hk)
  have hprompt := htimely.prompt hit (mem_passedBy.mp (List.mem_of_getElem? hhit)).1
  rw [period_of_child h.fresh hs hacts (Nat.succ_ne_zero i) hhit, hprompt, Nat.add_zero, ← dueIn,
    h.due i k hk, periodOf_eq_of_liesIn hj]
  exact hj

theorem periods_of_child (i : Nat) :
    (passedBy (i + 1) (run Execution.step acts s).log).map (·.period) =
      (List.range (kpsOf kpNum i)).map (periodOf sched i) := by
  rw [← htimely.complete i]
  apply List.ext_getElem?
  intro k
  rw [List.getElem?_map, List.getElem?_map]
  cases hk : (passedBy (i + 1) (run Execution.step acts s).log)[k]? with
  | none =>
    rw [List.getElem?_eq_none (by simpa using hk)]
    rfl
  | some hit =>
    have hlies := liesIn_of_timely h hs hacts htimely hk
    rw [List.getElem?_range (List.getElem?_eq_some_iff.mp hk).1, Option.map_some, Option.map_some,
      periodOf_eq_of_liesIn hlies]

/-- A period of the run holds as many key points of a thread as the period of the schedule. -/
theorem period_count (i j : Nat) :
    (((run Execution.step acts s).log.filter fun hit => hit.period = j).map threadOf).count i =
      (sched.getD j []).count i := by
  have hchild : (((run Execution.step acts s).log.filter fun hit => hit.period = j).map threadOf).count i =
      ((passedBy (i + 1) (run Execution.step acts s).log).map (·.period)).count j := by
    unfold passedBy
    rw [List.count, List.count, List.countP_map, List.countP_map, List.countP_filter, List.countP_filter]
    apply List.countP_congr
    intro hit hmem
    have := passed_by_child h.fresh hs hacts hmem
    simp [threadOf]
    omega
  rw [hchild, periods_of_child h hs hacts htimely, List.count, List.countP_map, ← h.complete,
    ← countP_periodOf]
  rfl

/-- The run goes through the schedule period by period. -/
theorem arranges_of_timely :
    ∃ order, Arranges order sched ∧ (run Execution.step acts s).log.map threadOf = order.flatten := by
  have hpaced : Paced (run Execution.step acts s) := hs ▸ paced_run acts a
  refine exists_arrangement hpaced.sorted (fun hit hmem => ?_) fun j period hj => ?_
  · by_contra hge
    have hcount := period_count h hs hacts htimely (threadOf hit) hit.period
    rw [List.getD_eq_default _ _ (Nat.not_lt.mp hge), List.count_nil, List.count_eq_zero] at hcount
    exact hcount (List.mem_map.mpr ⟨hit, List.mem_filter.mpr ⟨hmem, by simp⟩, rfl⟩)
  · rw [List.perm_iff_count]
    intro i
    rw [period_count h hs hacts htimely, List.getD_eq_getElem?_getD, hj, Option.getD_some]

end Executed

end Period.Driver
