import Mathlib.Data.List.Sort
import Period.Foundation.Rearrangement
import Period.Interleaving.Encoders

/-!
# The yield pattern of a schedule

`get_yield_pattern` walks over periods, `yield_pattern_gen` over key points. On serialised
schedules the rows are the same, and `yp_to_inter` reads the periods back.
-/

namespace Period.Interleaving

open Rearrangement
open Period.Scheduler
set_option autoImplicit false

/-- A sorted period lists its key points thread by thread. -/
theorem mergeSort_eq_flatMap {n : Nat} {period : List Nat} (hlt : ∀ t ∈ period, t < n) :
    period.mergeSort (· ≤ ·) = (List.range n).flatMap fun t => List.replicate (period.count t) t := by
  have hsorted : (period.mergeSort (· ≤ ·)).Pairwise (· ≤ ·) := List.pairwise_mergeSort' _ period
  apply List.Perm.eq_of_pairwise' hsorted
  · exact pairwise_flatMap_replicate _ n
  · apply (List.mergeSort_perm _ _).trans
    rw [List.perm_iff_count]
    intro t
    rw [count_flatMap_replicate]
    split
    · rfl
    · next hge => exact List.count_eq_zero.mpr fun ht => hge (hlt t ht)

theorem sumTo_yieldRow {sched : Schedule} {t len k : Nat} (hk : k < len) :
    sumTo (yieldRow sched t len) k = periodOf sched t k := yieldRow_take_sum hk

theorem passedIn_yieldRow {sched : Schedule} {t j : Nat} (hj : j < sched.length) :
    passedIn (yieldRow sched t (sched.flatten.count t)) (sched.flatten.count t) j =
      sched[j].count t := by
  have hsplit : (sched.take (j + 1)).flatten.count t =
      (sched.take j).flatten.count t + sched[j].count t := by
    rw [List.take_succ_eq_append_getElem hj, List.flatten_append, List.flatten_singleton,
      List.count_append]
  have hle : (sched.take (j + 1)).flatten.count t ≤ sched.flatten.count t := by
    have hmono := passed_mono sched t (Nat.succ_le_of_lt hj)
    rwa [List.take_length] at hmono
  have hperiod : ∀ k, k < sched.flatten.count t →
      ∃ i, sumTo (yieldRow sched t (sched.flatten.count t)) k = i ∧ LiesIn sched t k i := by
    intro k hk
    obtain ⟨i, hi⟩ := exists_liesIn hk
    exact ⟨i, (sumTo_yieldRow hk).trans (periodOf_eq_of_liesIn hi), hi⟩
  have hgrow : (sched.take j).flatten.count t ≤ (sched.take (j + 1)).flatten.count t := by omega
  rw [passedIn, countP_range_between hgrow hle]
  · omega
  · intro k hk
    obtain ⟨i, hsum, hi⟩ := hperiod k (by omega)
    apply decide_eq_false
    rintro rfl
    exact Nat.lt_irrefl _ (Nat.lt_of_lt_of_le hk (hsum ▸ hi.1))
  · intro k hlo hhi
    have hi : LiesIn sched t k j := ⟨hlo, hhi⟩
    exact decide_eq_true ((sumTo_yieldRow hi.lt_count).trans (periodOf_eq_of_liesIn hi))
  · intro k hlo hhi
    obtain ⟨i, hsum, hi⟩ := hperiod k hhi
    apply decide_eq_false
    rintro rfl
    exact Nat.lt_irrefl _ (Nat.lt_of_lt_of_le (hsum ▸ hi.2) hlo)

section Pattern
variable {n : Nat} {kps : List Nat} {sched : Schedule} (hn : n ≤ kps.length)
  (hlt : ∀ period ∈ sched, ∀ t ∈ period, t < n)
  (hcount : ∀ i, i < n → sched.flatten.count i = kpsOf kps i)

theorem getYieldPattern_getElem? {i : Nat} (hi : i < n) :
    (getYieldPattern n kps sched)[i]? = some (yieldRow sched i (kpsOf kps i)) := by
  rw [getYieldPattern_eq, List.getElem?_map, List.getElem?_range hi, Option.map_some]

theorem padPattern_getYieldPattern :
    padPattern n kps (getYieldPattern n kps sched) = getYieldPattern n kps sched := by
  have hlen : (getYieldPattern n kps sched).length = n := by
    rw [getYieldPattern_eq, List.length_map, List.length_range]
  apply List.ext_getElem?
  intro i
  rw [padPattern, hlen, Nat.sub_self, List.replicate_zero, List.append_nil, List.getElem?_mapIdx]
  rcases Nat.lt_or_ge i n with hi | hi
  · rw [getYieldPattern_getElem? hi, Option.map_some, if_pos hi, yieldRow, List.length_map,
      List.length_range, Nat.sub_self, List.replicate_zero, List.append_nil]
  · rw [List.getElem?_eq_none (by omega)]
    rfl

include hn hlt hcount

theorem ypToInter_getYieldPattern {fuel : Nat} (hfuel : sched.length < fuel) :
    ypToInter fuel n kps (getYieldPattern n kps sched) = .ok (normSched sched).flatten := by
  have hpad : padKps n kps = .ok kps := if_neg (Nat.not_lt.mpr hn)
  have hrow : ∀ t, t < n → (getYieldPattern n kps sched).getD t [] =
      yieldRow sched t (sched.flatten.count t) := by
    intro t ht
    rw [List.getD_eq_getElem?_getD, getYieldPattern_getElem? ht, Option.getD_some, hcount t ht]
  rw [ypToInter_eq hpad hfuel, padPattern_getYieldPattern]
  · congr 1
    rw [interUpTo, normSched, List.flatMap_def]
    congr 1
    apply List.ext_getElem
    · simp
    · intro j hj hj'
      have hj : j < sched.length := by simpa using hj
      rw [List.getElem_map, List.getElem_map, List.getElem_range,
        mergeSort_eq_flatMap (hlt _ (List.getElem_mem hj))]
      apply List.flatMap_congr
      intro t ht
      have ht := List.mem_range.mp ht
      rw [emitted, hrow t ht, ← hcount t ht, passedIn_yieldRow hj]
  · intro t ht k hk
    rw [← hcount t ht] at hk
    obtain ⟨j, hj⟩ := exists_liesIn hk
    rw [padPattern_getYieldPattern, hrow t ht, sumTo_yieldRow hk, periodOf_eq_of_liesIn hj]
    by_contra hge
    have hlo := hj.1
    rw [List.take_of_length_le (Nat.le_of_not_lt hge)] at hlo
    omega

omit hn in
theorem yieldPatternGen_eq (hne : sched ≠ [])
    (hsingle : ∀ period ∈ sched, ∃ x m, period = List.replicate (m + 1) x)
    (hadj : sched.IsChain fun a b => a.head? ≠ b.head?) :
    yieldPatternGen n sched.flatten = .ok (getYieldPattern n kps sched) := by
  obtain ⟨pattern, tdPeriod, hgen, henc⟩ := yieldPatternGen_encoded hne hsingle hlt hadj
  rw [hgen]
  congr 1
  apply List.ext_getElem?
  intro t
  rcases Nat.lt_or_ge t n with ht | ht
  · have hlen : t < pattern.length := by rwa [henc.pattern_length]
    have hget : pattern.getD t [] = pattern[t] := List.getD_eq_getElem _ _ hlen
    rw [getYieldPattern_getElem? ht, List.getElem?_eq_getElem hlen, ← hcount t ht, ← hget]
    congr 1
    have hrow := henc.row_length t ht
    apply eq_of_prefix_sums
    · rw [hrow, yieldRow, List.length_map, List.length_range]
    · intro k hk
      rw [hrow] at hk
      rw [henc.sums t ht k hk, yieldRow_take_sum hk]
  · rw [List.getElem?_eq_none (by rwa [henc.pattern_length]), getYieldPattern_eq,
      List.getElem?_eq_none (by simpa using ht)]

/-- A row says in which period each key point lies, playing the pattern gives back the periods
with their threads in order, and `yield_pattern_gen` agrees on serialised periods. -/
theorem yieldPattern_encodes :
    (∀ i, i < n → ∃ row, (getYieldPattern n kps sched)[i]? = some row ∧ row.length = kpsOf kps i ∧
      ∀ k, k < kpsOf kps i → LiesIn sched i k (row.take (k + 1)).sum) ∧
    (∀ fuel, sched.length < fuel →
      ypToInter fuel n kps (getYieldPattern n kps sched) = .ok (normSched sched).flatten) ∧
    (sched ≠ [] → (∀ period ∈ sched, ∃ x m, period = List.replicate (m + 1) x) →
      (sched.IsChain fun a b => a.head? ≠ b.head?) →
      yieldPatternGen n sched.flatten = .ok (getYieldPattern n kps sched)) := by
  refine ⟨fun i hi => ?_, fun fuel hfuel => ?_, ?_⟩
  · refine ⟨_, getYieldPattern_getElem? hi, by rw [yieldRow, List.length_map, List.length_range], ?_⟩
    intro k hk
    obtain ⟨j, hj⟩ := exists_liesIn (by rwa [hcount i hi])
    rwa [yieldRow_take_sum hk, periodOf_eq_of_liesIn hj]
  · exact ypToInter_getYieldPattern hn hlt hcount hfuel
  · exact yieldPatternGen_eq hlt hcount

end Pattern

/-- Two threads, the second period shared. -/
theorem yieldPattern_encodes_shared :
    (∀ i, i < 2 → ∃ row, (getYieldPattern 2 [2, 1] [[0], [1, 0]])[i]? = some row ∧
      row.length = kpsOf [2, 1] i ∧
      ∀ k, k < kpsOf [2, 1] i → LiesIn [[0], [1, 0]] i k (row.take (k + 1)).sum) ∧
    (∀ fuel, [[0], [1, 0]].length < fuel →
      ypToInter fuel 2 [2, 1] (getYieldPattern 2 [2, 1] [[0], [1, 0]]) =
        .ok (normSched [[0], [1, 0]]).flatten) ∧
    ([[0], [1, 0]] ≠ [] → (∀ period ∈ [[0], [1, 0]], ∃ x m, period = List.replicate (m + 1) x) →
      ([[0], [1, 0]].IsChain fun a b => a.head? ≠ b.head?) →
      yieldPatternGen 2 [[0], [1, 0]].flatten = .ok (getYieldPattern 2 [2, 1] [[0], [1, 0]])) :=
  yieldPattern_encodes (by decide) (by decide) (by decide)

end Period.Interleaving
