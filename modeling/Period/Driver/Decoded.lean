import Period.Driver.Arranged
import Period.Interleaving.Played

/-!
# The interleaving of a pattern

A target runs any pattern that has been loaded. `yield_pattern_gen` makes one that forces an
interleaving upon it; `yp_to_inter` finds an interleaving that a pattern allows, which is the only
one exactly when no two threads meet in a period.
-/

namespace Period.Driver

open Aligned Runs RowMajor
open Period.Runtime Period.Scheduler Period.Interleaving
set_option autoImplicit false

/-- The rows of the pattern are in the array, as far as the threads have key points. -/
def HoldsPattern (n M : Nat) (kpNum : List Nat) (YP : List (List Nat)) (kp : Nat → Nat) : Prop :=
  ∀ t k, t < n → k < kpsOf kpNum t → kp (t * M + k) = (YP.getD t []).getD k 0

def patternSched (n : Nat) (kpNum : List Nat) (YP : List (List Nat)) (R : Nat) : Schedule :=
  (List.range R).map fun j => (List.range n).flatMap (emitted kpNum YP j)

theorem sum_getD (row : List Nat) (k : Nat) :
    ((List.range k).map fun l => row.getD l 0).sum = (row.take k).sum := by
  induction k with
  | zero => rfl
  | succ k ih =>
    rw [List.range_succ, List.map_append, List.sum_append, ih, List.map_singleton, List.sum_singleton,
      List.take_add_one, List.sum_append, List.getD_eq_getElem?_getD]
    cases row[k]? <;> rfl

theorem flatMap_emitted_count (kpNum : List Nat) (YP : List (List Nat)) (n j t : Nat) :
    ((List.range n).flatMap (emitted kpNum YP j)).count t =
      if t < n then passedIn (YP.getD t []) (kpsOf kpNum t) j else 0 := by
  induction n with
  | zero => rfl
  | succ n ih =>
    rw [List.range_succ, List.flatMap_append, List.count_append, ih, List.flatMap_singleton, emitted,
      List.count_replicate]
    simp only [beq_iff_eq]
    rcases Nat.lt_trichotomy t n with hlt | heq | hgt
    · rw [if_pos hlt, if_neg (Nat.ne_of_gt hlt), if_pos (Nat.lt_succ_of_lt hlt), Nat.add_zero]
    · subst heq
      rw [if_neg (Nat.lt_irrefl t), if_pos rfl, if_pos (Nat.lt_succ_self t), Nat.zero_add]
    · rw [if_neg (by omega), if_neg (Nat.ne_of_lt hgt), if_neg (by omega)]

theorem countP_lt_succ (f : Nat → Nat) (j : Nat) (l : List Nat) :
    (l.countP fun k => f k < j + 1) = (l.countP fun k => f k < j) + l.countP fun k => f k = j := by
  induction l with
  | nil => rfl
  | cons k l ih =>
    simp only [List.countP_cons, ih, decide_eq_true_eq]
    rcases Nat.lt_trichotomy (f k) j with h | h | h
    · rw [if_pos h, if_pos (Nat.lt_succ_of_lt h), if_neg (Nat.ne_of_lt h)]
      omega
    · rw [if_pos h, if_pos (Nat.lt_succ_of_le (Nat.le_of_eq h)), if_neg (Nat.not_lt.mpr (Nat.le_of_eq h.symm))]
      omega
    · rw [if_neg (Nat.not_lt.mpr (Nat.le_of_lt h)), if_neg (Nat.ne_of_gt h),
        if_neg (Nat.not_lt.mpr (Nat.succ_le_of_lt h))]
      omega

section Pattern
variable {n M loopUnwindedNum R : Nat} {kpNum : List Nat} {YP : List (List Nat)} {kp : Nat → Nat}
variable (hlen : kpNum.length = n) (hfit : ∀ c ∈ kpNum, c ≤ M) (hroom : n * M ≤ shareMemoryArraySize)
variable (hkp : HoldsPattern n M kpNum YP kp)

include hlen hfit hroom hkp in
/-- A key point is due when the sum of its row says so. -/
theorem dueIn_pattern {t k : Nat} (hk : k < kpsOf kpNum t) :
    dueIn (traceBegin n M loopUnwindedNum kp) t k = sumTo (YP.getD t []) k := by
  have ht : t < n := hlen ▸ kpsOf_pos_lt (Nat.zero_lt_of_lt hk)
  have hentries : ∀ l ∈ List.range (k + 1),
      loadYield n M kp ((t + 1 - 1) * M + l) = (YP.getD t []).getD l 0 := by
    intro l hl
    have hl : l < kpsOf kpNum t := Nat.lt_of_lt_of_le (List.mem_range.mp hl) hk
    have hslot : t * M + l < n * M := (index_lt (Nat.lt_of_lt_of_le hl (kpsOf_le hfit t))).mpr ht
    rw [Nat.add_sub_cancel, loadYield, if_pos ⟨hslot, Nat.lt_of_lt_of_le hslot hroom⟩, hkp t l ht hl]
  show ((List.range (k + 1)).map fun l => loadYield n M kp ((t + 1 - 1) * M + l)).sum = _
  rw [List.map_congr_left hentries, sum_getD]
  rfl

theorem patternSched_count {t j : Nat} (hj : j ≤ R) :
    ((patternSched n kpNum YP R).take j).flatten.count t =
      if t < n then (List.range (kpsOf kpNum t)).countP fun k => sumTo (YP.getD t []) k < j else 0 := by
  induction j with
  | zero => simp
  | succ j ih =>
    have hget : (patternSched n kpNum YP R)[j]? = some ((List.range n).flatMap (emitted kpNum YP j)) := by
      rw [patternSched, List.getElem?_map, List.getElem?_range hj]
      rfl
    rw [List.take_add_one, hget, Option.toList_some, List.flatten_append, List.count_append,
      List.flatten_singleton, flatMap_emitted_count, ih (by omega)]
    split
    · rw [countP_lt_succ]
      rfl
    · rfl

variable (hR : ∀ t, t < n → ∀ k, k < kpsOf kpNum t → sumTo (YP.getD t []) k < R)

include hR in
theorem patternSched_liesIn {t k : Nat} (ht : t < n) (hk : k < kpsOf kpNum t) :
    LiesIn (patternSched n kpNum YP R) t k (sumTo (YP.getD t []) k) := by
  have hlt := hR t ht k hk
  rw [LiesIn, patternSched_count (by omega), patternSched_count (by omega), if_pos ht, if_pos ht]
  constructor
  · -- what is due earlier comes before
    refine Nat.le_trans (List.countP_mono_left (q := fun l => 0 ≤ l ∧ l < k) fun l _ hl => ?_)
      (Nat.le_trans (Nat.le_of_eq (countP_between 0 k _)) (by omega))
    have hl := of_decide_eq_true hl
    refine decide_eq_true ⟨Nat.zero_le l, ?_⟩
    by_contra hge
    have := sumTo_mono (YP.getD t []) (Nat.not_lt.mp hge)
    omega
  · refine Nat.lt_of_lt_of_le ?_ (List.countP_mono_left (p := fun l => 0 ≤ l ∧ l < k + 1) fun l _ hl => ?_)
    · rw [countP_between]
      omega
    · have hl := of_decide_eq_true hl
      have := sumTo_mono (YP.getD t []) (Nat.le_of_lt_succ hl.2)
      exact decide_eq_true (by omega)

include hlen hR in
/-- A target whose key points are due as the rows say has loaded the periods of the pattern. -/
theorem loaded_of_due {a : Target} (hfresh : Fresh a) (hfits : ∀ i, kpsOf kpNum i ≤ a.numKp)
    (hdue : ∀ t k, k < kpsOf kpNum t → dueIn a t k = sumTo (YP.getD t []) k) :
    Loaded kpNum (patternSched n kpNum YP R) a := by
  refine ⟨hfresh, fun t => ?_, fun t k hk => ?_, hfits⟩
  · have hall := @patternSched_count n R kpNum YP t R (Nat.le_refl R)
    rw [List.take_of_length_le (by simp [patternSched])] at hall
    rw [hall]
    split
    · next ht =>
      rw [List.countP_eq_length.mpr fun k hk => decide_eq_true (hR t ht k (List.mem_range.mp hk)),
        List.length_range]
    · next ht =>
      by_contra hne
      exact ht (hlen ▸ kpsOf_pos_lt (Nat.pos_of_ne_zero (Ne.symm hne)))
  · rw [hdue t k hk, periodOf_eq_of_liesIn
      (patternSched_liesIn hR (hlen ▸ kpsOf_pos_lt (Nat.zero_lt_of_lt hk)) hk)]

include hlen hfit hroom hkp hR in
theorem loaded_pattern : Loaded kpNum (patternSched n kpNum YP R) (traceBegin n M loopUnwindedNum kp) :=
  loaded_of_due hlen hR (fresh_traceBegin ..) (kpsOf_le hfit) fun _ _ hk => dueIn_pattern hlen hfit hroom hkp hk

/-- Two threads meet in a period of the pattern exactly when some of their rows have equal sums. -/
theorem patternSched_single_iff
    (hR : ∀ t, t < n → ∀ k, k < kpsOf kpNum t → sumTo (YP.getD t []) k < R) :
    (∀ period ∈ patternSched n kpNum YP R, ∀ t ∈ period, ∀ t' ∈ period, t = t') ↔
      ∀ t t' k k', t < n → t' < n → k < kpsOf kpNum t → k' < kpsOf kpNum t' →
        sumTo (YP.getD t []) k = sumTo (YP.getD t' []) k' → t = t' := by
  have hmem : ∀ j t, t ∈ (List.range n).flatMap (emitted kpNum YP j) ↔
      t < n ∧ ∃ k, k < kpsOf kpNum t ∧ sumTo (YP.getD t []) k = j := by
    intro j t
    rw [← List.count_pos_iff, flatMap_emitted_count]
    split
    · next ht => simp [passedIn, List.countP_pos_iff, ht]
    · next ht => simp [ht]
  constructor
  · intro h t t' k k' ht ht' hk hk' hsum
    refine h _ (List.mem_map.mpr ⟨_, List.mem_range.mpr (hR t ht k hk), rfl⟩) t ?_ t' ?_
    · exact (hmem _ t).mpr ⟨ht, k, hk, rfl⟩
    · exact (hmem _ t').mpr ⟨ht', k', hk', hsum.symm⟩
  · intro h period hperiod t ht t' ht'
    obtain ⟨j, _, rfl⟩ := List.mem_map.mp hperiod
    obtain ⟨htn, k, hk, hsum⟩ := (hmem j t).mp ht
    obtain ⟨htn', k', hk', hsum'⟩ := (hmem j t').mp ht'
    exact h t t' k k' htn htn' hk hk' (hsum.trans hsum'.symm)

end Pattern

theorem ypToInter_loaded {n R fuel : Nat} {kpNum : List Nat} {YP : List (List Nat)}
    (hpad : padKps n kpNum = .ok kpNum) (hfuel : R < fuel)
    (hR : ∀ t, t < n → ∀ k, k < kpsOf kpNum t → sumTo (YP.getD t []) k < R) :
    ypToInter fuel n kpNum YP = .ok (interUpTo n kpNum YP R) := by
  have hpadded : ∀ t, t < n → ∀ k, k < kpsOf kpNum t → sumTo ((padPattern n kpNum YP).getD t []) k < R := by
    intro t ht k hk
    rw [sumTo_padPattern ht]
    exact hR t ht k hk
  rw [ypToInter_eq hpad hfuel hpadded, interUpTo, interUpTo]
  congr 1
  apply List.flatMap_congr
  intro j _
  apply List.flatMap_congr
  intro t ht
  simp only [emitted, passedIn, sumTo_padPattern (List.mem_range.mp ht)]

/-- `yp_to_inter` finds an interleaving that the target can execute with the pattern, and it is the
only one exactly when no two threads have a key point in the same period. -/
theorem ypToInter_executed {n M loopUnwindedNum : Nat} {kpNum : List Nat} {YP : List (List Nat)}
    {kp : Nat → Nat} {s : Execution} (hlen : kpNum.length = n) (hfit : ∀ c ∈ kpNum, c ≤ M)
    (hroom : n * M ≤ shareMemoryArraySize) (hkp : HoldsPattern n M kpNum YP kp) (hnum : 0 < loopUnwindedNum)
    (hs : s = .start (traceBegin n M loopUnwindedNum kp)) :
    ∃ rounds inter, (∀ fuel, rounds ≤ fuel → ypToInter fuel n kpNum YP = .ok inter) ∧
      (∃ acts, Meets Execution.step (Act.InRow n) acts s ∧ Timely kpNum (run Execution.step acts s).log ∧
        (run Execution.step acts s).log.map threadOf = inter) ∧
      ((∀ acts, Meets Execution.step (Act.InRow n) acts s → Timely kpNum (run Execution.step acts s).log →
          (run Execution.step acts s).log.map threadOf = inter) ↔
        ∀ t t' k k', t < n → t' < n → k < kpsOf kpNum t → k' < kpsOf kpNum t' →
          sumTo (YP.getD t []) k = sumTo (YP.getD t' []) k' → t = t') := by
  subst hs
  obtain ⟨R, hR⟩ := exists_periods n kpNum YP
  have hpad : padKps n kpNum = .ok kpNum := by rw [padKps, if_neg (by omega)]
  have hload : Loaded kpNum (patternSched n kpNum YP R) (traceBegin n M loopUnwindedNum kp) :=
    loaded_pattern hlen hfit hroom hkp hR
  have hflat : (patternSched n kpNum YP R).flatten = interUpTo n kpNum YP R := by
    rw [patternSched, interUpTo, List.flatMap_def]
  refine ⟨R + 1, interUpTo n kpNum YP R, fun fuel hfuel => ypToInter_loaded hpad (by omega) hR, ?_, ?_⟩
  · rw [← hflat]
    exact exists_timely hload hnum hlen.le (arrangement_refl _)
  rw [← patternSched_single_iff hR, ← arrangement_unique_iff]
  constructor
  · intro h order order' horder horder'
    obtain ⟨acts, hacts, htimely, hword⟩ := exists_timely hload hnum hlen.le horder
    obtain ⟨acts', hacts', htimely', hword'⟩ := exists_timely hload hnum hlen.le horder'
    rw [← hword, ← hword', h acts hacts htimely, h acts' hacts' htimely']
  · intro h acts hacts htimely
    obtain ⟨order, horder, hword⟩ := arranges_of_timely hload rfl hacts htimely
    rw [hword, ← hflat]
    exact h order _ horder (arrangement_refl _)

theorem ypToInter_executed_two :
    ∃ rounds inter, (∀ fuel, rounds ≤ fuel → ypToInter fuel 2 [1, 1] [[0], [1]] = .ok inter) ∧
      (∃ acts, Meets Execution.step (Act.InRow 2) acts (.start (traceBegin 2 1 4 fun i => i)) ∧
        Timely [1, 1] (run Execution.step acts (.start (traceBegin 2 1 4 fun i => i))).log ∧
        (run Execution.step acts (.start (traceBegin 2 1 4 fun i => i))).log.map threadOf = inter) ∧
      ((∀ acts, Meets Execution.step (Act.InRow 2) acts (.start (traceBegin 2 1 4 fun i => i)) →
          Timely [1, 1] (run Execution.step acts (.start (traceBegin 2 1 4 fun i => i))).log →
          (run Execution.step acts (.start (traceBegin 2 1 4 fun i => i))).log.map threadOf = inter) ↔
        ∀ t t' k k', t < 2 → t' < 2 → k < kpsOf [1, 1] t → k' < kpsOf [1, 1] t' →
          sumTo ([[0], [1]].getD t []) k = sumTo ([[0], [1]].getD t' []) k' → t = t') := by
  refine @ypToInter_executed 2 1 4 [1, 1] [[0], [1]] (fun i => i) _ rfl (by decide) (by decide) ?_
    (by decide) rfl
  intro t k ht hk
  match t, k with
  | 0, 0 => rfl
  | 1, 0 => rfl
  | 0, k + 1 => exact absurd hk (by simp [kpsOf])
  | 1, k + 1 => exact absurd hk (by simp [kpsOf])
  | t + 2, _ => exact absurd ht (by omega)

/-! ## Forcing an interleaving -/

theorem encodeLoop_lt {inter : List Nat} {s s' : Encoder} (h : encodeLoop inter s = .ok s') :
    ∀ i ∈ inter, i < s.pattern.length := by
  induction inter generalizing s with
  | nil => exact fun i hi => absurd hi List.not_mem_nil
  | cons i inter ih =>
    rw [encodeLoop] at h
    split at h
    · next hi =>
      have hsame : (s.next i).pattern.length = s.pattern.length := by
        unfold Encoder.next
        split <;> exact List.length_modify ..
      intro j hj
      rcases List.mem_cons.mp hj with rfl | hj
      · exact hi
      · exact hsame ▸ ih h j hj
    · cases h

theorem yieldPatternGen_lt {n : Nat} {inter : List Nat} {YP : List (List Nat)}
    (h : yieldPatternGen n inter = .ok YP) : inter ≠ [] ∧ ∀ i ∈ inter, i < n := by
  cases inter with
  | nil => cases h
  | cons i inter =>
    refine ⟨List.cons_ne_nil i inter, ?_⟩
    simp only [yieldPatternGen, Bind.bind, Except.bind] at h
    split at h
    · cases h
    · next s hs =>
      have := encodeLoop_lt hs
      rwa [List.length_replicate] at this

/-- With the pattern of an interleaving the target executes the interleaving and no other one. -/
theorem interleaving_forced {n M loopUnwindedNum : Nat} {inter : List Nat} {YP : List (List Nat)}
    {kp : Nat → Nat} {s : Execution} (hgen : yieldPatternGen n inter = .ok YP)
    (hfit : ∀ t, inter.count t ≤ M) (hroom : n * M ≤ shareMemoryArraySize)
    (hkp : HoldsPattern n M ((List.range n).map inter.count) YP kp) (hnum : 0 < loopUnwindedNum)
    (hs : s = .start (traceBegin n M loopUnwindedNum kp)) (word : List Nat) :
    (∃ acts, Meets Execution.step (Act.InRow n) acts s ∧
      Timely ((List.range n).map inter.count) (run Execution.step acts s).log ∧
      (run Execution.step acts s).log.map threadOf = word) ↔ word = inter := by
  subst hs
  obtain ⟨hne, hlt⟩ := yieldPatternGen_lt hgen
  have hblocks : ∀ period ∈ blocks inter, ∀ t ∈ period, t < n := by
    intro period hperiod t ht
    apply hlt
    rw [← blocks_flatten inter]
    exact List.mem_flatten.mpr ⟨period, hperiod, ht⟩
  have hkps : ∀ t, kpsOf ((List.range n).map inter.count) t = inter.count t := by
    intro t
    rw [kpsOf, List.getD_eq_getElem?_getD, List.getElem?_map]
    rcases Nat.lt_or_ge t n with ht | ht
    · rw [List.getElem?_range ht]
      rfl
    · rw [List.getElem?_eq_none (by simpa using ht), List.count_eq_zero.mpr]
      · rfl
      · intro hmem
        have := hlt t hmem
        omega
  have hsome : blocks inter ≠ [] := mt List.splitBy_eq_nil.mp hne
  obtain ⟨YP', _, hgen', hencoded⟩ := yieldPatternGen_encoded hsome
    (fun period hperiod => blocks_single hperiod) hblocks (blocks_adjacent inter)
  rw [blocks_flatten, hgen] at hgen'
  cases hgen'
  have hload : Loaded ((List.range n).map inter.count) (blocks inter)
      (traceBegin n M loopUnwindedNum kp) := by
    refine ⟨fresh_traceBegin .., fun t => ?_, fun t k hk => ?_, fun t => ?_⟩
    · rw [blocks_flatten, hkps]
    · have ht : t < n := by simpa using kpsOf_pos_lt (Nat.zero_lt_of_lt hk)
      rw [dueIn_pattern (by simp) (by simpa using fun t _ => hfit t) hroom hkp hk]
      refine hencoded.sums t ht k ?_
      rw [blocks_flatten, ← hkps]
      exact hk
    · rw [hkps]
      exact hfit t
  constructor
  · intro h
    obtain ⟨acts, hacts, htimely, rfl⟩ := h
    obtain ⟨order, horder, hword⟩ := arranges_of_timely hload rfl hacts htimely
    have hsame : order = blocks inter := by
      refine eq_of_arrangement horder fun period hperiod t ht t' ht' => ?_
      obtain ⟨x, m, rfl⟩ := blocks_single hperiod
      rw [List.eq_of_mem_replicate ht, List.eq_of_mem_replicate ht']
    rw [hword, hsame, blocks_flatten]
  · rintro rfl
    have htd : ((List.range n).map word.count).length ≤ n := by simp
    obtain ⟨acts, hacts, htimely, hword⟩ := exists_timely hload hnum htd (arrangement_refl _)
    exact ⟨acts, hacts, htimely, hword.trans (blocks_flatten word)⟩

theorem interleaving_forced_two :
    (∃ acts, Meets Execution.step (Act.InRow 2) acts (.start (traceBegin 2 1 4 fun i => i)) ∧
      Timely ((List.range 2).map [0, 1].count)
        (run Execution.step acts (.start (traceBegin 2 1 4 fun i => i))).log ∧
      (run Execution.step acts (.start (traceBegin 2 1 4 fun i => i))).log.map threadOf = [0, 1]) ↔
      [0, 1] = [0, 1] := by
  refine @interleaving_forced 2 1 4 [0, 1] [[0], [1]] (fun i => i) _ rfl (fun t => ?_) (by decide)
    (fun t k ht hk => ?_) (by decide) rfl [0, 1]
  · match t with
    | 0 => decide
    | 1 => decide
    | t + 2 => simp
  · match t, k with
    | 0, 0 => rfl
    | 1, 0 => rfl
    | 0, k + 1 => exact absurd hk (by simp [kpsOf])
    | 1, k + 1 => exact absurd hk (by simp [kpsOf])
    | t + 2, _ => exact absurd ht (by omega)

end Period.Driver
