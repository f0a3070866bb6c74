import Mathlib.Data.List.GetD
import Mathlib.Order.Basic
import Period.Scheduler.Sched

/-!
# What a yield pattern says

Row `i` of `get_yield_pattern` holds, for each key point of thread `i`, how many periods
end while that key point is the next one of the thread. The sum of a row up to a key
point is the number of periods that end before it is passed.
-/

namespace Period.Scheduler

set_option autoImplicit false

/-- How many key points of thread `t` are passed when period `j` ends. -/
def passed (sched : Schedule) (t j : Nat) : Nat := (sched.take (j + 1)).flatten.count t

/-- How many periods end before key point `k` of thread `t` is passed. -/
def periodOf (sched : Schedule) (t k : Nat) : Nat :=
  (List.range sched.length).countP fun j => passed sched t j ≤ k

/-- How many periods end while key point `k` is the next one of thread `t`. -/
def waits (sched : Schedule) (t k : Nat) : Nat :=
  (List.range sched.length).countP fun j => passed sched t j = k

def yieldRow (sched : Schedule) (t len : Nat) : List Nat :=
  (List.range len).map (waits sched t)

theorem foldl_modify_getElem? {α : Type} (f : Nat → α → α) (ts : List Nat) (hts : ts.Nodup)
    (l : List α) (j : Nat) :
    (ts.foldl (fun l i => l.modify i (f i)) l)[j]? =
      l[j]?.map fun a => if j ∈ ts then f j a else a := by
  induction ts generalizing l with
  | nil => simp
  | cons i ts ih =>
    obtain ⟨hi, hts⟩ := List.nodup_cons.mp hts
    rw [List.foldl_cons, ih hts, List.getElem?_modify, Option.map_eq_map, Option.map_map]
    congr 1
    funext a
    by_cases hij : i = j
    · subst hij
      simp [hi]
    · simp [hij, Ne.symm hij]

theorem foldl_count_getElem? (period idx : List Nat) (i : Nat) :
    (period.foldl (fun idx t => idx.modify t (· + 1)) idx)[i]? =
      idx[i]?.map (· + period.count i) := by
  induction period generalizing idx with
  | nil => simp
  | cons t period ih =>
    rw [List.foldl_cons, ih, List.getElem?_modify, Option.map_eq_map, Option.map_map, List.count_cons]
    congr 1
    funext c
    by_cases hti : t = i
    · simp [hti]
      omega
    · simp [hti]

/-- The state of `get_yield_pattern` after the periods `sched`. -/
structure YieldInv (n : Nat) (kps : List Nat) (sched : Schedule)
    (r : List Nat × List (List Nat)) : Prop where
  idx : ∀ i, r.1[i]? = if i < n then some (sched.flatten.count i) else none
  rows : r.2 = (List.range n).map fun i => yieldRow sched i (kpsOf kps i)

/-- Another period is one more place where the count of a thread is looked at. -/
theorem countP_passed_concat (holds : Nat → Bool) (sched : Schedule) (period : List Nat) (t : Nat) :
    (List.range (sched ++ [period]).length).countP
        (fun j => holds (passed (sched ++ [period]) t j)) =
      (List.range sched.length).countP (fun j => holds (passed sched t j)) +
        if holds ((sched ++ [period]).flatten.count t) then 1 else 0 := by
  have hsame : (List.range sched.length).countP (fun j => holds (passed (sched ++ [period]) t j)) =
      (List.range sched.length).countP (fun j => holds (passed sched t j)) := by
    apply List.countP_congr
    intro j hj
    have hj := List.mem_range.mp hj
    rw [passed, passed, List.take_append_of_le_length (by omega)]
  have hlast : passed (sched ++ [period]) t sched.length = (sched ++ [period]).flatten.count t := by
    rw [passed, List.take_of_length_le (by simp)]
  rw [List.length_append, List.length_singleton, List.range_succ, List.countP_append, hsame,
    List.countP_singleton, hlast]

theorem waits_concat (sched : Schedule) (period : List Nat) (t k : Nat) :
    waits (sched ++ [period]) t k =
      waits sched t k + if (sched ++ [period]).flatten.count t = k then 1 else 0 := by
  have h := countP_passed_concat (· = k) sched period t
  simp only [decide_eq_true_eq] at h
  exact h

theorem periodOf_concat (sched : Schedule) (period : List Nat) (t k : Nat) :
    periodOf (sched ++ [period]) t k =
      periodOf sched t k + if (sched ++ [period]).flatten.count t ≤ k then 1 else 0 := by
  have h := countP_passed_concat (· ≤ k) sched period t
  simp only [decide_eq_true_eq] at h
  exact h

theorem yieldInv_step {n : Nat} {kps : List Nat} {sched : Schedule} {r : List Nat × List (List Nat)}
    (h : YieldInv n kps sched r) (period : List Nat) :
    YieldInv n kps (sched ++ [period]) (yieldPeriod n r period) := by
  obtain ⟨idx, pattern⟩ := r
  have hidx : ∀ i, (period.foldl (fun idx t => idx.modify t (· + 1)) idx)[i]? =
      if i < n then some ((sched ++ [period]).flatten.count i) else none := by
    intro i
    rw [foldl_count_getElem?, h.idx i, List.flatten_append, List.flatten_singleton, List.count_append]
    split <;> rfl
  have hrows : pattern = (List.range n).map fun i => yieldRow sched i (kpsOf kps i) := h.rows
  refine ⟨hidx, ?_⟩
  apply List.ext_getElem?
  intro i
  rw [yieldPeriod, foldl_modify_getElem? _ _ List.nodup_range, hrows, List.getElem?_map,
    List.getElem?_map]
  rcases Nat.lt_or_ge i n with hi | hi
  · rw [List.getElem?_range hi, Option.map_some, Option.map_some, if_pos (List.mem_range.mpr hi),
      Option.map_some, List.getD_eq_getElem?_getD, hidx, if_pos hi, Option.getD_some]
    congr 1
    apply List.ext_getElem?
    intro k
    rw [List.getElem?_modify, yieldRow, yieldRow, List.getElem?_map, List.getElem?_map]
    rcases Nat.lt_or_ge k (kpsOf kps i) with hk | hk
    · rw [List.getElem?_range hk, Option.map_some, Option.map_some, waits_concat]
      split <;> rfl
    · rw [List.getElem?_eq_none (by simpa using hk)]
      rfl
  · rw [List.getElem?_eq_none (by simpa using hi)]
    rfl

theorem getYieldPattern_eq (n : Nat) (kps : List Nat) (sched : Schedule) :
    getYieldPattern n kps sched = (List.range n).map fun i => yieldRow sched i (kpsOf kps i) := by
  have hrun : ∀ (rest done : Schedule) (r : List Nat × List (List Nat)), YieldInv n kps done r →
      YieldInv n kps (done ++ rest) (rest.foldl (yieldPeriod n) r) := by
    intro rest
    induction rest with
    | nil => exact fun done r h => by simpa using h
    | cons period rest ih =>
      intro done r h
      have := ih (done ++ [period]) _ (yieldInv_step h period)
      rwa [List.append_assoc] at this
  have hstart : YieldInv n kps [] (List.replicate n 0,
      (List.range n).map fun i => List.replicate (kpsOf kps i) 0) := by
    refine ⟨fun i => by simp [List.getElem?_replicate], List.map_congr_left fun i _ => ?_⟩
    have hzero : ∀ k ∈ List.range (kpsOf kps i), waits [] i k = 0 := fun k _ => rfl
    rw [yieldRow, List.map_congr_left hzero, List.map_const', List.length_range]
  exact (hrun sched [] _ hstart).rows

theorem countP_le_succ (f : Nat → Nat) (k : Nat) (l : List Nat) :
    (l.countP fun j => f j ≤ k + 1) = (l.countP fun j => f j ≤ k) + l.countP fun j => f j = k + 1 := by
  induction l with
  | nil => rfl
  | cons a l ih =>
    simp only [List.countP_cons, ih, decide_eq_true_eq]
    rcases Nat.lt_trichotomy (f a) (k + 1) with h | h | h
    · rw [if_pos (by omega), if_pos (by omega), if_neg (by omega)]
      omega
    · rw [if_pos (by omega), if_neg (by omega), if_pos h]
      omega
    · rw [if_neg (by omega), if_neg (by omega), if_neg (by omega)]
      omega

theorem periodOf_succ (sched : Schedule) (t k : Nat) :
    periodOf sched t (k + 1) = periodOf sched t k + waits sched t (k + 1) :=
  countP_le_succ (passed sched t) k _

theorem yieldRow_take_sum {sched : Schedule} {t len k : Nat} (hk : k < len) :
    ((yieldRow sched t len).take (k + 1)).sum = periodOf sched t k := by
  rw [yieldRow, ← List.map_take, List.take_range, Nat.min_eq_left hk]
  clear hk
  induction k with
  | zero =>
    rw [List.range_one, List.map_singleton, List.sum_singleton, waits, periodOf]
    apply List.countP_congr
    intro j _
    simp
  | succ k ih =>
    rw [List.range_succ, List.map_append, List.sum_append, ih, List.map_singleton,
      List.sum_singleton, periodOf_succ]

theorem eq_of_prefix_sums {l l' : List Nat} (hlen : l.length = l'.length)
    (h : ∀ k, k < l.length → (l.take (k + 1)).sum = (l'.take (k + 1)).sum) : l = l' := by
  induction l generalizing l' with
  | nil => exact (List.length_eq_zero_iff.mp hlen.symm).symm
  | cons a l ih =>
    cases l' with
    | nil => cases hlen
    | cons b l' =>
      have hhead : a = b := by simpa using h 0 (Nat.succ_pos _)
      have htail : l = l' := by
        apply ih (Nat.succ.inj hlen)
        intro k hk
        have := h (k + 1) (Nat.succ_lt_succ hk)
        rw [List.take_succ_cons, List.take_succ_cons, List.sum_cons, List.sum_cons, hhead] at this
        exact Nat.add_left_cancel this
      rw [hhead, htail]

theorem countP_range_split {q : Nat → Bool} {n j : Nat} (hj : j ≤ n) (hbefore : ∀ i, i < j → q i = true)
    (hafter : ∀ i, j ≤ i → q i = false) : (List.range n).countP q = j := by
  induction n with
  | zero =>
    obtain rfl := Nat.le_zero.mp hj
    rfl
  | succ n ih =>
    rw [List.range_succ, List.countP_append, List.countP_singleton]
    rcases Nat.lt_or_ge n j with hn | hn
    · obtain rfl : j = n + 1 := by omega
      rw [hbefore n (Nat.lt_succ_self n), if_pos rfl]
      congr 1
      rw [List.countP_eq_length.mpr fun i hi => hbefore i (by have := List.mem_range.mp hi; omega),
        List.length_range]
    · rw [ih hn, hafter n hn]
      rfl

theorem passed_mono (sched : Schedule) (t : Nat) {i j : Nat} (h : i ≤ j) :
    (sched.take i).flatten.count t ≤ (sched.take j).flatten.count t := by
  obtain ⟨rest, hrest⟩ := List.take_prefix_take_left (l := sched) h
  rw [← hrest, List.flatten_append, List.count_append]
  exact Nat.le_add_right _ _

/-- Key points that are not passed wait through all periods. -/
theorem periodOf_of_count_le {sched : Schedule} {t k : Nat} (h : sched.flatten.count t ≤ k) :
    periodOf sched t k = sched.length := by
  rw [periodOf]
  have hall : ∀ j ∈ List.range sched.length, decide (passed sched t j ≤ k) = true := by
    intro j _
    have hle := passed_mono sched t (Nat.le_max_left (j + 1) sched.length)
    rw [List.take_of_length_le (Nat.le_max_right (j + 1) sched.length)] at hle
    exact decide_eq_true (Nat.le_trans hle h)
  rw [List.countP_eq_length.mpr hall, List.length_range]

theorem periodOf_eq_of_liesIn {sched : Schedule} {t k j : Nat} (h : LiesIn sched t k j) :
    periodOf sched t k = j := by
  obtain ⟨hlo, hhi⟩ := h
  have hj : j ≤ sched.length := by
    by_contra hgt
    rw [List.take_of_length_le (by omega)] at hlo hhi
    omega
  refine countP_range_split hj (fun i hi => ?_) (fun i hi => ?_)
  · exact decide_eq_true (Nat.le_trans (passed_mono sched t (Nat.succ_le_of_lt hi)) hlo)
  · have hlt := Nat.lt_of_lt_of_le hhi (passed_mono sched t (Nat.succ_le_succ hi))
    exact decide_eq_false (Nat.not_le.mpr hlt)

theorem exists_liesIn {sched : Schedule} {t k : Nat} (h : k < sched.flatten.count t) :
    ∃ j, LiesIn sched t k j := by
  have hex : ∃ j, k < (sched.take j).flatten.count t := ⟨sched.length, by rwa [List.take_length]⟩
  have hpos : Nat.find hex ≠ 0 := by
    intro h0
    have := Nat.find_spec hex
    rw [h0] at this
    simp at this
  obtain ⟨j, hj⟩ := Nat.exists_eq_succ_of_ne_zero hpos
  have hspec := Nat.find_spec hex
  rw [hj] at hspec
  exact ⟨j, Nat.le_of_not_lt (Nat.find_min hex (by omega)), hspec⟩

theorem LiesIn.lt_count {sched : Schedule} {t k j : Nat} (h : LiesIn sched t k j) :
    k < sched.flatten.count t := by
  have hle := passed_mono sched t (Nat.le_max_left (j + 1) sched.length)
  rw [List.take_of_length_le (Nat.le_max_right (j + 1) sched.length)] at hle
  exact Nat.lt_of_lt_of_le h.2 hle

end Period.Scheduler
