import Mathlib.Data.List.GetD
import Period.Foundation.Parts
import Period.Scheduler.Words

/-!
# Key points to periods

`layout w parts` is the schedule with thread word `w` in which the `r`-th period of
thread `i` holds `parts[i][r]` key points. `_init_sched` starts every thread with
one key point in each of its periods and the rest in its last one, `_next_sched` is
an odometer whose wheels are the threads and whose turn is `Parts.shift`.
-/

namespace Period.Scheduler

open Enumeration Search Parts
set_option autoImplicit false

def lastPeriodOf (pattern : List Nat) (i p : Nat) : Option Nat :=
  (List.range p).reverse.find? fun j => pattern[j]? = some i

/-- `for j in range(p - 1, -1, -1)` of `SBPSched._init_sched`. -/
def topUp (pattern : List Nat) (p : Nat) (k : List Nat) (rlt : Schedule) (i : Nat) : Schedule :=
  match lastPeriodOf pattern i p with
  | some j => rlt.modify j (· ++ List.replicate (kpsOf k i) i)
  | none => rlt

def initSched (n : Nat) (kps : List Nat) (p : Nat) (pattern : List Nat) : Schedule :=
  let k := kps.mapIdx fun i c => c - pattern.count i
  (List.range n).foldl (topUp pattern p k) (pattern.map fun x => [x])

/-- The body of the outer loop of `SBPSched._next_sched`. -/
def nextSchedAt (n : Nat) (kps : List Nat) (p : Nat) (sched : Schedule) (pattern : List Nat)
    (i : Nat) : Option Schedule := do
  let idx1 ← (List.range' 1 (p - 1)).reverse.find? fun j =>
    pattern[j]? = some i ∧ 1 < (sched.getD j []).count i
  let idx2 ← lastPeriodOf pattern i idx1
  let rlt := (sched.modify idx1 (·.erase i)).modify idx2 (· ++ [i])
  let fresh := initSched n kps p pattern
  return rlt.mapIdx fun j period => if pattern.getD j 0 ≤ i then period else fresh.getD j []

def nextSched (n : Nat) (kps : List Nat) (p : Nat) (sched : Schedule) (pattern : List Nat) :
    Option Schedule :=
  (List.range n).reverse.findSome? (nextSchedAt n kps p sched pattern)

def layout (w : List Nat) (parts : List (List Nat)) : Schedule :=
  w.mapIdx fun j i => List.replicate ((parts.getD i []).getD ((w.take j).count i) 0) i

def startParts (n : Nat) (kps w : List Nat) : List (List Nat) :=
  (List.range n).map fun i => firstParts (w.count i) (kpsOf kps i)

theorem layout_getElem? (w : List Nat) (parts : List (List Nat)) (j : Nat) :
    (layout w parts)[j]? = w[j]?.map fun i =>
      List.replicate ((parts.getD i []).getD ((w.take j).count i) 0) i := by
  simp [layout]

@[simp] theorem layout_length (w : List Nat) (parts : List (List Nat)) :
    (layout w parts).length = w.length := by simp [layout]

theorem startParts_getD {n : Nat} (kps w : List Nat) {i : Nat} (hi : i < n) :
    (startParts n kps w).getD i [] = firstParts (w.count i) (kpsOf kps i) := by
  simp [startParts, hi]

theorem lastPeriodOf_eq_some {w : List Nat} {i p j : Nat} :
    lastPeriodOf w i p = some j ↔ j < p ∧ w[j]? = some i ∧
      ∀ j', j < j' → j' < p → w[j']? ≠ some i := by
  rw [lastPeriodOf, find?_range_reverse_eq_some]
  simp

theorem lastPeriodOf_iff_rank {w : List Nat} {i j : Nat} (hj : w[j]? = some i) :
    lastPeriodOf w i w.length = some j ↔ (w.take j).count i + 1 = w.count i := by
  rw [lastPeriodOf_eq_some]
  have hlen := (List.getElem?_eq_some_iff.mp hj).1
  have hlt := count_take_lt_count hj
  constructor
  · rintro ⟨_, _, hlast⟩
    by_contra hne
    obtain ⟨j', hj', hr⟩ := exists_occurrence (l := w) (a := i) (r := (w.take j).count i + 1) (by omega)
    refine hlast j' ?_ (List.getElem?_eq_some_iff.mp hj').1 hj'
    by_contra hle
    have := count_take_mono (l := w) (Nat.le_of_not_lt hle) i
    omega
  · intro hr
    refine ⟨hlen, hj, fun j' hlt' _ hj' => ?_⟩
    have := count_take_lt hj hlt'
    have := count_take_lt_count hj'
    omega

@[simp] theorem topUp_length (w : List Nat) (p : Nat) (k : List Nat) (rlt : Schedule) (i : Nat) :
    (topUp w p k rlt i).length = rlt.length := by
  unfold topUp
  split <;> simp

theorem initSched_length (n : Nat) (kps : List Nat) (p : Nat) (w : List Nat) :
    (initSched n kps p w).length = w.length := by
  have hfold : ∀ (ts : List Nat) (k : List Nat) (rlt : Schedule),
      (ts.foldl (topUp w p k) rlt).length = rlt.length := by
    intro ts k
    induction ts with
    | nil => exact fun rlt => rfl
    | cons i ts ih =>
      intro rlt
      rw [List.foldl_cons, ih, topUp_length]
  rw [initSched, hfold, List.length_map]

theorem kpsOf_mapIdx_sub (kps w : List Nat) (i : Nat) :
    kpsOf (kps.mapIdx fun i c => c - w.count i) i = kpsOf kps i - w.count i := by
  simp only [kpsOf, List.getD_eq_getElem?_getD, List.getElem?_mapIdx]
  cases kps[i]? <;> simp

theorem topUp_getElem? (w : List Nat) (p : Nat) (k : List Nat) (rlt : Schedule) (i j : Nat) :
    (topUp w p k rlt i)[j]? = rlt[j]?.map fun period =>
      if lastPeriodOf w i p = some j then period ++ List.replicate (kpsOf k i) i else period := by
  unfold topUp
  cases hlast : lastPeriodOf w i p with
  | none => simp
  | some j' =>
    rw [List.getElem?_modify]
    by_cases hj : j' = j <;> cases rlt[j]? <;> simp [hj]

theorem foldl_topUp {w : List Nat} {p j x : Nat} (hx : w[j]? = some x) (k : List Nat)
    (ts : List Nat) (hts : ts.Nodup) (rlt : Schedule) :
    (ts.foldl (topUp w p k) rlt)[j]? = rlt[j]?.map fun period =>
      if x ∈ ts ∧ lastPeriodOf w x p = some j then period ++ List.replicate (kpsOf k x) x
      else period := by
  induction ts generalizing rlt with
  | nil => simp
  | cons i ts ih =>
    obtain ⟨hi, hts⟩ := List.nodup_cons.mp hts
    rw [List.foldl_cons, ih hts, topUp_getElem?, Option.map_map]
    congr 1
    funext period
    rw [Function.comp_apply]
    by_cases hij : lastPeriodOf w i p = some j
    · -- the only thread whose last period is `j` is the one of its letter
      obtain rfl : i = x := by
        have := (lastPeriodOf_eq_some.mp hij).2.1
        rw [hx] at this
        exact (Option.some.inj this).symm
      rw [if_neg (fun h => hi h.1), if_pos hij, if_pos ⟨List.mem_cons_self, hij⟩]
    · have hiff : (x ∈ i :: ts ∧ lastPeriodOf w x p = some j) ↔
          (x ∈ ts ∧ lastPeriodOf w x p = some j) := by
        constructor
        · rintro ⟨h1, h2⟩
          exact ⟨(List.mem_cons.mp h1).resolve_left fun he => hij (he ▸ h2), h2⟩
        · exact fun ⟨h1, h2⟩ => ⟨List.mem_cons_of_mem i h1, h2⟩
      rw [if_neg hij]
      simp only [hiff]

theorem firstParts_getD {m total r : Nat} (hr : r < m) :
    (firstParts m total).getD r 0 = if r + 1 = m then 1 + (total - m) else 1 := by
  obtain ⟨m, rfl⟩ : ∃ m', m = m' + 1 := ⟨m - 1, by omega⟩
  rw [firstParts, List.getD_eq_getElem?_getD]
  by_cases h : r + 1 = m + 1
  · have hrm : r = m := by omega
    rw [if_pos h, hrm, List.getElem?_append_right (by simp)]
    simp
  · rw [if_neg h, List.getElem?_append_left (by simp; omega), List.getElem?_replicate,
      if_pos (by omega)]
    rfl

theorem initSched_eq {n : Nat} {kps w : List Nat} (hw : ∀ i ∈ w, i < n) :
    initSched n kps w.length w = layout w (startParts n kps w) := by
  apply List.ext_getElem?
  intro j
  rw [layout_getElem?]
  cases hj : w[j]? with
  | none =>
    have hlen := List.getElem?_eq_none_iff.mp hj
    rw [List.getElem?_eq_none]
    · rfl
    · rw [initSched_length]
      exact hlen
  | some i =>
    have hi := hw i (List.mem_of_getElem? hj)
    rw [initSched, foldl_topUp hj _ _ List.nodup_range, List.getElem?_map, hj, Option.map_some,
      Option.map_some, Option.map_some, startParts_getD kps w hi,
      firstParts_getD (count_take_lt_count hj), kpsOf_mapIdx_sub]
    by_cases hlast : (w.take j).count i + 1 = w.count i
    · rw [if_pos ⟨List.mem_range.mpr hi, (lastPeriodOf_iff_rank hj).mpr hlast⟩, if_pos hlast,
        List.replicate_add]
      rfl
    · rw [if_neg (fun h => hlast ((lastPeriodOf_iff_rank hj).mp h.2)), if_neg hlast]
      rfl

/-! ## One step of the odometer -/

/-- Every thread below `n` has one part for each of its periods. -/
structure Parted (n : Nat) (w : List Nat) (parts : List (List Nat)) : Prop where
  length_eq : parts.length = n
  part_length : ∀ i, i < n → (parts.getD i []).length = w.count i

theorem layout_count {w : List Nat} {parts : List (List Nat)} {j i : Nat} (hj : w[j]? = some i) :
    ((layout w parts).getD j []).count i =
      (parts.getD i []).getD ((w.take j).count i) 0 := by
  rw [List.getD_eq_getElem?_getD, layout_getElem?, hj, Option.map_some, Option.getD_some,
    List.count_replicate_self]

/-- The key points of a thread before period `j` are those of its parts before `j`. -/
theorem layout_count_take (w : List Nat) (parts : List (List Nat)) (j t : Nat) :
    ((layout w parts).take j).flatten.count t =
      ((parts.getD t []).take ((w.take j).count t)).sum := by
  induction j with
  | zero => simp
  | succ j ih =>
    rw [List.take_add_one, List.flatten_append, List.count_append, ih, layout_getElem?]
    cases hj : w[j]? with
    | none =>
      have hlen := List.getElem?_eq_none_iff.mp hj
      rw [List.take_of_length_le hlen, List.take_of_length_le (Nat.le_succ_of_le hlen)]
      simp
    | some x =>
      rw [count_take_succ hj, Option.map_some, Option.toList_some, List.flatten_singleton,
        List.count_replicate]
      by_cases hx : x = t
      · subst hx
        generalize parts.getD x [] = part
        rw [if_pos (beq_self_eq_true x), if_pos rfl, List.take_add_one, List.sum_append,
          List.getD_eq_getElem?_getD]
        cases part[(w.take j).count x]? <;> simp
      · rw [if_neg (by simpa using hx), if_neg hx]
        rfl

theorem layout_flatten_count {n : Nat} {w : List Nat} {parts : List (List Nat)}
    (hparts : Parted n w parts) {t : Nat} (ht : t < n) :
    (layout w parts).flatten.count t = (parts.getD t []).sum := by
  have hall := layout_count_take w parts w.length t
  rwa [List.take_of_length_le (Nat.le_of_eq (layout_length w parts)), List.take_length,
    ← hparts.part_length t ht, List.take_length] at hall

/-- The parts after thread `i` has taken a step: larger threads start again. -/
def stepped (n : Nat) (kps w : List Nat) (parts : List (List Nat)) (i : Nat) (part : List Nat) :
    List (List Nat) :=
  parts.take i ++ part :: (startParts n kps w).drop (i + 1)

theorem stepped_getD {n : Nat} {kps w : List Nat} {parts : List (List Nat)} {i : Nat}
    (hi : i < parts.length) (part : List Nat) (x : Nat) :
    (stepped n kps w parts i part).getD x [] =
      if x < i then parts.getD x [] else if x = i then part else (startParts n kps w).getD x [] := by
  have hlen : (parts.take i).length = i := by simp; omega
  simp only [stepped, List.getD_eq_getElem?_getD]
  by_cases hlt : x < i
  · rw [if_pos hlt, List.getElem?_append_left (by omega), List.getElem?_take, if_pos hlt]
  rw [if_neg hlt, List.getElem?_append_right (by omega), hlen]
  by_cases he : x = i
  · simp [he]
  · obtain ⟨d, rfl⟩ : ∃ d, x = i + 1 + d := ⟨x - i - 1, by omega⟩
    have hd : i + 1 + d - i = d + 1 := by omega
    rw [if_neg he, hd, List.getElem?_cons_succ, List.getElem?_drop]

/-- A thread whose later parts are all one has nothing to give. -/
theorem nextSchedAt_none {n : Nat} {kps w : List Nat} {parts : List (List Nat)} {i : Nat}
    (htail : ∀ x ∈ (parts.getD i []).tail, x ≤ 1) :
    nextSchedAt n kps w.length (layout w parts) w i = none := by
  unfold nextSchedAt
  cases hidx1 : (List.range' 1 (w.length - 1)).reverse.find? fun j =>
      w[j]? = some i ∧ 1 < ((layout w parts).getD j []).count i with
  | none => rfl
  | some j =>
    obtain ⟨_, _, hq, _⟩ := find?_range'_reverse_eq_some.mp hidx1
    obtain ⟨hj, hbig⟩ := of_decide_eq_true hq
    rw [layout_count hj] at hbig
    have hrank : (w.take j).count i = 0 := by
      by_contra hne
      obtain ⟨r, hr⟩ := Nat.exists_eq_succ_of_ne_zero hne
      rw [hr] at hbig
      have := htail _ (getD_mem_tail (Nat.lt_trans Nat.one_pos hbig))
      rw [Nat.succ_eq_add_one] at hbig
      omega
    have hidx2 : lastPeriodOf w i j = none := by
      cases h : lastPeriodOf w i j with
      | none => rfl
      | some j' =>
        obtain ⟨hlt, hj', _⟩ := lastPeriodOf_eq_some.mp h
        have := count_take_lt hj' hlt
        omega
    simp [hidx2]

section Giving
variable {pre post : List Nat} {a b : Nat}

theorem giving_getD_left (a' b' r : Nat) (h1 : r ≠ pre.length) (h2 : r ≠ pre.length + 1) :
    (pre ++ a :: b :: post).getD r 0 = (pre ++ a' :: b' :: post).getD r 0 := by
  simp only [List.getD_eq_getElem?_getD]
  rcases Nat.lt_or_ge r pre.length with hr | hr
  · rw [List.getElem?_append_left hr, List.getElem?_append_left hr]
  · obtain ⟨d, rfl⟩ : ∃ d, r = pre.length + (d + 2) := ⟨r - pre.length - 2, by omega⟩
    rw [List.getElem?_append_right (by omega), List.getElem?_append_right (by omega),
      Nat.add_sub_cancel_left]
    rfl

theorem giving_getD_giver : (pre ++ a :: b :: post).getD (pre.length + 1) 0 = b := by
  rw [List.getD_eq_getElem?_getD, List.getElem?_append_right (by omega), Nat.add_sub_cancel_left]
  rfl

theorem giving_getD_taker : (pre ++ a :: b :: post).getD pre.length 0 = a := by
  simp

theorem giving_getD_after {r : Nat} (hpost : ∀ x ∈ post, x ≤ 1) (hr : pre.length + 1 < r) :
    (pre ++ a :: b :: post).getD r 0 ≤ 1 := by
  obtain ⟨d, rfl⟩ : ∃ d, r = pre.length + (d + 2) := ⟨r - pre.length - 2, by omega⟩
  rw [List.getD_eq_getElem?_getD, List.getElem?_append_right (by omega), Nat.add_sub_cancel_left,
    List.getElem?_cons_succ, List.getElem?_cons_succ]
  cases hx : post[d]? with
  | none => exact Nat.zero_le 1
  | some x => exact hpost x (List.mem_of_getElem? hx)

end Giving

theorem erase_replicate_self (m i : Nat) :
    (List.replicate m i).erase i = List.replicate (m - 1) i := by
  cases m with
  | zero => rfl
  | succ m => rw [List.replicate_succ, List.erase_cons_head, Nat.add_sub_cancel]

/-- The period that gives a key point is the last one with more than one of them. -/
theorem find?_giver {w : List Nat} {parts : List (List Nat)} {i a b j : Nat} {pre post : List Nat}
    (hj : w[j]? = some i) (hr : (w.take j).count i = pre.length + 1)
    (hpart : parts.getD i [] = pre ++ a :: b :: post) (hb : 1 < b) (hpost : ∀ x ∈ post, x ≤ 1) :
    ((List.range' 1 (w.length - 1)).reverse.find? fun j =>
      w[j]? = some i ∧ 1 < ((layout w parts).getD j []).count i) = some j := by
  have hlen := (List.getElem?_eq_some_iff.mp hj).1
  have hpos : 0 < j := by
    rcases Nat.eq_zero_or_pos j with rfl | hpos
    · simp at hr
    · exact hpos
  refine find?_range'_reverse_eq_some.mpr ⟨by omega, by omega, ?_, fun j' hj' _ => ?_⟩
  · rw [decide_eq_true_eq, layout_count hj, hr, hpart, giving_getD_giver]
    exact ⟨hj, hb⟩
  · rw [decide_eq_false_iff_not]
    intro h
    have hrank := count_take_lt hj hj'
    have hle := giving_getD_after (a := a) (b := b) hpost (hr ▸ hrank)
    have hbig := h.2
    rw [layout_count h.1, hpart] at hbig
    omega

theorem lastPeriodOf_of_count {w : List Nat} {i j k r : Nat} (hj : w[j]? = some i)
    (hrj : (w.take j).count i = r) (hrk : (w.take k).count i = r + 1) :
    lastPeriodOf w i k = some j := by
  have hlt : j < k := by
    by_contra hge
    have := count_take_mono (l := w) (Nat.le_of_not_lt hge) i
    omega
  refine lastPeriodOf_eq_some.mpr ⟨hlt, hj, fun m hm hmk hmi => ?_⟩
  have := count_take_lt hj hm
  have := count_take_lt hmi hmk
  omega

/-- The last part that can spare a key point gives it to the part before. -/
theorem nextSchedAt_some {n : Nat} {kps w : List Nat} {parts : List (List Nat)} {i a b : Nat}
    {pre post : List Nat} (hw : ∀ x ∈ w, x < n) (hparts : Parted n w parts) (hi : i < n)
    (hpart : parts.getD i [] = pre ++ a :: b :: post) (hb : 1 < b) (hpost : ∀ x ∈ post, x ≤ 1) :
    nextSchedAt n kps w.length (layout w parts) w i =
      some (layout w (stepped n kps w parts i (pre ++ (a + 1) :: (b - 1) :: post))) := by
  have hcount := hparts.part_length i hi
  rw [hpart] at hcount
  simp only [List.length_append, List.length_cons] at hcount
  obtain ⟨j1, hj1, hr1⟩ := exists_occurrence (l := w) (a := i) (r := pre.length + 1) (by omega)
  obtain ⟨j2, hj2, hr2⟩ := exists_occurrence (l := w) (a := i) (r := pre.length) (by omega)
  have hidx1 := find?_giver hj1 hr1 hpart hb hpost
  have hidx2 := lastPeriodOf_of_count hj2 hr2 hr1
  have hlt := (lastPeriodOf_eq_some.mp hidx2).1
  unfold nextSchedAt
  rw [hidx1]
  simp only [Option.bind_eq_bind, Option.bind_some, hidx2, Option.pure_def, Option.some.injEq]
  have hilen : i < parts.length := by
    rw [hparts.length_eq]
    exact hi
  apply List.ext_getElem?
  intro j
  rw [List.getElem?_mapIdx, List.getElem?_modify, List.getElem?_modify, layout_getElem?,
    layout_getElem?]
  cases hj : w[j]? with
  | none => rfl
  | some x =>
    have hx := hw x (List.mem_of_getElem? hj)
    have hfresh : (initSched n kps w.length w).getD j [] =
        List.replicate (((startParts n kps w).getD x []).getD ((w.take j).count x) 0) x := by
      rw [initSched_eq hw, List.getD_eq_getElem?_getD, layout_getElem?, hj]
      rfl
    have hletter : w.getD j 0 = x := by
      rw [List.getD_eq_getElem?_getD, hj]
      rfl
    simp only [Option.map_eq_map, Option.map_some, hletter, hfresh, stepped_getD hilen,
      Option.some.injEq]
    rcases Nat.lt_trichotomy x i with hxi | hxi | hxi
    · have hne1 : j1 ≠ j := fun h => by rw [h, hj] at hj1; cases hj1; omega
      have hne2 : j2 ≠ j := fun h => by rw [h, hj] at hj2; cases hj2; omega
      rw [if_pos (Nat.le_of_lt hxi), if_pos hxi, if_neg hne1, if_neg hne2]
    · subst hxi
      rw [if_pos (Nat.le_refl x), if_neg (Nat.lt_irrefl x), if_pos rfl, hpart]
      by_cases h1 : j1 = j
      · subst h1
        rw [if_neg (by omega), if_pos rfl, hr1, giving_getD_giver, giving_getD_giver]
        exact erase_replicate_self b x
      by_cases h2 : j2 = j
      · subst h2
        rw [if_pos rfl, if_neg h1, hr2, giving_getD_taker, giving_getD_taker]
        exact (List.replicate_succ' (n := a) (a := x)).symm
      · have hne1 : (w.take j).count x ≠ pre.length + 1 := fun h =>
          h1 (occurrence_unique hj1 hj (hr1.trans h.symm))
        have hne2 : (w.take j).count x ≠ pre.length := fun h =>
          h2 (occurrence_unique hj2 hj (hr2.trans h.symm))
        rw [if_neg h1, if_neg h2, giving_getD_left (a + 1) (b - 1) _ hne2 hne1]
    · rw [if_neg (by omega), if_neg (by omega), if_neg (by omega)]

/-! ## The schedules of a word -/

def wheels (n : Nat) (kps w : List Nat) : List (Wheel (List Nat)) :=
  (List.range n).map fun i => ⟨shift, firstParts (w.count i) (kpsOf kps i)⟩

def partLists (n : Nat) (kps w : List Nat) : List (List (List Nat)) :=
  (List.range n).map fun i => spreads (w.count i) (kpsOf kps i)

def layouts (n : Nat) (kps w : List Nat) : List Schedule :=
  (readings (partLists n kps w)).map (layout w)

theorem wheels_show {n : Nat} {kps w : List Nat} (h : ∀ i, w.count i ≤ kpsOf kps i) :
    List.Forall₂ Wheel.Shows (wheels n kps w) (partLists n kps w) := by
  rw [wheels, partLists, List.forall₂_map_left_iff, List.forall₂_map_right_iff, List.forall₂_same]
  intro i _
  exact ⟨spreads_head _ _ (h i), shift_walks _ _ (h i)⟩

theorem wheels_first (n : Nat) (kps w : List Nat) :
    (wheels n kps w).map Wheel.first = startParts n kps w := by
  simp [wheels, startParts]

theorem mem_part_readings {n : Nat} {kps w : List Nat} {parts : List (List Nat)} :
    parts ∈ readings (partLists n kps w) ↔
      parts.length = n ∧ ∀ i, i < n → parts.getD i [] ∈ spreads (w.count i) (kpsOf kps i) := by
  rw [mem_readings, List.forall₂_iff_get]
  simp only [partLists, List.length_map, List.length_range, List.get_eq_getElem, List.getElem_map,
    List.getElem_range]
  constructor
  · intro h
    refine ⟨h.1, fun i hi => ?_⟩
    have hlen : i < parts.length := by omega
    rw [List.getD_eq_getElem _ _ hlen]
    exact h.2 i hlen hi
  · intro h
    refine ⟨h.1, fun i hlen hi => ?_⟩
    have := h.2 i hi
    rwa [List.getD_eq_getElem _ _ hlen] at this

theorem parted_of_mem {n : Nat} {kps w : List Nat} {parts : List (List Nat)}
    (hle : ∀ i, w.count i ≤ kpsOf kps i) (h : parts ∈ readings (partLists n kps w)) :
    Parted n w parts :=
  ⟨(mem_part_readings.mp h).1, fun i hi => (spreads_part (hle i) ((mem_part_readings.mp h).2 i hi)).1⟩

theorem nextSched_eq {n : Nat} {kps w : List Nat} {parts : List (List Nat)}
    (hw : ∀ x ∈ w, x < n) (hparts : Parted n w parts) :
    nextSched n kps w.length (layout w parts) w =
      (carry (wheels n kps w) parts).map (layout w) := by
  have hlen : (wheels n kps w).length = n := by simp [wheels]
  rw [carry_eq_findSome _ _ (by rw [hparts.length_eq, hlen]), List.map_findSome?, hlen, nextSched]
  apply findSome?_congr_on
  intro i hi
  have hi : i < n := by simpa using hi
  have hilen : i < parts.length := by
    rw [hparts.length_eq]
    exact hi
  have hwheel : (wheels n kps w)[i]? = some ⟨shift, firstParts (w.count i) (kpsOf kps i)⟩ := by
    simp [wheels, hi]
  have hpart : parts[i]? = some (parts.getD i []) := by
    rw [List.getD_eq_getElem _ _ hilen, List.getElem?_eq_getElem hilen]
  have hturn : (⟨shift, firstParts (w.count i) (kpsOf kps i)⟩ : Wheel (List Nat)).turn
      (parts.getD i []) = shift (parts.getD i []) := rfl
  rw [Function.comp_apply, hwheel, hpart, Option.bind_some, Option.bind_some, Option.map_map, hturn]
  rcases shift_cases (parts.getD i []) with ⟨hnone, htail⟩ | ⟨pre, a, b, post, hsplit, hb, hpost⟩
  · rw [hnone, nextSchedAt_none htail]
    rfl
  · rw [nextSchedAt_some hw hparts hi hsplit hb hpost, hsplit, shift_at pre post a b hb hpost,
      Option.map_some, Function.comp_apply, List.map_drop, wheels_first, stepped]

theorem nextSched_walks {n : Nat} {kps w : List Nat} (hw : ∀ x ∈ w, x < n)
    (hle : ∀ i, w.count i ≤ kpsOf kps i) :
    WalksTo (fun s => nextSched n kps w.length s w) (layouts n kps w) none := by
  apply walksTo_map (carry (wheels n kps w))
  · intro parts hparts
    rw [Option.or_none]
    exact nextSched_eq hw (parted_of_mem hle hparts)
  · exact (carry_walks (wheels_show hle)).2

theorem layouts_head {n : Nat} {kps w : List Nat} (hw : ∀ x ∈ w, x < n)
    (hle : ∀ i, w.count i ≤ kpsOf kps i) :
    (layouts n kps w).head? = some (initSched n kps w.length w) := by
  rw [layouts, List.head?_map, (carry_walks (wheels_show hle)).1, wheels_first, initSched_eq hw]
  rfl

section Layered
variable {γ : Type} (n p : Nat) (kps word : γ → List Nat)

def layered (vs : List γ) : List (γ × Schedule) :=
  vs.flatMap fun v => (layouts n (kps v) (word v)).map (v, ·)

/-- The next schedule of the word, or the first one of the next word. -/
def layeredStep (next : γ → Option γ) : γ × Schedule → Option (γ × Schedule)
  | (v, sched) =>
    ((nextSched n (kps v) p sched (word v)).map (v, ·)).or
      ((next v).map fun v => (v, initSched n (kps v) p (word v)))

variable {n p kps word} {vs : List γ} (hlen : ∀ v ∈ vs, (word v).length = p)
  (hlt : ∀ v ∈ vs, ∀ x ∈ word v, x < n) (hle : ∀ v ∈ vs, ∀ i, (word v).count i ≤ kpsOf (kps v) i)
include hlen hlt hle

theorem layered_runs : ∀ v ∈ vs, (layouts n (kps v) (word v)).head? =
      some (initSched n (kps v) p (word v)) ∧
    WalksTo (fun sched => nextSched n (kps v) p sched (word v)) (layouts n (kps v) (word v)) none := by
  intro v hv
  rw [← hlen v hv]
  exact ⟨layouts_head (hlt v hv) (hle v hv), nextSched_walks (hlt v hv) (hle v hv)⟩

theorem layered_head : (layered n kps word vs).head? =
    vs.head?.map fun v => (v, initSched n (kps v) p (word v)) :=
  nested_head (layered_runs hlen hlt hle)

theorem layeredStep_walks {next : γ → Option γ} (hw : WalksTo next vs none) :
    WalksTo (layeredStep n p kps word next) (layered n kps word vs) none :=
  nested_walks (layered_runs hlen hlt hle) hw

end Layered

end Period.Scheduler
