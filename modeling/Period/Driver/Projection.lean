import Mathlib.Data.List.Sort
import Period.Driver.Session
import Period.Foundation.Slots
import Period.Scheduler.Produced
import Period.Scheduler.YieldPattern

/-!
# Schedules of selected key points

For selected variables the driver schedules only some of the key points. The slots of
these are collected from `kpLocArray` hash by hash with the `M` of that time, and the yields
of a schedule are put back into a full pattern with the current `M`.
-/

namespace Period.Driver

open RowMajor
open Period.Scheduler
set_option autoImplicit false

section Collecting
variable (kpLocArray : List Nat) (M : Nat)

def markSlot (eachHashID : String) (useful : List Nat × List Nat) (i : Nat) :
    Except Halt (List Nat × List Nat) :=
  match kpLocArray[i]? with
  | none => .error .indexError
  | some loc =>
    if toString loc = eachHashID then .ok (useful.1.modify (i / M) (· + 1), useful.2 ++ [i])
    else .ok useful

/-- `useful_kp_num_list` and `useful_kp_index_list`. -/
def usefulKps (rows : Nat) (tmpHashList : List String) : Except Halt (List Nat × List Nat) := do
  let useful ← tmpHashList.foldlM (fun useful eachHashID =>
    (List.range (M * rows)).foldlM (markSlot kpLocArray M eachHashID) useful) (List.replicate rows 0, [])
  return (useful.1, useful.2.insertionSort (· ≤ ·))

/-- An entry of `directInterList`; it needs two threads. -/
def directInter (rows : Nat) (tmpHashList : List String) :
    Except Halt (Option (List Nat × List Nat)) := do
  let useful ← usefulKps kpLocArray M rows tmpHashList
  return if (useful.1.filter (· ≠ 0)).length < 2 then none else some useful

end Collecting

/-- `pattern[int(i/M)][i - int(i/M)*M] = y`. -/
def setYield (M i y : Nat) (pattern : List (List Nat)) : Except Halt (List (List Nat)) :=
  if i / M < pattern.length ∧ i - i / M * M < (pattern.getD (i / M) []).length then
    .ok (setSlot M i y pattern)
  else .error .indexError

def fillPattern (M : Nat) : List Nat → List Nat → List (List Nat) → Except Halt (List (List Nat))
  | [], _, pattern => .ok pattern
  | _ :: _, [], _ => .error .indexError
  | i :: usefulKpIndexList, y :: patternList, pattern => do
    fillPattern M usefulKpIndexList patternList (← setYield M i y pattern)

/-- The pattern with `rows` rows that the simplified pattern is put into. -/
def completePattern (M rows : Nat) (usefulKpIndexList : List Nat)
    (simplicityPattern : List (List Nat)) : Except Halt (List (List Nat)) :=
  fillPattern M usefulKpIndexList simplicityPattern.flatten (List.replicate rows (List.replicate M 0))

section Statement
variable (kpLocArray : List Nat) (tmpHashList : List String) (M rows : Nat)

def hashedAs (i : Nat) (eachHashID : String) : Bool :=
  match kpLocArray[i]? with
  | none => false
  | some loc => toString loc = eachHashID

def selects (i : Nat) : Bool := tmpHashList.any (hashedAs kpLocArray i)

def SelectedAt (t k : Nat) : Prop :=
  t < rows ∧ k < M ∧ selects kpLocArray tmpHashList (t * M + k) = true

structure CountedOnce (useful : List Nat × List Nat) : Prop where
  index : ∀ t k, t < rows → k < M → useful.2.count (t * M + k) =
    if selects kpLocArray tmpHashList (t * M + k) then 1 else 0
  num : ∀ t, t < rows → kpsOf useful.1 t = rank (selects kpLocArray tmpHashList) M t M

/-- The sum of the yields up to a selected key point is the number of the period that the
schedule puts it in; no yield stands anywhere else. -/
structure Lifted (sched : Schedule) (pattern : List (List Nat)) : Prop where
  selected : ∀ t k j, SelectedAt kpLocArray tmpHashList M rows t k →
    LiesIn sched t (rank (selects kpLocArray tmpHashList) M t k) j →
    ((pattern.getD t []).take (k + 1)).sum = j
  other : ∀ t k, ¬ SelectedAt kpLocArray tmpHashList M rows t k → entry pattern t k = 0

/-- No slot is selected by two entries of the hash list. -/
def DistinctHashes : Prop :=
  ∀ i, i < M * rows → tmpHashList.countP (hashedAs kpLocArray i) ≤ 1

/-- The schedule puts the selected key points of all threads but the first into its first
period. -/
def OthersFirst (sched : Schedule) : Prop :=
  ∀ t k j, 0 < t → SelectedAt kpLocArray tmpHashList M rows t k →
    LiesIn sched t (rank (selects kpLocArray tmpHashList) M t k) j → j = 0

end Statement

section Collected
variable {kpLocArray : List Nat} {M rows : Nat} {tmpHashList : List String}

theorem markSlots_spec {eachHashID : String} {l : List Nat} {useful useful' : List Nat × List Nat}
    (h : l.foldlM (markSlot kpLocArray M eachHashID) useful = .ok useful') :
    useful'.2 = useful.2 ++ l.filter (fun i => hashedAs kpLocArray i eachHashID) ∧
      ∀ t : Nat, useful'.1[t]? = useful.1[t]?.map
        (· + (l.filter (fun i => hashedAs kpLocArray i eachHashID)).countP fun i => i / M = t) := by
  induction l generalizing useful with
  | nil =>
    cases h
    simp
  | cons i l ih =>
    rw [List.foldlM_cons] at h
    simp only [Bind.bind, Except.bind] at h
    unfold markSlot at h
    cases hloc : kpLocArray[i]? with
    | none =>
      rw [hloc] at h
      cases h
    | some loc =>
      rw [hloc] at h
      by_cases hhash : toString loc = eachHashID
      · have hmatch : hashedAs kpLocArray i eachHashID = true := by
          unfold hashedAs
          rw [hloc]
          exact decide_eq_true hhash
        simp only [if_pos hhash] at h
        obtain ⟨hindex, hnum⟩ := ih h
        rw [List.filter_cons_of_pos (p := fun i => hashedAs kpLocArray i eachHashID) hmatch]
        constructor
        · rw [hindex, List.append_assoc]
          rfl
        · intro t
          rw [hnum, List.getElem?_modify, Option.map_eq_map, Option.map_map, List.countP_cons]
          congr 1
          funext c
          by_cases ht : i / M = t
          · simp [ht]
            omega
          · simp [ht]
      · have hmatch : ¬ hashedAs kpLocArray i eachHashID = true := by
          unfold hashedAs
          rw [hloc]
          exact fun h => hhash (of_decide_eq_true h)
        simp only [if_neg hhash] at h
        rw [List.filter_cons_of_neg (p := fun i => hashedAs kpLocArray i eachHashID) hmatch]
        exact ih h

def foundSlots (kpLocArray : List Nat) (M rows : Nat) (tmpHashList : List String) : List Nat :=
  tmpHashList.flatMap fun eachHashID =>
    (List.range (M * rows)).filter fun i => hashedAs kpLocArray i eachHashID

theorem usefulKps_spec {useful : List Nat × List Nat}
    (h : usefulKps kpLocArray M rows tmpHashList = .ok useful) :
    useful.2 = (foundSlots kpLocArray M rows tmpHashList).insertionSort (· ≤ ·) ∧
      useful.1 = (List.range rows).map fun t =>
        (foundSlots kpLocArray M rows tmpHashList).countP fun i => i / M = t := by
  have hfold : ∀ (hashes : List String) (start useful : List Nat × List Nat),
      hashes.foldlM (fun useful eachHashID =>
        (List.range (M * rows)).foldlM (markSlot kpLocArray M eachHashID) useful) start = .ok useful →
      useful.2 = start.2 ++ foundSlots kpLocArray M rows hashes ∧
        ∀ t : Nat, useful.1[t]? = start.1[t]?.map
          (· + (foundSlots kpLocArray M rows hashes).countP fun i => i / M = t) := by
    intro hashes
    induction hashes with
    | nil =>
      intro start useful h
      cases h
      simp [foundSlots]
    | cons eachHashID hashes ih =>
      intro start useful h
      rw [List.foldlM_cons] at h
      simp only [Bind.bind, Except.bind] at h
      split at h
      · cases h
      · next mid hmid =>
        obtain ⟨hindex, hnum⟩ := ih mid useful h
        obtain ⟨hindex', hnum'⟩ := markSlots_spec hmid
        constructor
        · rw [hindex, hindex', foundSlots, foundSlots, List.flatMap_cons, List.append_assoc]
        · intro t
          rw [hnum, hnum', Option.map_map, foundSlots, foundSlots, List.flatMap_cons,
            List.countP_append]
          congr 1
          funext c
          exact Nat.add_assoc _ _ _
  unfold usefulKps at h
  simp only [Bind.bind, Except.bind, Pure.pure, Except.pure] at h
  split at h
  · cases h
  · next found hfound =>
    cases h
    obtain ⟨hindex, hnum⟩ := hfold _ _ _ hfound
    constructor
    · rw [hindex]
      rfl
    · apply List.ext_getElem?
      intro t
      rw [hnum, List.getElem?_map, List.getElem?_replicate]
      by_cases ht : t < rows
      · rw [if_pos ht, List.getElem?_range ht, Option.map_some, Option.map_some, Nat.zero_add]
      · rw [if_neg ht, List.getElem?_eq_none (by rw [List.length_range]; omega)]
        rfl

theorem count_foundSlots (i : Nat) (hi : i < M * rows) :
    (foundSlots kpLocArray M rows tmpHashList).count i =
      tmpHashList.countP (hashedAs kpLocArray i) := by
  induction tmpHashList with
  | nil => rfl
  | cons eachHashID hashes ih =>
    rw [foundSlots] at ih ⊢
    rw [List.flatMap_cons, List.count_append, ih, List.countP_cons, Nat.add_comm]
    congr 1
    by_cases hmatch : hashedAs kpLocArray i eachHashID = true
    · rw [List.count_filter (p := fun i => hashedAs kpLocArray i eachHashID) hmatch, if_pos hmatch]
      exact List.count_eq_one_of_mem List.nodup_range (List.mem_range.mpr hi)
    · rw [if_neg hmatch]
      exact List.count_eq_zero.mpr fun hmem => hmatch (List.mem_filter.mp hmem).2

theorem selects_iff_countP (kpLocArray : List Nat) (tmpHashList : List String) (i : Nat) :
    selects kpLocArray tmpHashList i = true ↔ 0 < tmpHashList.countP (hashedAs kpLocArray i) := by
  rw [selects, List.any_eq_true, List.countP_pos_iff]

/-- With distinct hashes the sorted list is the list of the selected slots, row by row. -/
theorem sorted_foundSlots (h : DistinctHashes kpLocArray tmpHashList M rows) :
    (foundSlots kpLocArray M rows tmpHashList).insertionSort (· ≤ ·) =
      (List.range rows).flatMap (slotsOf (selects kpLocArray tmpHashList) M) := by
  rw [← filter_range_mul, Nat.mul_comm rows M]
  have hperm : List.Perm ((foundSlots kpLocArray M rows tmpHashList).insertionSort (· ≤ ·))
      ((List.range (M * rows)).filter (selects kpLocArray tmpHashList)) := by
    apply (List.perm_insertionSort _ _).trans
    apply List.perm_iff_count.mpr
    intro i
    by_cases hi : i < M * rows
    · rw [count_foundSlots i hi]
      have hle := h i hi
      have hiff := selects_iff_countP kpLocArray tmpHashList i
      by_cases hsel : selects kpLocArray tmpHashList i = true
      · rw [List.count_filter hsel, List.count_eq_one_of_mem List.nodup_range (List.mem_range.mpr hi)]
        have := hiff.mp hsel
        omega
      · rw [List.count_eq_zero.mpr fun hmem => hsel (List.mem_filter.mp hmem).2]
        by_contra hne
        exact hsel (hiff.mpr (Nat.pos_of_ne_zero hne))
    · rw [List.count_eq_zero.mpr, List.count_eq_zero.mpr]
      · exact fun hmem => hi (List.mem_range.mp (List.mem_filter.mp hmem).1)
      · intro hmem
        obtain ⟨eachHashID, _, hmem⟩ := List.mem_flatMap.mp hmem
        exact hi (List.mem_range.mp (List.mem_filter.mp hmem).1)
  apply hperm.eq_of_pairwise' (List.pairwise_insertionSort _ _)
  exact (List.pairwise_lt_range.imp fun h => Nat.le_of_lt h).filter _

theorem countedOnce_iff {useful : List Nat × List Nat}
    (h : usefulKps kpLocArray M rows tmpHashList = .ok useful) :
    CountedOnce kpLocArray tmpHashList M rows useful ↔
      DistinctHashes kpLocArray tmpHashList M rows := by
  obtain ⟨hindex, hnum⟩ := usefulKps_spec h
  constructor
  · intro hcounted i hi
    rw [Nat.mul_comm] at hi
    obtain ⟨t, k, ht, hk, rfl⟩ := exists_place hi
    have hone := hcounted.index t k ht hk
    have hslot : t * M + k < M * rows := by
      rw [Nat.mul_comm M rows]
      exact hi
    rw [hindex, (List.perm_insertionSort _ _).count_eq, count_foundSlots _ hslot] at hone
    rw [hone]
    split <;> omega
  · intro hdistinct
    have hsorted := sorted_foundSlots hdistinct
    constructor
    · intro t k ht hk
      have hi : t * M + k < rows * M := (index_lt hk).mpr ht
      rw [hindex, hsorted, ← filter_range_mul]
      split
      · next hsel =>
        rw [List.count_filter hsel]
        exact List.count_eq_one_of_mem List.nodup_range (List.mem_range.mpr hi)
      · next hsel => exact List.count_eq_zero.mpr fun hmem => hsel (List.mem_filter.mp hmem).2
    · intro t ht
      rw [hnum, kpsOf, List.getD_eq_getElem?_getD, List.getElem?_map, List.getElem?_range ht,
        Option.map_some, Option.getD_some, ← (List.perm_insertionSort (· ≤ ·) _).countP_eq, hsorted]
      exact countP_row ht

end Collected

/-! ## The filled pattern -/

theorem fillPattern_spec {M : Nat} {indexes ys : List Nat} {pattern : List (List Nat)}
    (huniform : Uniform M pattern) (hlen : indexes.length ≤ ys.length)
    (hroom : ∀ i ∈ indexes, i < pattern.length * M) (hnodup : indexes.Nodup) :
    ∃ pattern', fillPattern M indexes ys pattern = .ok pattern' ∧ Uniform M pattern' ∧
      pattern'.length = pattern.length ∧
      ∀ t k, t < pattern.length → k < M →
        (∀ y, (t * M + k, y) ∈ indexes.zip ys → entry pattern' t k = y) ∧
        (t * M + k ∉ indexes → entry pattern' t k = entry pattern t k) := by
  induction indexes generalizing ys pattern with
  | nil =>
    refine ⟨pattern, rfl, huniform, rfl, fun t k _ _ => ⟨?_, fun _ => rfl⟩⟩
    intro y hy
    cases hy
  | cons i indexes ih =>
    cases ys with
    | nil => cases hlen
    | cons y ys =>
      obtain ⟨hi, hnodup⟩ := List.nodup_cons.mp hnodup
      obtain ⟨u, l, hu, hl, hplace⟩ := exists_place (hroom i List.mem_cons_self)
      have hdiv : i / M = u := by
        rw [hplace]
        exact index_div hl u
      have hset : setYield M i y pattern = .ok (setSlot M i y pattern) := by
        unfold setYield
        apply if_pos
        rw [hdiv]
        refine ⟨hu, ?_⟩
        rw [List.getD_eq_getElem _ _ hu, huniform _ (List.getElem_mem hu), hplace]
        omega
      have hsame := setSlot_length M i y pattern
      obtain ⟨pattern', hfill, huniform', hlen', hentries⟩ :=
        ih (setSlot_uniform (x := i) (a := y) huniform) (Nat.le_of_succ_le_succ hlen)
          (fun j hj => by rw [hsame]; exact hroom j (List.mem_cons_of_mem i hj)) hnodup
      refine ⟨pattern', ?_, huniform', hlen'.trans hsame, ?_⟩
      · rw [fillPattern, hset]
        exact hfill
      · intro t k ht hk
        obtain ⟨hput, hkept⟩ := hentries t k (by rw [hsame]; exact ht) hk
        have hentry := entry_setSlot (x := i) (a := y) huniform ht hk
        constructor
        · intro z hz
          rw [List.zip_cons_cons] at hz
          rcases List.mem_cons.mp hz with hz | hz
          · obtain ⟨rfl, rfl⟩ := Prod.mk.inj hz
            rw [hkept hi, hentry, if_pos rfl]
          · exact hput z hz
        · intro hout
          rw [hkept (List.not_mem_of_not_mem_cons hout), hentry,
            if_neg (Ne.symm (List.ne_of_not_mem_cons hout))]

section Values
variable (q : Nat → Bool) (M rows : Nat) (sched : Schedule)

def slotYield (x : Nat) : Nat :=
  if x < rows * M ∧ q x = true then waits sched (x / M) (rank q M (x / M) (x % M)) else 0

variable {q M rows}

theorem slotYield_at {t k : Nat} (ht : t < rows) (hk : k < M) :
    slotYield q M rows sched (t * M + k) =
      if q (t * M + k) = true then waits sched t (rank q M t k) else 0 := by
  have hin : t * M + k < rows * M := (index_lt hk).mpr ht
  unfold slotYield
  rw [index_div hk, index_mod hk]
  simp only [hin, true_and]

theorem rank_lt {t k : Nat} (hk : k < M) (hq : q (t * M + k) = true) :
    rank q M t k < rank q M t M := by
  have hsucc := rank_succ (q := q) (m := M) t k
  rw [if_pos hq] at hsucc
  have hmono := rank_mono (q := q) (m := M) t (Nat.succ_le_of_lt hk)
  rw [Nat.succ_eq_add_one, hsucc] at hmono
  omega

theorem completePattern_spec {M' rows' n : Nat} {kps : List Nat} (hM : M ≤ M') (hrows : rows ≤ rows')
    (hn : rows ≤ n) (hkps : ∀ t, t < rows → kpsOf kps t = rank q M t M) :
    ∃ pattern, completePattern M' rows' ((List.range rows).flatMap (slotsOf q M))
        (getYieldPattern n kps sched) = .ok pattern ∧
      ∀ t k, entry pattern t k = view rows' M' (slotYield q M rows sched) t k := by
  obtain ⟨d, rfl⟩ := Nat.exists_eq_add_of_le hn
  have hsplit : (getYieldPattern (rows + d) kps sched).flatten =
      (List.range rows).flatMap (fun t => yieldRow sched t (kpsOf kps t)) ++
        ((List.range d).map (rows + ·)).flatMap fun t => yieldRow sched t (kpsOf kps t) := by
    rw [getYieldPattern_eq, ← List.flatMap_def, List.range_add, List.flatMap_append]
  have hblocks : ∀ t ∈ List.range rows,
      (slotsOf q M t).length = (yieldRow sched t (kpsOf kps t)).length := by
    intro t ht
    rw [slotsOf_length, yieldRow, List.length_map, List.length_range, hkps t (List.mem_range.mp ht)]
  have hzip := zip_flatMap hblocks
    (((List.range d).map (rows + ·)).flatMap fun t => yieldRow sched t (kpsOf kps t))
  rw [← hsplit] at hzip
  have hlen : ((List.range rows).flatMap (slotsOf q M)).length ≤
      (getYieldPattern (rows + d) kps sched).flatten.length := by
    rw [hsplit, List.length_append, List.length_flatMap, List.length_flatMap,
      List.map_congr_left hblocks]
    exact Nat.le_add_right _ _
  have hbox : rows * M ≤ rows' * M' := Nat.mul_le_mul hrows hM
  have hmem : ∀ x, x ∈ (List.range rows).flatMap (slotsOf q M) ↔ x < rows * M ∧ q x = true := by
    intro x
    rw [← filter_range_mul, List.mem_filter, List.mem_range]
  have hnodup : ((List.range rows).flatMap (slotsOf q M)).Nodup := by
    rw [← filter_range_mul]
    exact List.nodup_range.filter _
  have hzeros : Uniform M' (List.replicate rows' (List.replicate M' 0)) := by
    intro row hrow
    rw [(List.mem_replicate.mp hrow).2, List.length_replicate]
  obtain ⟨pattern, hfill, huniform, hlength, hentries⟩ := fillPattern_spec hzeros hlen
    (fun x hx => by rw [List.length_replicate]; exact Nat.lt_of_lt_of_le ((hmem x).mp hx).1 hbox) hnodup
  rw [List.length_replicate] at hlength hentries
  refine ⟨pattern, hfill, ?_⟩
  intro t k
  unfold view
  by_cases hin : t < rows' ∧ k < M'
  · rw [if_pos hin]
    obtain ⟨hput, hkept⟩ := hentries t k hin.1 hin.2
    by_cases hx : t * M' + k < rows * M ∧ q (t * M' + k) = true
    · obtain ⟨u, l, hu, hl, hplace⟩ := exists_place hx.1
      rw [hplace] at hput hx ⊢
      rw [slotYield_at sched hu hl, if_pos hx.2]
      apply hput
      rw [hzip]
      refine List.mem_flatMap.mpr ⟨u, List.mem_range.mpr hu, ?_⟩
      apply List.mem_of_getElem? (i := rank q M u l)
      rw [List.getElem?_zip_eq_some]
      refine ⟨slotsOf_getElem? hl hx.2, ?_⟩
      rw [yieldRow, List.getElem?_map, List.getElem?_range (by rw [hkps u hu]; exact rank_lt hl hx.2)]
      rfl
    · rw [hkept fun hin => hx ((hmem _).mp hin), entry_replicate]
      exact (if_neg hx).symm
  · rw [if_neg hin]
    exact entry_outside huniform hlength hin

/-- The yields of the selected key points up to one of them add up to its period. -/
theorem sum_view {t k : Nat} (ht : t < rows) (hk : k < M) (hq : q (t * M + k) = true) :
    ((List.range (k + 1)).map fun d => view rows M (slotYield q M rows sched) t d).sum =
      periodOf sched t (rank q M t k) := by
  have hview : ∀ d ∈ List.range (k + 1), view rows M (slotYield q M rows sched) t d =
      if q (t * M + d) = true then waits sched t (rank q M t d) else 0 := by
    intro d hd
    have hd : d < M := by
      have := List.mem_range.mp hd
      omega
    unfold view
    rw [if_pos ⟨ht, hd⟩, slotYield_at sched ht hd]
  rw [List.map_congr_left hview, sum_ranks (waits sched t) t (k + 1), rank_succ, if_pos hq]
  have hrow := @yieldRow_take_sum sched t _ _ (Nat.lt_succ_self (rank q M t k))
  rw [yieldRow, List.take_of_length_le (by simp)] at hrow
  exact hrow

end Values

/-! ## When the pattern is right -/

theorem sum_take (l : List Nat) (n : Nat) :
    (l.take n).sum = ((List.range n).map fun d => l.getD d 0).sum := by
  induction n with
  | zero => rfl
  | succ n ih =>
    rw [List.take_add_one, List.sum_append, ih, List.range_succ, List.map_append, List.sum_append,
      List.map_singleton, List.sum_singleton, List.getD_eq_getElem?_getD]
    cases l[n]? <;> rfl

theorem waits_le_periodOf (sched : Schedule) (t k : Nat) : waits sched t k ≤ periodOf sched t k := by
  apply List.countP_mono_left
  intro j _ hj
  exact decide_eq_true (Nat.le_of_eq (of_decide_eq_true hj))

section Lifting
variable {kpLocArray : List Nat} {tmpHashList : List String} {M rows M' rows' : Nat}
  {sched : Schedule} {pattern : List (List Nat)}
  (hplaced : ∀ t k, SelectedAt kpLocArray tmpHashList M rows t k →
    ∃ j, LiesIn sched t (rank (selects kpLocArray tmpHashList) M t k) j)

include hplaced in
/-- The pattern is right when it looks the same under both strides. -/
theorem lifted_iff_views (hentries : ∀ t k, entry pattern t k =
      view rows' M' (slotYield (selects kpLocArray tmpHashList) M rows sched) t k) :
    Lifted kpLocArray tmpHashList M rows sched pattern ↔
      ∀ t k, view rows' M' (slotYield (selects kpLocArray tmpHashList) M rows sched) t k =
        view rows M (slotYield (selects kpLocArray tmpHashList) M rows sched) t k := by
  have hsum : ∀ t k, ((pattern.getD t []).take k).sum =
      ((List.range k).map fun d =>
        view rows' M' (slotYield (selects kpLocArray tmpHashList) M rows sched) t d).sum := by
    intro t k
    rw [sum_take]
    congr 1
    exact List.map_congr_left fun d _ => hentries t d
  have hzero : ∀ t k, ¬ SelectedAt kpLocArray tmpHashList M rows t k →
      view rows M (slotYield (selects kpLocArray tmpHashList) M rows sched) t k = 0 := by
    intro t k hout
    unfold view
    split
    · next hin =>
      rw [slotYield_at sched hin.1 hin.2, if_neg fun hq => hout ⟨hin.1, hin.2, hq⟩]
    · rfl
  constructor
  · intro h t
    -- the sums of both rows agree up to every entry
    have hprefix : ∀ c, ((List.range c).map fun d =>
          view rows' M' (slotYield (selects kpLocArray tmpHashList) M rows sched) t d).sum =
        ((List.range c).map fun d =>
          view rows M (slotYield (selects kpLocArray tmpHashList) M rows sched) t d).sum := by
      intro c
      induction c with
      | zero => rfl
      | succ c ih =>
        by_cases hsel : SelectedAt kpLocArray tmpHashList M rows t c
        · obtain ⟨j, hj⟩ := hplaced t c hsel
          rw [← hsum, h.selected t c j hsel hj, sum_view sched hsel.1 hsel.2.1 hsel.2.2,
            periodOf_eq_of_liesIn hj]
        · have hother := h.other t c hsel
          rw [hentries] at hother
          rw [List.range_succ, List.map_append, List.map_append, List.sum_append, List.sum_append, ih,
            List.map_singleton, List.map_singleton, hother, hzero t c hsel]
    intro k
    have hnext := hprefix (k + 1)
    rw [List.range_succ, List.map_append, List.map_append, List.sum_append, List.sum_append,
      hprefix k, List.map_singleton, List.map_singleton, List.sum_singleton,
      List.sum_singleton] at hnext
    exact Nat.add_left_cancel hnext
  · intro h
    constructor
    · intro t k j hsel hj
      rw [hsum, List.map_congr_left fun d _ => h t d, sum_view sched hsel.1 hsel.2.1 hsel.2.2,
        periodOf_eq_of_liesIn hj]
    · intro t k hout
      rw [hentries, h]
      exact hzero t k hout

theorem othersFirst_of_zero (hne : M' ≠ M) (hzero : ∀ x, x < rows * M → Misread rows' M' rows M x →
    slotYield (selects kpLocArray tmpHashList) M rows sched x = 0) :
    OthersFirst kpLocArray tmpHashList M rows sched := by
  intro t k j ht hsel hj
  have hrow : ∀ d, d < M → slotYield (selects kpLocArray tmpHashList) M rows sched (t * M + d) = 0 := by
    intro d hd
    have hin : t * M + d < rows * M := (index_lt hd).mpr hsel.1
    have hafter : M ≤ t * M + d :=
      Nat.le_trans (Nat.le_mul_of_pos_left M ht) (Nat.le_add_right _ _)
    apply hzero _ hin
    refine ⟨Or.inr hin, ?_⟩
    rintro ⟨_, _, heq | ⟨_, hlt⟩⟩
    · exact hne heq
    · omega
  have hperiod := sum_view sched hsel.1 hsel.2.1 hsel.2.2
  rw [periodOf_eq_of_liesIn hj] at hperiod
  rw [← hperiod]
  apply List.sum_eq_zero
  intro y hy
  obtain ⟨d, hd, rfl⟩ := List.mem_map.mp hy
  have hdM : d < M := by
    have := List.mem_range.mp hd
    have := hsel.2.1
    omega
  unfold view
  rw [if_pos ⟨hsel.1, hdM⟩]
  exact hrow d hdM

include hplaced in
theorem zero_of_othersFirst (hM : M ≤ M') (hrows : rows ≤ rows')
    (h : M' = M ∨ OthersFirst kpLocArray tmpHashList M rows sched) {x : Nat}
    (hmis : Misread rows' M' rows M x) : slotYield (selects kpLocArray tmpHashList) M rows sched x = 0 := by
  have hbox : rows * M ≤ rows' * M' := Nat.mul_le_mul hrows hM
  by_cases hx : x < rows * M
  · obtain ⟨t, k, ht, hk, rfl⟩ := exists_place hx
    rw [slotYield_at sched ht hk]
    split
    · next hq =>
      rcases h with rfl | hfirst
      · exact absurd ⟨Nat.lt_of_lt_of_le hx hbox, hx, Or.inl rfl⟩ hmis.2
      · by_cases ht0 : t = 0
        · subst ht0
          rw [Nat.zero_mul, Nat.zero_add] at hx hmis
          exact absurd ⟨Nat.lt_of_lt_of_le hx hbox, hx, Or.inr ⟨by omega, hk⟩⟩ hmis.2
        · obtain ⟨j, hj⟩ := hplaced t k ⟨ht, hk, hq⟩
          have hj0 := hfirst t k j (Nat.pos_of_ne_zero ht0) ⟨ht, hk, hq⟩ hj
          have hle := waits_le_periodOf sched t (rank (selects kpLocArray tmpHashList) M t k)
          rw [periodOf_eq_of_liesIn hj, hj0] at hle
          exact Nat.le_zero.mp hle
    · rfl
  · exact if_neg fun hin => hx hin.1

include hplaced in
/-- With a larger stride, all but the first row are read from the wrong slots. -/
theorem views_iff_othersFirst (hM : M ≤ M') (hrows : rows ≤ rows') :
    (∀ t k, view rows' M' (slotYield (selects kpLocArray tmpHashList) M rows sched) t k =
        view rows M (slotYield (selects kpLocArray tmpHashList) M rows sched) t k) ↔
      M' = M ∨ OthersFirst kpLocArray tmpHashList M rows sched := by
  have hbeyond : ∀ t k, ¬ Beyond (rows' * M' + rows * M) rows' M' rows M t k := by
    rintro t k (⟨ht, hk, hle⟩ | ⟨ht, hk, hle⟩)
    · have := (index_lt hk).mpr ht
      omega
    · have := (index_lt hk).mpr ht
      omega
  have hviews := views_eq_iff (n := rows') (m := M') (r := rows) (l := M)
    fun x (_ : x < rows' * M' + rows * M) =>
      Eq.refl (slotYield (selects kpLocArray tmpHashList) M rows sched x)
  rw [hviews]
  constructor
  · rintro ⟨hzero, _⟩
    by_cases hsame : M' = M
    · exact Or.inl hsame
    · right
      exact othersFirst_of_zero hsame fun x hx hmis => hzero x (by omega) hmis
  · intro h
    exact ⟨fun x _ hmis => zero_of_othersFirst hplaced hM hrows h hmis,
      fun t k hout => absurd hout (hbeyond t k)⟩

end Lifting

/-- The slots are counted once, and the full pattern follows the schedule, exactly when no
slot is selected twice and `M` has not grown since, unless that does no harm. -/
theorem projection_iff {kpLocArray : List Nat} {tmpHashList : List String} {M rows M' rows' n p : Nat}
    {useful : List Nat × List Nat} {s : SBPMESched}
    (hinter : directInter kpLocArray M rows tmpHashList = .ok (some useful))
    (hM : M ≤ M') (hrows : rows ≤ rows') (hs : SBPMESched.Produced n useful.1 p s) :
    (CountedOnce kpLocArray tmpHashList M rows useful ∧
      ∃ pattern, completePattern M' rows' useful.2 (getYieldPattern s.n s.kps s.sched) = .ok pattern ∧
        Lifted kpLocArray tmpHashList M rows s.sched pattern) ↔
      DistinctHashes kpLocArray tmpHashList M rows ∧
        (M' = M ∨ OthersFirst kpLocArray tmpHashList M rows s.sched) := by
  have huseful : usefulKps kpLocArray M rows tmpHashList = .ok useful := by
    unfold directInter at hinter
    simp only [Bind.bind, Except.bind, Pure.pure, Except.pure] at hinter
    split at hinter
    · cases hinter
    · next found hfound =>
      rw [hfound]
      split at hinter
      · cases hinter
      · cases hinter
        rfl
  obtain ⟨hindex, hnum⟩ := usefulKps_spec huseful
  have hlen : useful.1.length = rows := by rw [hnum, List.length_map, List.length_range]
  rw [countedOnce_iff huseful]
  apply and_congr_right
  intro hdistinct
  have hcounted := (countedOnce_iff huseful).mpr hdistinct
  have hcount := fun t (ht : t < rows) => hs.count (hlen.symm ▸ ht)
  have hplaced : ∀ t k, SelectedAt kpLocArray tmpHashList M rows t k →
      ∃ j, LiesIn s.sched t (rank (selects kpLocArray tmpHashList) M t k) j := by
    intro t k hsel
    have hrank := rank_lt hsel.2.1 hsel.2.2
    rw [← hcounted.num t hsel.1] at hrank
    apply exists_liesIn
    rw [(hcount t hsel.1).2.2 (Nat.zero_lt_of_lt hrank)]
    exact hrank
  have hn : rows ≤ s.n := by
    rcases Nat.eq_zero_or_pos rows with h0 | hpos
    · rw [h0]
      exact Nat.zero_le _
    · have := (hcount (rows - 1) (by omega)).1
      omega
  obtain ⟨pattern, hpattern, hentries⟩ := completePattern_spec s.sched hM hrows hn
    fun t ht => (hcount t ht).2.1.trans (hcounted.num t ht)
  rw [hindex, sorted_foundSlots hdistinct, hpattern]
  have hlifted := (lifted_iff_views hplaced hentries).trans (views_iff_othersFirst hplaced hM hrows)
  constructor
  · rintro ⟨_, heq, h⟩
    cases heq
    exact hlifted.mp h
  · exact fun h => ⟨pattern, rfl, hlifted.mpr h⟩

/-- Of two threads with eight slots, the first selected key point of the one and the first two
of the other. -/
def selectedLoc : List Nat := [5, 7, 7, 7, 7, 7, 7, 7, 5, 5, 7, 7, 7, 7, 7, 7]

theorem produced_selected :
    SBPMESched.Produced 2 [1, 2] 3 (SBPMESched.atStart 2 3 [1, 2] ([0, 1], [1, 0, 1])) := by
  have hloop : initLoop 2 3 [1, 2] none 4 [] = .ok ([0, 1], [1, 0, 1]) := by rfl
  refine ⟨4, _, ?_, Relation.ReflTransGen.refl⟩
  rw [SBPMESched.init_nil (by decide) (by rfl : padKps (max 2 [1, 2].length) [1, 2] = .ok [1, 2])]
  show (initLoop 2 3 [1, 2] none 4 []).map _ = _
  rw [hloop]
  rfl

theorem directInter_selected :
    directInter selectedLoc 8 2 ["5"] = .ok (some ([1, 2], [0, 8, 9])) := by rfl

/-- The session of this selection. -/
def projectedSetup : Setup where
  varModeFlag := 1
  noPrefixRun := false
  zeroInKP := 0
  defaultCoverageHashID := 0
  directInterNum := 1
  N := 2
  M := 8
  parentArray := fun _ => 8

/-- A retest has let `M` grow to nine. -/
def grownSession : Session :=
  let reading : Reading := ⟨2, 9, fun _ => 9, fun _ => 5⟩
  Runs.run (step projectedSetup) [.depth, .test ⟨[0, 1], [], [], some reading, [reading]⟩, .finish, .depth]
    (start projectedSetup)

theorem projection_iff_selected :
    (CountedOnce selectedLoc ["5"] 8 2 ([1, 2], [0, 8, 9]) ∧
      ∃ pattern, completePattern grownSession.M grownSession.N [0, 8, 9]
          (getYieldPattern 2 [1, 2] [[1], [0], [1]]) = .ok pattern ∧
        Lifted selectedLoc ["5"] 8 2 [[1], [0], [1]] pattern) ↔
      DistinctHashes selectedLoc ["5"] 8 2 ∧
        (grownSession.M = 8 ∨ OthersFirst selectedLoc ["5"] 8 2 [[1], [0], [1]]) :=
  projection_iff directInter_selected (run_grows projectedSetup _ (start projectedSetup)).2
    (run_grows projectedSetup _ (start projectedSetup)).1 produced_selected

/-- When `M` has grown to nine, the second thread gets its yields one key point early; a hash
that is listed twice counts its slots twice. -/
theorem projection_fails :
    (∃ useful s, directInter selectedLoc 8 2 ["5"] = .ok (some useful) ∧
      SBPMESched.Produced 2 useful.1 3 s ∧
      ¬ ∃ pattern, completePattern 9 2 useful.2 (getYieldPattern s.n s.kps s.sched) = .ok pattern ∧
        Lifted selectedLoc ["5"] 8 2 s.sched pattern) ∧
    ∃ useful, directInter selectedLoc 8 2 ["5", "5"] = .ok (some useful) ∧
      ¬ CountedOnce selectedLoc ["5", "5"] 8 2 useful := by
  constructor
  · refine ⟨_, _, directInter_selected, produced_selected, ?_⟩
    rintro ⟨pattern, hpattern, h⟩
    have hfilled : completePattern 9 2 [0, 8, 9] (getYieldPattern 2 [1, 2] [[1], [0], [1]]) =
        .ok [[1, 0, 0, 0, 0, 0, 0, 0, 0], [2, 0, 0, 0, 0, 0, 0, 0, 0]] := by rfl
    cases hfilled.symm.trans hpattern
    have hsum := h.selected 1 0 0 ⟨by decide, by decide, by decide⟩ ⟨by decide, by decide⟩
    exact absurd hsum (by decide)
  · refine ⟨([2, 4], [0, 0, 8, 8, 9, 9]), by rfl, ?_⟩
    intro h
    exact absurd (h.num 0 (by decide)) (by decide)

end Period.Driver
