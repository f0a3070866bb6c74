import Period.Scheduler.PeriodSizes

/-!
# The next schedule with the same sizes

What the pool holds, told by a list of key points. `_init_sched` cuts the sorted key points;
`_next_sched` finds the pool empty and leaves it empty or with the key points of all periods but
the first.
-/

namespace Period.Scheduler.BPSched

open Rearrangement SortedParts
set_option autoImplicit false

def keyPoints (kpPool : List Nat) : List Nat :=
  (List.range kpPool.length).flatMap fun i => List.replicate (kpsOf kpPool i) i

structure Holds (n : Nat) (kpPool l : List Nat) : Prop where
  length_eq : kpPool.length = n
  perm : (keyPoints kpPool).Perm l

section Pool
variable {n x : Nat} {kpPool l l' : List Nat}

theorem keyPoints_sorted (kpPool : List Nat) : (keyPoints kpPool).Pairwise (· ≤ ·) :=
  pairwise_flatMap_replicate _ _

theorem count_keyPoints (kpPool : List Nat) (i : Nat) : (keyPoints kpPool).count i = kpsOf kpPool i := by
  rw [keyPoints, count_flatMap_replicate]
  split
  · rfl
  · next hi =>
    by_contra hne
    exact hi (kpsOf_pos_lt (Nat.pos_of_ne_zero (Ne.symm hne)))

theorem mem_keyPoints {i : Nat} : i ∈ keyPoints kpPool ↔ 0 < kpsOf kpPool i := by
  rw [← List.count_pos_iff, count_keyPoints]

theorem keyPoints_eq (hl : l.Pairwise (· ≤ ·)) (h : ∀ i, l.count i = kpsOf kpPool i) : keyPoints kpPool = l := by
  apply List.Perm.eq_of_pairwise' (keyPoints_sorted kpPool) hl
  rw [List.perm_iff_count]
  intro i
  rw [count_keyPoints, h i]

theorem length_useUp (kpPool : List Nat) (i : Nat) : (useUp kpPool i).length = kpPool.length :=
  List.length_modify _ _ _

theorem Holds.count (h : Holds n kpPool l) (i : Nat) : kpsOf kpPool i = l.count i := by
  rw [← h.perm.count_eq, count_keyPoints]

theorem holds_of_count (hlen : kpPool.length = n) (h : ∀ i, kpsOf kpPool i = l.count i) : Holds n kpPool l := by
  refine ⟨hlen, List.perm_iff_count.mpr fun i => ?_⟩
  rw [count_keyPoints, h i]

theorem Holds.useUp (h : Holds n kpPool l) (x : Nat) : Holds n (useUp kpPool x) (l.erase x) := by
  apply holds_of_count ((length_useUp kpPool x).trans h.length_eq)
  intro i
  rw [kpsOf_useUp, h.count i, List.count_erase]
  by_cases hx : x = i
  · rw [if_pos hx, if_pos (beq_iff_eq.mpr hx)]
  · rw [if_neg hx, if_neg fun h => hx (beq_iff_eq.mp h)]

theorem Holds.giveBack (h : Holds n kpPool l) (hx : x < n) : Holds n (giveBack kpPool x) (x :: l) := by
  have hlen : (BPSched.giveBack kpPool x).length = kpPool.length := List.length_modify _ _ _
  apply holds_of_count (hlen.trans h.length_eq)
  intro i
  have hx : x < kpPool.length := by rwa [h.length_eq]
  rw [List.count_cons, ← h.count i, kpsOf, kpsOf, BPSched.giveBack, List.getD_eq_getElem?_getD,
    List.getD_eq_getElem?_getD, List.getElem?_modify]
  by_cases hi : x = i
  · subst hi
    rw [List.getElem?_eq_getElem hx]
    simp
  · simp [hi]

theorem Holds.foldl_giveBack (h : Holds n kpPool l) (hl' : ∀ x ∈ l', x < n) :
    Holds n (l'.foldl BPSched.giveBack kpPool) (l' ++ l) := by
  induction l' generalizing kpPool l with
  | nil => exact h
  | cons x l' ih =>
    have hrest := ih (h.giveBack (hl' x List.mem_cons_self)) fun y hy => hl' y (List.mem_cons_of_mem x hy)
    exact ⟨hrest.length_eq, hrest.perm.trans List.perm_middle⟩

end Pool

section First
variable {n left : Nat} {kpPool : List Nat}

theorem nextThread_eq {x : Nat} {l : List Nat} (hpool : keyPoints kpPool = x :: l)
    (hn : ∀ i, i < n → kpsOf kpPool i = 0) :
    nextThread kpPool n = .ok x ∧ keyPoints (useUp kpPool x) = l ∧
      ∀ i, i < x → kpsOf (useUp kpPool x) i = 0 := by
  have hsorted := keyPoints_sorted kpPool
  rw [hpool, List.pairwise_cons] at hsorted
  have hx : 0 < kpsOf kpPool x := mem_keyPoints.mp (by rw [hpool]; exact List.mem_cons_self)
  have hbelow : ∀ i, i < x → kpsOf kpPool i = 0 := by
    intro i hi
    by_contra hne
    have hmem : i ∈ keyPoints kpPool := mem_keyPoints.mpr (Nat.pos_of_ne_zero hne)
    rw [hpool] at hmem
    rcases List.mem_cons.mp hmem with rfl | hmem
    · exact Nat.lt_irrefl _ hi
    · exact absurd hi (Nat.not_lt.mpr (hsorted.1 i hmem))
  have hnx : n ≤ x := by
    by_contra hlt
    exact Nat.ne_of_gt hx (hn x (Nat.lt_of_not_le hlt))
  have hlen := kpsOf_pos_lt hx
  refine ⟨?_, ?_, fun i hi => ?_⟩
  · have hfind : ((List.range' n (kpPool.length - n)).find? fun i => decide (0 < kpsOf kpPool i)) = some x := by
      rw [List.find?_range'_eq_some]
      refine ⟨decide_eq_true hx, List.mem_range'_1.mpr ⟨hnx, by omega⟩, fun j _ hj => ?_⟩
      rw [hbelow j hj]
      rfl
    rw [nextThread, hfind]
    rfl
  · apply keyPoints_eq hsorted.2
    intro i
    have hcount := count_keyPoints kpPool i
    rw [hpool, List.count_cons] at hcount
    rw [kpsOf_useUp, ← hcount]
    by_cases hi : x = i
    · rw [if_pos hi, if_pos (beq_iff_eq.mpr hi), Nat.add_sub_cancel]
    · rw [if_neg hi, if_neg fun h => hi (beq_iff_eq.mp h), Nat.add_zero, Nat.sub_zero]
  · rw [kpsOf_useUp, hbelow i hi, Nat.zero_sub]

theorem fillPeriod_eq (hleft : left ≤ (keyPoints kpPool).length) (hn : ∀ i, i < n → kpsOf kpPool i = 0) :
    ∃ m kpPool', fillPeriod left n kpPool = .ok ((keyPoints kpPool).take left, m, kpPool') ∧
      keyPoints kpPool' = (keyPoints kpPool).drop left ∧ kpPool'.length = kpPool.length ∧
      ∀ i, i < m → kpsOf kpPool' i = 0 := by
  induction left generalizing n kpPool with
  | zero => exact ⟨n, kpPool, rfl, rfl, rfl, hn⟩
  | succ left ih =>
    obtain ⟨x, l, hpool⟩ := List.exists_cons_of_length_pos (Nat.lt_of_lt_of_le (Nat.succ_pos left) hleft)
    obtain ⟨hnext, hrest, hbelow⟩ := nextThread_eq hpool hn
    rw [hpool, List.length_cons, Nat.succ_le_succ_iff, ← hrest] at hleft
    obtain ⟨m, kpPool', hfill, hpool', hlen, hm⟩ := ih hleft hbelow
    refine ⟨m, kpPool', ?_, ?_, hlen.trans (length_useUp kpPool x), hm⟩
    · simp only [fillPeriod, hnext, bind, Except.bind, hfill]
      rw [hpool, List.take_succ_cons, hrest]
      rfl
    · rw [hpool', hpool, List.drop_succ_cons, hrest]

theorem initSchedFrom_eq {pattern : List Nat} (hsum : pattern.sum = (keyPoints kpPool).length)
    (hn : ∀ i, i < n → kpsOf kpPool i = 0) :
    ∃ kpPool', initSchedFrom pattern n kpPool = .ok (pattern.splitLengths (keyPoints kpPool), kpPool') ∧
      Holds kpPool.length kpPool' [] := by
  induction pattern generalizing n kpPool with
  | nil =>
    refine ⟨kpPool, rfl, rfl, ?_⟩
    rw [List.length_eq_zero_iff.mp hsum.symm]
  | cons k pattern ih =>
    rw [List.sum_cons] at hsum
    obtain ⟨m, kpPool', hfill, hpool', hlen, hm⟩ := @fillPeriod_eq n k kpPool (by omega) hn
    obtain ⟨kpPool'', hinit, hholds⟩ := ih (by rw [hpool', List.length_drop]; omega) hm
    rw [hlen] at hholds
    refine ⟨kpPool'', ?_, hholds⟩
    simp only [initSchedFrom, hfill, bind, Except.bind, hinit]
    rw [hpool', List.splitLengths_cons]
    rfl

/-- `_init_sched` cuts the sorted key points and takes them all. -/
theorem initSched_eq {pattern : List Nat} (hsum : pattern.sum = (keyPoints kpPool).length) :
    ∃ kpPool', initSched pattern kpPool = .ok (pattern.splitLengths (keyPoints kpPool), kpPool') ∧
      Holds kpPool.length kpPool' [] :=
  initSchedFrom_eq hsum fun i hi => absurd hi (Nat.not_lt_zero i)

end First

/-! ## The exchange -/

section Exchanging
variable {n : Nat} {kpPool free : List Nat}

theorem find_above_eq_some (hpool : Holds n kpPool free) {a b : Nat}
    (h : (List.range' (a + 1) (n - (a + 1))).find? (fun b => decide (0 < kpsOf kpPool b)) = some b) :
    b ∈ free ∧ a < b ∧ ∀ z ∈ free, a < z → b ≤ z := by
  rw [List.find?_range'_eq_some] at h
  obtain ⟨hb, hrange, hleast⟩ := h
  have hb := of_decide_eq_true hb
  rw [hpool.count, List.count_pos_iff] at hb
  refine ⟨hb, (List.mem_range'_1.mp hrange).1, fun z hz haz => ?_⟩
  by_contra hlt
  have hnone := hleast z haz (Nat.lt_of_not_le hlt)
  rw [hpool.count] at hnone
  simp only [Bool.not_eq_true', decide_eq_false_iff_not] at hnone
  exact hnone (List.count_pos_iff.mpr hz)

theorem find_above_eq_none (hpool : Holds n kpPool free) (hfree : ∀ x ∈ free, x < n) {a : Nat}
    (h : (List.range' (a + 1) (n - (a + 1))).find? (fun b => decide (0 < kpsOf kpPool b)) = none) :
    ∀ z ∈ free, z ≤ a := by
  rw [List.find?_range'_eq_none] at h
  intro z hz
  by_contra hlt
  have hzn := hfree z hz
  have hzero := h z (by omega) (by omega)
  rw [hpool.count] at hzero
  simp only [Bool.not_eq_true', decide_eq_false_iff_not] at hzero
  exact hzero (List.count_pos_iff.mpr hz)

/-- The loop stands before `back`, of which no element is below a free key point. -/
theorem exchangeLast_eq (hpool : Holds n kpPool free) (hfree : ∀ x ∈ free, x < n) {front back : List Nat}
    (hfront : ∀ x ∈ front, x < n) (hback : ∀ w ∈ back, ∀ z ∈ free, z ≤ w) :
    exchangeLast n (front ++ back) kpPool front.length = .ok none ∧
      (∀ x ∈ front ++ back, ∀ y ∈ free, y ≤ x) ∨
    ∃ pre x post y kpPool', front ++ back = pre ++ x :: post ∧ Exchange x post y free ∧
      exchangeLast n (front ++ back) kpPool front.length = .ok (some (pre ++ y :: post, kpPool')) ∧
      Holds n kpPool' (x :: free.erase y) := by
  induction front using List.reverseRecOn generalizing back with
  | nil => exact Or.inl ⟨rfl, hback⟩
  | append_singleton front a ih =>
    have hsplit : front ++ [a] ++ back = front ++ a :: back := by
      rw [List.append_assoc]
      rfl
    have hget : (front ++ a :: back)[front.length]? = some a := by
      rw [List.getElem?_append_right (Nat.le_refl _), Nat.sub_self]
      rfl
    have ha : a < n := hfront a (List.mem_append_right front List.mem_cons_self)
    rw [List.length_append, List.length_singleton, hsplit, exchangeLast, hget]
    simp only
    cases hfind : (List.range' (a + 1) (n - (a + 1))).find? fun b => decide (0 < kpsOf kpPool b) with
    | some b =>
      obtain ⟨hb, hab, hleast⟩ := find_above_eq_some hpool hfind
      right
      refine ⟨front, a, back, b, useUp (giveBack kpPool a) b, rfl, ⟨hb, hab, hleast, hback⟩, ?_, ?_⟩
      · have hset : (front ++ a :: back).set front.length b = front ++ b :: back := by
          rw [List.set_append_right _ _ (Nat.le_refl _), Nat.sub_self]
          rfl
        simp only [hset]
        rfl
      · have hholds := (hpool.giveBack ha).useUp b
        rw [List.erase_cons_tail (by simpa using Nat.ne_of_lt hab)] at hholds
        exact hholds
    | none =>
      have hnone : ∀ w ∈ a :: back, ∀ z ∈ free, z ≤ w := by
        intro w hw z hz
        rcases List.mem_cons.mp hw with rfl | hw
        · exact find_above_eq_none hpool hfree hfind z hz
        · exact hback w hw z hz
      exact ih (fun x hx => hfront x (List.mem_append_left [a] hx)) hnone

end Exchanging

/-- What `_next_sched` may return for a schedule of the key points `s`, and the pool it leaves. -/
structure Stepped (n : Nat) (pattern s : List Nat) (sched : Schedule) (next : Option Schedule)
    (kpPool : List Nat) : Prop where
  advances : Advances (Cuts pattern s) sched next
  noGap : Thin s ∨ (∀ k ∈ pattern.dropLast, k = 1) → NoGap (Cuts pattern s) sched next
  pool : Holds n kpPool (if next = none then sched.tail.flatten else [])
  /-- The first period stays or has one key point exchanged. -/
  head : ∀ sched' ∈ next, sched'.head? = sched.head? ∨
    ∃ pre x post y, sched.head? = some (pre ++ x :: post) ∧ Exchange x post y sched.tail.flatten ∧
      sched'.head? = some (pre ++ y :: post)

section Step
variable {n : Nat} {pattern s kpPool : List Nat}

theorem stepped_single {k : Nat} {period : List Nat} (hs : Cuts [k] s [period]) (hpool : Holds n kpPool []) :
    Stepped n [k] s [period] none kpPool where
  advances := by
    apply hs.advances_none (fun c hc => ?_) (fun _ _ _ => nofun)
    rw [List.map_eq_nil_iff.mp hc.lengths]
  noGap _ := nofun
  pool := hpool
  head := nofun

theorem stepped_tail {k : Nat} {period : List Nat} {sched sched' : Schedule}
    (hs : Cuts (k :: pattern) s (period :: sched)) (hpattern : pattern ≠ [])
    (h : Stepped n pattern sched.flatten sched (some sched') kpPool) :
    Stepped n (k :: pattern) s (period :: sched) (some (period :: sched')) kpPool where
  advances := hs.advances_tail h.advances
  noGap hthin := by
    apply hs.noGap_tail (h.noGap (hthin.imp (fun ht => ht.subperm ?_) fun hones j hj => ?_))
    · exact ((List.sublist_append_right period _).subperm).trans hs.perm.subperm
    · rw [List.dropLast_cons_of_ne_nil hpattern] at hones
      exact hones j (List.mem_cons_of_mem k hj)
  pool := h.pool
  head := by
    intro _ hsome
    obtain rfl := Option.some.inj hsome
    exact Or.inl rfl

theorem stepped_none {k : Nat} {period : List Nat} {sched : Schedule}
    (hs : Cuts (k :: pattern) s (period :: sched)) (h : Advances (Cuts pattern sched.flatten) sched none)
    (hfree : ∀ x ∈ period, ∀ y ∈ sched.flatten, y ≤ x) (hpool : Holds n kpPool sched.flatten) :
    Stepped n (k :: pattern) s (period :: sched) none kpPool where
  advances := hs.advances_none h hfree
  noGap _ := nofun
  pool := hpool
  head := nofun

theorem stepped_exchange {k x y : Nat} {pre post t : List Nat} {sched : Schedule}
    (hs : Cuts (k :: pattern) s ((pre ++ x :: post) :: sched)) (hpattern : pattern ≠ [])
    (h : Advances (Cuts pattern sched.flatten) sched none) (he : Exchange x post y sched.flatten)
    (ht : t.Pairwise (· ≤ ·)) (hperm : t.Perm (x :: sched.flatten.erase y)) (hpool : Holds n kpPool []) :
    Stepped n (k :: pattern) s ((pre ++ x :: post) :: sched)
      (some ((pre ++ y :: post) :: pattern.splitLengths t)) kpPool where
  advances := hs.advances_exchange he ht hperm
  noGap hthin := by
    apply hs.noGap_exchange he ht hperm h (hthin.imp_right fun hones => ?_)
    rw [List.dropLast_cons_of_ne_nil hpattern] at hones
    exact hones k List.mem_cons_self
  pool := hpool
  head := by
    intro _ hsome
    obtain rfl := Option.some.inj hsome
    exact Or.inr ⟨pre, x, post, y, rfl, he, rfl⟩

theorem nextSched_stepped {sched : Schedule} (hpattern : pattern ≠ []) (hs : Cuts pattern s sched)
    (hn : ∀ x ∈ s, x < n) (hpool : Holds n kpPool []) :
    ∃ next kpPool', nextSched n sched pattern kpPool = .ok (next, kpPool') ∧
      Stepped n pattern s sched next kpPool' := by
  induction pattern generalizing s sched kpPool with
  | nil => exact absurd rfl hpattern
  | cons p pattern ih =>
    obtain ⟨period, sched, rfl⟩ : ∃ period sched', sched = period :: sched' := by
      cases sched with
      | nil => exact absurd hs.lengths nofun
      | cons period sched => exact ⟨period, sched, rfl⟩
    cases pattern with
    | nil =>
      obtain rfl : sched = [] := List.map_eq_nil_iff.mp (List.cons.inj hs.lengths).2
      exact ⟨none, kpPool, rfl, stepped_single hs hpool⟩
    | cons q pattern =>
      obtain ⟨period', sched, rfl⟩ : ∃ period' sched', sched = period' :: sched' := by
        cases sched with
        | nil => exact absurd (List.cons.inj hs.lengths).2 nofun
        | cons period' sched => exact ⟨period', sched, rfl⟩
      have hall : ∀ x ∈ period ++ (period' :: sched).flatten, x < n := fun x hx => hn x (hs.perm.subset hx)
      have hfree : ∀ x ∈ (period' :: sched).flatten, x < n := fun x hx => hall x (List.mem_append_right _ hx)
      obtain ⟨next, kpPool₁, hnext, hstep⟩ := ih (List.cons_ne_nil q pattern) hs.tail hfree hpool
      rw [nextSched]
      simp only [bind, Except.bind, hnext]
      cases next with
      | some sched' => exact ⟨some (period :: sched'), kpPool₁, rfl, stepped_tail hs (List.cons_ne_nil q pattern) hstep⟩
      | none =>
        -- the key points of the second period are free as well
        have hpool₂ : Holds n (period'.foldl giveBack kpPool₁) (period' :: sched).flatten :=
          hstep.pool.foldl_giveBack fun x hx => hfree x (List.mem_append_left _ hx)
        have hlen : period.length = p := (List.cons.inj hs.lengths).1
        have hexchange := @exchangeLast_eq n _ _ hpool₂ hfree period []
          (fun x hx => hall x (List.mem_append_left _ hx)) nofun
        rw [List.append_nil, hlen] at hexchange
        rcases hexchange with ⟨hnone, hgreatest⟩ | ⟨pre, x, post, y, kpPool₃, rfl, he, hsome, hpool₃⟩
        · refine ⟨none, period'.foldl giveBack kpPool₁, ?_, stepped_none hs hstep.advances hgreatest hpool₂⟩
          simp only [hnone]
          rfl
        · have hsum : (q :: pattern).sum = (keyPoints kpPool₃).length := by
            have hlens := congrArg List.sum hs.tail.lengths
            rw [← List.length_flatten] at hlens
            rw [← hlens, hpool₃.perm.length_eq, List.length_cons, List.length_erase_of_mem he.mem]
            have hpos := List.length_pos_of_mem he.mem
            omega
          obtain ⟨kpPool₄, hinit, hempty⟩ := initSched_eq hsum
          rw [hpool₃.length_eq] at hempty
          refine ⟨_, kpPool₄, ?_, stepped_exchange hs (List.cons_ne_nil q pattern) hstep.advances he
            (keyPoints_sorted kpPool₃) hpool₃.perm hempty⟩
          simp only [hsome, hinit]
          rfl

end Step

end Period.Scheduler.BPSched
