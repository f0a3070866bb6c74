import Period.Scheduler.Kept
import Period.Scheduler.VisitOrder

/-!
# The prefix handed on

After each step the scheduler hands on the periods up to the first one that is new. They make a
prefix to start from when that period is not the last one.
-/

namespace Period.Scheduler

open Enumeration Search Parts
set_option autoImplicit false

/-- `handed` is the shortest part of `sched` from the front that `prev` does not begin with, and
it can be given to the constructor. -/
structure HandsOn (p : Nat) (prev sched handed : Schedule) : Prop where
  front : handed <+: sched
  new : ¬ handed <+: prev
  least : ∀ l, l <+: sched → ¬ l <+: prev → handed.length ≤ l.length
  short : handed.length + 1 ≤ p
  single : ∀ period ∈ handed, SingleThread period

theorem changedPrefix_self (front : Schedule) (period period' : List Nat) :
    changedPrefix (front ++ [period]) (front ++ [period']) = front ++ [period] := by
  induction front with
  | nil => exact ite_self [period]
  | cons first front ih =>
    rw [List.cons_append, List.cons_append, changedPrefix, if_neg (not_not.mpr rfl), ih]

section Changed
variable {xs ys : Schedule} (hlen : xs.length = ys.length) (hne : xs ≠ ys)
include hlen hne

theorem changedPrefix_append (xs' ys' : Schedule) :
    changedPrefix (xs ++ xs') (ys ++ ys') = changedPrefix xs ys := by
  induction xs generalizing ys with
  | nil =>
    cases ys with
    | nil => exact absurd rfl hne
    | cons y ys => cases hlen
  | cons x xs ih =>
    cases ys with
    | nil => cases hlen
    | cons y ys =>
      rw [List.cons_append, List.cons_append, changedPrefix, changedPrefix]
      split
      · rfl
      · next heq =>
        obtain rfl := not_not.mp heq
        rw [ih (Nat.succ.inj hlen) fun h => hne (congrArg _ h)]

/-- The changed periods are the shortest part of the new ones that is not old. -/
theorem changedPrefix_spec : changedPrefix xs ys <+: xs ∧ ¬ changedPrefix xs ys <+: ys ∧
    ∀ l, l <+: xs → ¬ l <+: ys → (changedPrefix xs ys).length ≤ l.length := by
  induction xs generalizing ys with
  | nil =>
    cases ys with
    | nil => exact absurd rfl hne
    | cons y ys => cases hlen
  | cons x xs ih =>
    cases ys with
    | nil => cases hlen
    | cons y ys =>
      rw [changedPrefix]
      split
      · next hxy =>
        refine ⟨by simp, fun h => hxy (List.cons_prefix_cons.mp h).1, fun l _ hold => ?_⟩
        cases l with
        | nil => exact absurd List.nil_prefix hold
        | cons z l => exact Nat.succ_le_succ (Nat.zero_le _)
      · next heq =>
        obtain rfl := not_not.mp heq
        obtain ⟨hfront, hnew, hleast⟩ := ih (Nat.succ.inj hlen) fun h => hne (congrArg _ h)
        refine ⟨List.cons_prefix_cons.mpr ⟨rfl, hfront⟩,
          fun h => hnew (List.cons_prefix_cons.mp h).2, fun l hl hold => ?_⟩
        cases l with
        | nil => exact absurd List.nil_prefix hold
        | cons z l =>
          obtain ⟨rfl, htail⟩ := List.cons_prefix_cons.mp hl
          exact Nat.succ_le_succ
            (hleast l htail fun h => hold (List.cons_prefix_cons.mpr ⟨rfl, h⟩))

end Changed

/-- What is handed on when the periods in front of the last one are single-thread. -/
theorem handsOn_concat_iff {p : Nat} {front front' : Schedule} {period period' : List Nat}
    (hlen : front.length = front'.length) (hp : front'.length + 1 = p)
    (hsingle : ∀ period ∈ front', SingleThread period) :
    HandsOn p (front ++ [period]) (normSched (front' ++ [period']))
      (normSched (changedPrefix (front' ++ [period']) (front ++ [period]))) ↔ front' ≠ front := by
  constructor
  · rintro h rfl
    have hshort := h.short
    rw [changedPrefix_self, normSched, List.length_map, List.length_append,
      List.length_singleton] at hshort
    omega
  · intro hne
    obtain ⟨hfront, hnew, hleast⟩ := changedPrefix_spec hlen.symm hne
    have hshort := hfront.length_le
    have hsingle' : ∀ period ∈ changedPrefix front' front, SingleThread period :=
      fun period hmem => hsingle period (hfront.subset hmem)
    rw [changedPrefix_append hlen.symm hne, normSched_single hsingle', normSched_append,
      normSched_single hsingle]
    have hin : ∀ {l l' : Schedule} (last : Schedule), l.length ≤ l'.length →
        (l <+: l' ++ last ↔ l <+: l') := by
      intro l l' last hle
      refine ⟨fun h => ?_, fun h => h.trans (List.prefix_append _ _)⟩
      exact List.prefix_of_prefix_length_le h (List.prefix_append _ _) hle
    refine ⟨(hin _ hshort).mpr hfront, fun h => ?_, fun l hl hold => ?_, by omega, hsingle'⟩
    · exact hnew ((hin _ (hlen ▸ hshort)).mp h)
    · rcases Nat.le_total l.length front'.length with hle | hle
      · exact hleast l ((hin _ hle).mp hl) fun h => hold ((hin _ (hlen ▸ hle)).mpr h)
      · omega

/-- A redistribution gives a period in front of the last one a key point. -/
theorem nextSched_changes {n p : Nat} {kps : List Nat} {sched sched' : Schedule} {w : List Nat}
    (hw : w.length = p) (hlen : sched.length = p) (h : nextSched n kps p sched w = some sched') :
    sched'.dropLast ≠ sched.dropLast := by
  obtain ⟨i, _, hi⟩ := List.exists_of_findSome?_eq_some h
  rw [nextSchedAt] at hi
  obtain ⟨idx1, hidx1, hi⟩ := Option.bind_eq_some_iff.mp hi
  obtain ⟨idx2, hidx2, hi⟩ := Option.bind_eq_some_iff.mp hi
  obtain ⟨hlt, hthread, _⟩ := lastPeriodOf_eq_some.mp hidx2
  have hrange := List.mem_range'_1.mp (List.mem_reverse.mp (List.mem_of_find?_eq_some hidx1))
  obtain ⟨period, hperiod⟩ : ∃ period, sched[idx2]? = some period :=
    ⟨_, List.getElem?_eq_getElem (by omega)⟩
  have hmore : sched'[idx2]? = some (period ++ [i]) := by
    have hne : idx1 ≠ idx2 := Nat.ne_of_gt hlt
    rw [← Option.some.inj hi, List.getElem?_mapIdx, List.getElem?_modify, List.getElem?_modify,
      hperiod]
    simp [hne, hthread]
  intro heq
  have hsame : sched'.dropLast[idx2]? = sched.dropLast[idx2]? := by rw [heq]
  have hlen' := congrArg List.length heq
  rw [List.length_dropLast, List.length_dropLast] at hlen'
  rw [List.getElem?_dropLast, List.getElem?_dropLast, if_pos (by omega), if_pos (by omega), hmore,
    hperiod] at hsame
  exact absurd (congrArg List.length (Option.some.inj hsame)) (by simp)

/-! ## From one word to the next -/

/-- The last letters of two words are put in without a change in front of them: the first one is
a thread without key points left, and no other thread can move a key point. -/
structure Frame.Stalls (f : Frame) (u : List Nat) (x x' : Nat) : Prop where
  idle : kpsOf f.pool x = 0
  fst_out : x ∉ u
  snd_out : x' ∉ u
  rigid : ∀ i ∈ u, kpsOf f.pool i ≤ u.count i ∨ u.count i = 1 ∧ f.last ≠ some i

theorem layout_dropLast (u : List Nat) (x : Nat) (parts : List (List Nat)) :
    (layout (u ++ [x]) parts).dropLast = layout u parts := by
  apply List.ext_getElem?
  intro j
  rw [List.getElem?_dropLast, layout_length, List.length_append, List.length_singleton,
    Nat.add_sub_cancel, layout_getElem?, layout_getElem?]
  split
  · next hlt => rw [List.getElem?_append_left hlt, List.take_append_of_le_length (Nat.le_of_lt hlt)]
  · next hge =>
    rw [List.getElem?_eq_none (Nat.le_of_not_lt hge)]
    rfl

theorem layout_congr {u : List Nat} {parts parts' : List (List Nat)}
    (h : ∀ i ∈ u, parts.getD i [] = parts'.getD i []) : layout u parts = layout u parts' := by
  apply List.ext_getElem?
  intro j
  rw [layout_getElem?, layout_getElem?]
  cases hj : u[j]? with
  | none => rfl
  | some i => rw [Option.map_some, Option.map_some, h i (List.mem_of_getElem? hj)]

theorem count_concat_of_ne {u : List Nat} {i y : Nat} (h : i ≠ y) :
    (u ++ [y]).count i = u.count i := by
  have hzero : [y].count i = 0 := List.count_eq_zero.mpr (by simpa using h)
  rw [List.count_append, hzero, Nat.add_zero]

section Stalled
variable {f : Frame} (hled : f.WellLed) {c c' u : List Nat} {x x' : Nat}
  (hv : (c, u ++ [x]) ∈ f.pairs) (hv' : (c', u ++ [x']) ∈ f.pairs) (h : f.Stalls u x x')

theorem Frame.fresh_eq (hled : f.WellLed) {v : List Nat × List Nat} (hv : v ∈ f.pairs) :
    f.fresh v = layout (f.word v.2) ((f.dials v).map Dial.now) := by
  have hhead := (Frame.runs hled v hv).1
  rw [Frame.scheds, List.head?_map, (carry_resumes (Frame.dials_resume hled)).1] at hhead
  exact (Option.some.inj hhead).symm

include hv h

theorem Frame.stalled_later (i : Nat) : (f.dial (c, u ++ [x]) i).later = [] := by
  by_cases hlast : f.last = some i
  · have hle : kpsOf (f.ckps c) i ≤ (u ++ [x]).count i := by
      rw [Frame.kpsOf_ckps_word hv]
      split
      · next hi =>
        rcases List.mem_append.mp hi with hi | hi
        · have hrigid := (h.rigid i hi).resolve_right fun h => h.2 hlast
          rw [List.count_append]
          omega
        · rw [List.mem_singleton.mp hi, h.idle]
          exact Nat.zero_le _
      · exact Nat.zero_le _
    rw [Frame.dial, if_pos hlast]
    dsimp only
    rw [Nat.max_eq_left hle]
    exact spreadsFrom_self _ _
  · by_contra hne
    obtain ⟨htwo, hlt⟩ := (Frame.later_ne_nil hv hlast).mp hne
    dsimp only at htwo hlt
    have hne : i ≠ x := by
      rintro rfl
      rw [h.idle] at hlt
      omega
    rw [count_concat_of_ne hne] at htwo hlt
    have hi : i ∈ u := List.count_pos_iff.mp (by omega)
    rcases h.rigid i hi with hle | ⟨hcount, _⟩
    · omega
    · omega

include hled

theorem Frame.stalled_scheds : f.scheds (c, u ++ [x]) = [f.fresh (c, u ++ [x])] := by
  rw [Frame.scheds, readingsFrom_of_later_nil, Frame.fresh_eq hled hv]
  · rfl
  · intro d hd
    obtain ⟨i, _, rfl⟩ := List.mem_map.mp hd
    exact Frame.stalled_later hv h i

omit hled in
include hv' in
/-- The schedules of both words begin with the same periods. -/
theorem Frame.stalled_fresh :
    (f.fresh (c, u ++ [x])).dropLast = (f.fresh (c', u ++ [x'])).dropLast := by
  have hinit : ∀ {c : List Nat} {y : Nat}, (c, u ++ [y]) ∈ f.pairs →
      (f.fresh (c, u ++ [y])).dropLast = f.leadPeriod ++
        layout u (startParts f.n (f.ckps c) (u ++ [y])) := by
    intro c y hy
    obtain ⟨hlen, hlt, _⟩ := Frame.mem_pair_word hy
    have hinit : initSched f.n (f.ckps c) f.q (u ++ [y]) =
        layout (u ++ [y]) (startParts f.n (f.ckps c) (u ++ [y])) := by
      rw [← hlen]
      exact initSched_eq fun i hi => (hlt i hi).1
    rw [Frame.fresh, List.dropLast_append_of_ne_nil, hinit, layout_dropLast]
    rw [hinit]
    intro hnil
    have hzero := congrArg List.length hnil
    rw [layout_length, List.length_append] at hzero
    exact absurd hzero (Nat.succ_ne_zero _)
  rw [hinit hv, hinit hv']
  congr 1
  apply layout_congr
  intro i hi
  have hin : i < f.n := ((Frame.mem_pair_word hv).2.1 i (List.mem_append_left _ hi)).1
  have hcount : ∀ {y : Nat}, y ∉ u → (u ++ [y]).count i = u.count i :=
    fun hy => count_concat_of_ne fun he => hy (he ▸ hi)
  rw [startParts_getD _ _ hin, startParts_getD _ _ hin, hcount h.fst_out, hcount h.snd_out,
    Frame.kpsOf_ckps_word hv, Frame.kpsOf_ckps_word hv', if_pos (List.mem_append_left _ hi),
    if_pos (List.mem_append_left _ hi)]

end Stalled

section Unchanged
variable {f : Frame} (hled : f.WellLed) {v : List Nat × List Nat} {parts : List (List Nat)}
  (hv : v ∈ f.pairs) (hparts : parts ∈ readingsFrom (f.dials v))
include hled hv hparts

/-- The schedules of a word end where no thread can move a key point. -/
theorem Frame.stuck_of_none
    (hnone : nextSched f.n (f.total v.1) (f.word v.2).length (layout (f.word v.2) parts)
      (f.word v.2) = none) {i : Nat} (hi : i < f.n) : ∀ y ∈ (parts.getD i []).tail, y ≤ 1 := by
  obtain ⟨hlen, hletters, _⟩ := Frame.mem_pair_word hv
  have hparted := Frame.reading_parted hled hparts
  rw [nextSched_eq (Frame.word_lt hled fun x hx => (hletters x hx).1) hparted,
    Option.map_eq_none_iff] at hnone
  have hwheel : (wheels f.n (f.total v.1) (f.word v.2))[i]? =
      some ⟨shift, firstParts ((f.word v.2).count i) (kpsOf (f.total v.1) i)⟩ := by
    rw [wheels, List.getElem?_map, List.getElem?_range hi]
    rfl
  have hpart : parts[i]? = some (parts.getD i []) := by
    rw [List.getD_eq_getElem?_getD, List.getElem?_eq_getElem (hparted.length_eq ▸ hi)]
    rfl
  have hturn : shift (parts.getD i []) = none := turn_eq_none_of_carry hnone i _ _ hwheel hpart
  cases hl : parts.getD i [] with
  | nil => simp
  | cons a l =>
    rw [hl] at hturn
    exact shift_eq_none.mp hturn

/-- The parts of a thread, without the last period and with it. -/
theorem Frame.parts_split {u : List Nat} {x : Nat} (hu : v.2 = u ++ [x]) : ∃ m, ∀ i, i < f.n →
    parts.getD i [] = partsOf i (layout (f.word v.2) parts).dropLast ++
      if i = x then [m + 1] else [] := by
  obtain ⟨hlen, hletters, _⟩ := Frame.mem_pair_word hv
  have hlt := Frame.word_lt hled fun x hx => (hletters x hx).1
  have hparted := Frame.reading_parted hled hparts
  have hpos := Frame.reading_pos hled hparts
  have hword : f.word v.2 = f.word u ++ [x] := by
    rw [hu, Frame.word, Frame.word, List.append_assoc]
  obtain ⟨m, _, hperiod⟩ := layout_getElem?_some hparted hpos hlt
    (by rw [hword, List.getElem?_concat_length] : (f.word v.2)[(f.word u).length]? = some x)
  have hlast : (layout (f.word v.2) parts).getLast? = some (List.replicate (m + 1) x) := by
    rw [List.getLast?_eq_getElem?, layout_length, hword, List.length_append, List.length_singleton,
      Nat.add_sub_cancel, ← hword, hperiod]
  refine ⟨m, fun i hi => ?_⟩
  rw [← partsOf_layout hparted hpos hlt hi]
  nth_rewrite 1 [← List.dropLast_append_getLast? _ hlast]
  rw [partsOf, partsOf, List.filter_append, List.map_append]
  congr 1
  by_cases hix : i = x
  · simp [hix, List.replicate_succ]
  · simp [hix, Ne.symm hix, List.replicate_succ]

/-- A thread with key points left spends all of them. -/
theorem Frame.parts_sum {i : Nat} (hi : i ∈ v.2) (hpos : 0 < kpsOf f.pool i) :
    (parts.getD i []).sum = kpsOf f.pool i + if f.last = some i then f.leadCount else 0 := by
  have hvisits := (Frame.mem_pairs_iff.mp hv).2.1
  have hckps : kpsOf (f.ckps v.1) i = kpsOf f.pool i := by
    rw [Frame.kpsOf_ckps_word hv, if_pos hi]
  rw [← hckps, ← Frame.kpsOf_total hled]
  apply Frame.part_sum hled _ _ (Frame.reading_part hparts (hvisits.lt i hi))
  · rw [hckps]
    exact hvisits.count_le i hpos
  · intro hzero
    exact absurd hi (List.count_eq_zero.mp hzero)

end Unchanged

theorem Frame.now_getD {f : Frame} {v : List Nat × List Nat} {i : Nat} (hi : i < f.n) :
    ((f.dials v).map Dial.now).getD i [] = (f.dial v i).now := by
  rw [Frame.dials, List.map_map, List.getD_eq_getElem?_getD, List.getElem?_map,
    List.getElem?_range hi]
  rfl

theorem firstParts_last (m total : Nat) :
    firstParts (m + 1) total = List.replicate m 1 ++ [1 + (total - (m + 1))] := rfl

/-- A thread that starts with more than one key point to move has not come to its end. -/
theorem Frame.rigid_of_stuck {f : Frame} {v : List Nat × List Nat} {i : Nat} (hv : v ∈ f.pairs)
    (hi : i ∈ v.2) (hstuck : ∀ y ∈ (f.dial v i).now.tail, y ≤ 1) :
    kpsOf f.pool i ≤ v.2.count i ∨ v.2.count i = 1 ∧ f.last ≠ some i := by
  obtain ⟨m, hm⟩ := Nat.exists_eq_add_of_lt (List.count_pos_iff.mpr hi)
  rw [Nat.zero_add] at hm
  by_contra hloose
  rw [not_or, not_and_or, not_not, hm] at hloose
  obtain ⟨hmore, hmoves⟩ := hloose
  have hlast : 1 + (kpsOf f.pool i - (m + 1)) ∈ (f.dial v i).now.tail := by
    rw [Frame.dial, hm, Frame.kpsOf_ckps_word hv, if_pos hi, firstParts_last]
    split
    · simp
    · next hne =>
      cases m with
      | zero => exact absurd rfl (hmoves.resolve_right hne)
      | succ m =>
        rw [List.replicate_succ]
        simp
  have hle := hstuck _ hlast
  omega

section Same
variable {f : Frame} (hled : f.WellLed) (hq : 0 < f.q) {c c' u : List Nat} {x x' : Nat}
  {parts : List (List Nat)} (hv : (c, u ++ [x]) ∈ f.pairs) (hv' : (c', u ++ [x']) ∈ f.pairs)
  (hparts : parts ∈ readingsFrom (f.dials (c, u ++ [x]))) (hne : x ≠ x')
  (heq : (layout (f.word (u ++ [x])) parts).dropLast = (f.fresh (c', u ++ [x'])).dropLast)
include hled hv hv' hparts hne heq

/-- The last letters are new: a letter of `u` would have to spend the same key points in one
period less. -/
theorem Frame.last_out : x ∉ u ∧ x' ∉ u := by
  have hnow : (f.dials (c', u ++ [x'])).map Dial.now ∈ readingsFrom (f.dials (c', u ++ [x'])) :=
    now_mem_readingsFrom _
  obtain ⟨m, hm⟩ := Frame.parts_split hled hv hparts rfl
  obtain ⟨m', hm'⟩ := Frame.parts_split hled hv' hnow rfl
  rw [Frame.fresh_eq hled hv'] at heq
  have hvisits := (Frame.mem_pairs_iff.mp hv).2.1
  have hvisits' := (Frame.mem_pairs_iff.mp hv').2.1
  have hsums : ∀ y, y ∈ u → 0 < kpsOf f.pool y → (parts.getD y []).sum =
      (((f.dials (c', u ++ [x'])).map Dial.now).getD y []).sum := by
    intro y hy hpos
    rw [Frame.parts_sum hled hv hparts (List.mem_append_left _ hy) hpos,
      Frame.parts_sum hled hv' hnow (List.mem_append_left _ hy) hpos]
  constructor
  · intro hx
    have hxn := hvisits.lt x (List.mem_append_left _ hx)
    have hpos : 0 < kpsOf f.pool x := by
      apply Nat.pos_of_ne_zero
      intro hzero
      exact ((hvisits.idle u x [] rfl hzero).2 x List.mem_cons_self).1 hx
    have hsum := hsums x hx hpos
    rw [hm x hxn, hm' x hxn, if_pos rfl, if_neg hne, heq, List.append_nil, List.sum_append,
      List.sum_singleton] at hsum
    omega
  · intro hx
    have hxn := hvisits.lt x' (List.mem_append_left _ hx)
    have hpos : 0 < kpsOf f.pool x' := by
      apply Nat.pos_of_ne_zero
      intro hzero
      exact ((hvisits'.idle u x' [] rfl hzero).2 x' List.mem_cons_self).1 hx
    have hsum := hsums x' hx hpos
    rw [hm x' hxn, hm' x' hxn, if_pos rfl, if_neg hne.symm, heq, List.append_nil, List.sum_append,
      List.sum_singleton] at hsum
    omega

include hq in
/-- Words in succession whose schedules begin with the same periods. -/
theorem Frame.stalls_of_same (hstuck : ∀ i, i < f.n → ∀ y ∈ (parts.getD i []).tail, y ≤ 1)
    (hsooner : Sooner (u ++ [x]) (u ++ [x'])) : f.Stalls u x x' := by
  obtain ⟨hx, hx'⟩ := Frame.last_out hled hv hv' hparts hne heq
  have hvisits := (Frame.mem_pairs_iff.mp hv).2.1
  have hvisits' := (Frame.mem_pairs_iff.mp hv').2.1
  refine ⟨?_, hx, hx', ?_⟩
  · have hout : x ∉ u ++ [x'] := by simp [hx, hne]
    have hlt : x < x' := by
      rcases hsooner with hset | ⟨hset, _⟩
      · apply lt_of_precedes (letters_chosen hq hvisits.length_eq hvisits.lt)
          (letters_chosen hq hvisits'.length_eq hvisits'.lt) hset
        · rwa [mem_letters]
        · rw [mem_letters]
          simp [hx', hne.symm]
        · intro i
          rw [mem_letters, mem_letters, List.mem_append, List.mem_append, List.mem_singleton,
            List.mem_singleton]
          constructor
          · rintro (hi | rfl)
            · exact Or.inr ⟨Or.inl hi, fun he => hx (he ▸ hi)⟩
            · exact Or.inl rfl
          · rintro (rfl | ⟨hi, hix⟩)
            · exact Or.inr rfl
            · exact Or.inl (hi.resolve_right hix)
        · simp
      · have hmem : x ∈ letters (u ++ [x]) := by simp
        rw [hset, mem_letters] at hmem
        exact absurd hmem hout
    apply Nat.eq_zero_of_not_pos
    intro hpos
    have hle := hvisits'.last_le u x' rfl hx' x (hvisits.lt x (by simp)) hpos hout
    omega
  · intro i hi
    have hix : i ≠ x := fun he => hx (he ▸ hi)
    have hix' : i ≠ x' := fun he => hx' (he ▸ hi)
    have hin := hvisits.lt i (List.mem_append_left _ hi)
    obtain ⟨m, hm⟩ := Frame.parts_split hled hv hparts rfl
    obtain ⟨m', hm'⟩ := Frame.parts_split hled hv' (now_mem_readingsFrom _) rfl
    have hsame : parts.getD i [] = (f.dial (c', u ++ [x']) i).now := by
      rw [← Frame.now_getD hin, hm i hin, hm' i hin, if_neg hix, if_neg hix', heq,
        Frame.fresh_eq hled hv']
    have hrigid := Frame.rigid_of_stuck hv' (List.mem_append_left _ hi) (hsame ▸ hstuck i hin)
    rwa [count_concat_of_ne hix'] at hrigid

end Same

/-! ## The iteration -/

section Handed
variable {n p fuel : Nat} {kps : List Nat} {sched : Schedule} {base : Sched} {fix : Bool}
  {start : SBPMESched} (hbase : Sched.initHelper n kps p sched = .ok base)
  (hsingle : ∀ period ∈ sched, SingleThread period)

/-- The prefix is legal when a period in front of the last one has changed. -/
theorem SBPMESched.handsOn_iff (hbase : Sched.initHelper n kps p sched = .ok base)
    (hsingle : ∀ period ∈ sched, SingleThread period) (hpasses : base.Passes)
    {a b : (List Nat × List Nat) × Schedule} {s t : SBPMESched} (ha : a ∈ base.frame.triples)
    (hb : b ∈ base.frame.triples)
    (hs : SBPMESched.InFrame base.frame sched.dropLast (wordOf sched) a s)
    (ht : SBPMESched.InFrame base.frame sched.dropLast (wordOf sched) b t)
    (hsched : t.sched = normSched (base.frame.full sched.dropLast b))
    (hchanged : t.schedPrefix =
      normSched (changedPrefix (base.frame.full sched.dropLast b) s.sched)) :
    HandsOn p s.sched t.sched t.schedPrefix ↔ b.2.dropLast ≠ a.2.dropLast := by
  obtain ⟨_, _, singles, _, last, _, hperiods, hsplit, _⟩ :=
    SBPMESched.inFrame_split hbase hsingle hpasses ha hs
  obtain ⟨_, _, singles', m', last', _, hperiods', hsplit', _, _, hall⟩ :=
    SBPMESched.inFrame_split hbase hsingle hpasses hb ht
  have hlen := (SBPMESched.inFrame_shape hbase hsingle hpasses ha hs).1
  have hlen' := (SBPMESched.inFrame_shape hbase hsingle hpasses hb ht).1
  obtain ⟨hsame, hp⟩ := Sched.initHelper_sched hbase
  have hroom := hpasses.room
  rw [hsplit, List.length_append, List.length_singleton] at hlen
  rw [hsplit', List.length_append, List.length_singleton] at hlen'
  rw [hsame] at hroom
  rw [hchanged, hsched, Frame.full, hperiods', extendLast_concat, ← List.append_assoc, hsplit,
    hperiods, List.dropLast_concat, List.dropLast_concat,
    handsOn_concat_iff (by omega) (by omega) hall]
  exact not_congr (List.append_right_inj _)

/-- A step that changes the last period only comes from words in succession. -/
theorem Frame.exists_stall {f : Frame} (hled : f.WellLed) (hq : 0 < f.q)
    {a b : (List Nat × List Nat) × Schedule} (hsplit : ∃ pre post, f.triples = pre ++ a :: b :: post)
    (hsame : b.2.dropLast = a.2.dropLast) :
    ∃ u x x', f.Follows (u ++ [x]) (u ++ [x']) ∧ f.Stalls u x x' := by
  obtain ⟨pre, post, hsplit⟩ := hsplit
  obtain ⟨N, hN⟩ := f.exists_enough
  have hfuel := hN N (Nat.le_refl N)
  have ha : a ∈ f.triples := by simp [hsplit]
  have hb : b ∈ f.triples := by simp [hsplit]
  have hstep : f.step N a = some b := walksTo_at (Frame.step_walks hled hq hfuel) hsplit
  obtain ⟨u, x, singles, m, hu, hperiods, hword, _⟩ := Frame.triple_split hled hq ha
  obtain ⟨u', x', singles', m', hu', hperiods', hword', _⟩ := Frame.triple_split hled hq hb
  have huu : u' = u := by
    rw [hperiods, hperiods', List.dropLast_concat, List.dropLast_concat] at hsame
    rw [hsame, hword] at hword'
    exact (List.append_cancel_left hword').symm
  obtain ⟨hv, parts, hparts, hlayout⟩ := Frame.mem_triples.mp ha
  obtain ⟨hlen, _⟩ := Frame.mem_pair_word hv
  obtain ⟨⟨c, w⟩, periods⟩ := a
  obtain ⟨⟨c', w'⟩, periods'⟩ := b
  dsimp only at hu hu' hlayout hsame hv hparts hlen
  subst huu hu hu' hlayout
  rw [Frame.step, Option.or_eq_some_iff] at hstep
  rcases hstep with hnext | ⟨hnone, hnext⟩
  · obtain ⟨next, hmoved, heq⟩ := Option.map_eq_some_iff.mp hnext
    obtain rfl : next = periods' := (Prod.mk.inj heq).2
    exact absurd hsame (nextSched_changes rfl (layout_length _ _) hmoved)
  · have hnone := Option.map_eq_none_iff.mp hnone
    obtain ⟨v', hpair, heq⟩ := Option.map_eq_some_iff.mp hnext
    cases heq
    obtain ⟨preV, postV, hsplitV⟩ := List.append_of_mem hv
    have hwalk := walksTo_at (Frame.pairs_walk hq hfuel) hsplitV
    dsimp only at hpair
    rw [hpair, Option.or_none] at hwalk
    obtain ⟨postV, rfl⟩ := List.head?_eq_some_iff.mp hwalk.symm
    have hv' : (c', u' ++ [x']) ∈ f.pairs := by simp [hsplitV]
    have hc : c = letters (u' ++ [x]) := Frame.eq_letters hq hv
    have hc' : c' = letters (u' ++ [x']) := Frame.eq_letters hq hv'
    rw [hc, hc'] at hsplitV
    have hfollows := (Frame.follows_iff hq).mpr ⟨preV, postV, hsplitV⟩
    have hne : x ≠ x' := by
      rintro rfl
      exact hfollows.sooner.asymm hfollows.sooner
    refine ⟨u', x, x', hfollows, ?_⟩
    apply Frame.stalls_of_same hled hq hv hv' hparts hne hsame.symm _ hfollows.sooner
    intro i hi
    exact Frame.stuck_of_none hled hv hparts hnone hi

variable (hfix : fix = !sched.isEmpty)
  (hinit : SBPMESched.init fuel n kps p sched fix = .ok start)
include hbase hsingle hfix hinit

/-- After two words in succession that stall, all periods are handed on. -/
theorem exists_unusable {u : List Nat} {x x' : Nat}
    (hfollows : base.frame.Follows (u ++ [x]) (u ++ [x'])) (hstalls : base.frame.Stalls u x x') :
    ∃ fuel s t, SBPMESched.Reached n kps p sched fix s ∧ s.nextIter fuel = .ok t ∧
      ¬ HandsOn p s.sched t.sched t.schedPrefix := by
  obtain ⟨hpasses, _⟩ := SBPMESched.init_inFrame hbase hsingle hfix hinit
  obtain ⟨out, hout, hall⟩ := SBPMESched.reached_forall₂ hbase hsingle hfix hinit
  have hq : 0 < base.frame.q := Nat.sub_pos_of_lt hpasses.room
  have hled := Sched.frame_wellLed hbase hsingle
  obtain ⟨N, hN⟩ := base.frame.exists_enough
  have hfuel := hN N (Nat.le_refl N)
  obtain ⟨pre, post, hsplit⟩ := (Frame.follows_iff hq).mp hfollows
  have hv := (Frame.mem_pairs_letters hq).mpr hfollows.fst
  have hv' := (Frame.mem_pairs_letters hq).mpr hfollows.snd
  have ha := Frame.fresh_mem hled hv
  have hb := Frame.fresh_mem hled hv'
  have hpair : base.frame.nextPair N (letters (u ++ [x]), u ++ [x]) =
      some (letters (u ++ [x']), u ++ [x']) := walksTo_at (Frame.pairs_walk hq hfuel) hsplit
  have hnone := (Frame.runs hled _ hv).2
  rw [Frame.stalled_scheds hled hv hstalls] at hnone
  have hstep : base.frame.step N ((letters (u ++ [x]), u ++ [x]),
      base.frame.fresh (letters (u ++ [x]), u ++ [x])) = some ((letters (u ++ [x']), u ++ [x']),
      base.frame.fresh (letters (u ++ [x']), u ++ [x'])) := by
    have hstuck : nextSched base.frame.n (base.frame.total (letters (u ++ [x])))
        (base.frame.word (u ++ [x])).length (base.frame.fresh (letters (u ++ [x]), u ++ [x]))
        (base.frame.word (u ++ [x])) = none := hnone.1
    rw [Frame.step]
    dsimp only
    rw [hstuck, hpair]
    rfl
  obtain ⟨s, hs, hat⟩ := exists_of_forall₂ hall ha
  obtain ⟨t, hnext, ht, hsched, hchanged⟩ := SBPMESched.nextIter_inFrame_some hled hq hfuel
    (Sched.frame_fits hbase) ha hat hstep
  refine ⟨N, s, t, (hout s).mpr hs, hnext, fun hlegal => ?_⟩
  apply (SBPMESched.handsOn_iff hbase hsingle hpasses ha hb hat ht hsched hchanged).mp hlegal
  exact (Frame.stalled_fresh hv hv' hstalls).symm

/-- The prefix is legal unless the next word only brings another thread to the last period. -/
theorem sbpmeSched_hands_on_iff :
    (∀ fuel s t, SBPMESched.Reached n kps p sched fix s → s.nextIter fuel = .ok t →
      HandsOn p s.sched t.sched t.schedPrefix) ↔
    ¬ ∃ u x x', base.frame.Follows (u ++ [x]) (u ++ [x']) ∧ base.frame.Stalls u x x' := by
  constructor
  · rintro hlegal ⟨u, x, x', hfollows, hstalls⟩
    obtain ⟨fuel', s, t, hs, hnext, hbad⟩ :=
      exists_unusable hbase hsingle hfix hinit hfollows hstalls
    exact hbad (hlegal fuel' s t hs hnext)
  · intro hnone fuel' s t hs hnext
    obtain ⟨hpasses, _⟩ := SBPMESched.init_inFrame hbase hsingle hfix hinit
    obtain ⟨out, hout, hall⟩ := SBPMESched.reached_forall₂ hbase hsingle hfix hinit
    have hq : 0 < base.frame.q := Nat.sub_pos_of_lt hpasses.room
    obtain ⟨a, ha, hat⟩ := exists_of_forall₂ hall.flip ((hout s).mp hs)
    obtain ⟨b, hsplit, hbt, hsched, hchanged⟩ :=
      SBPMESched.nextIter_triples hbase hsingle hfix hinit ha hat hnext
    have hb : b ∈ base.frame.triples := by
      obtain ⟨pre, post, hsplit⟩ := hsplit
      simp [hsplit]
    apply (SBPMESched.handsOn_iff hbase hsingle hpasses ha hb hat hbt hsched hchanged).mpr
    intro hsame
    exact hnone (Frame.exists_stall (Sched.frame_wellLed hbase hsingle) hq hsplit hsame)

end Handed

/-- Where only thread 0 has key points the words of two letters are increasing. -/
theorem sorted_of_visits {w : List Nat} (h : Frame.Visits ⟨3, [2, 0, 0], 2, none⟩ w) :
    ∃ x y, w = [x, y] ∧ x < y := by
  obtain ⟨x, y, rfl⟩ := List.length_eq_two.mp h.length_eq
  refine ⟨x, y, rfl, ?_⟩
  have hne : x ≠ y := (List.isChain_cons_cons.mp h.adjacent).1
  rcases Nat.eq_zero_or_pos x with rfl | hpos
  · omega
  · have hlt : x < 3 := h.lt x List.mem_cons_self
    have hidle : kpsOf [2, 0, 0] x = 0 := by
      match x with
      | 1 => rfl
      | 2 => rfl
    have hle : x ≤ y := ((h.idle [] x [y] rfl hidle).2 y (by simp)).2.resolve_right
      fun hlast => Option.some_ne_none y hlast.2
    omega

theorem visits_in_turn {y : Nat} (hpos : 0 < y) (hlt : y < 3) :
    Frame.Visits ⟨3, [2, 0, 0], 2, none⟩ [0, y] := by
  refine ⟨searchWord_of_pos ?_ ?_ ?_ ?_ (by simp [kpsOf]), rfl, ?_⟩
  · exact fun x _ => Option.some_ne_none x
  · exact List.isChain_pair.mpr (Nat.ne_of_lt hpos)
  · intro i hi
    have hi : i = 0 ∨ i = y := by simpa using hi
    show i < 3
    omega
  · intro i hi
    have hnodup : [0, y].Nodup := by simp [Nat.ne_of_lt hpos]
    exact Nat.le_trans (List.nodup_iff_count_le_one.mp hnodup i) hi
  · intro u x _ _ z _ hz hout
    have hne : z ≠ 0 := fun he => hout (by simp [he])
    obtain ⟨z, rfl⟩ := Nat.exists_eq_succ_of_ne_zero hne
    rcases z with _ | _ | z
    · exact absurd hz (by decide)
    · exact absurd hz (by decide)
    · exact absurd hz (by simp [kpsOf])

theorem follows_in_turn : Frame.Follows ⟨3, [2, 0, 0], 2, none⟩ [0, 1] [0, 2] := by
  have hone : [0, 1].Pairwise (· < ·) := by simp
  have htwo : [0, 2].Pairwise (· < ·) := by simp
  refine ⟨visits_in_turn (by decide) (by decide), visits_in_turn (by decide) (by decide),
    (sooner_iff_lt hone htwo rfl).mpr (by decide), fun v hv hbetween => ?_⟩
  obtain ⟨x, y, rfl, hlt⟩ := sorted_of_visits hv
  have hxy : [x, y].Pairwise (· < ·) := by simpa using hlt
  have hbelow := (sooner_iff_lt hone hxy rfl).mp hbetween.1
  have habove := (sooner_iff_lt hxy htwo rfl).mp hbetween.2
  simp only [List.cons_lt_cons_iff, List.not_lt_nil, and_false, or_false] at hbelow habove
  omega

theorem init_in_turn :
    ∃ fuel start, SBPMESched.init fuel 3 [2, 0, 0] 2 [] false = .ok start := by
  have hsingle : ∀ period ∈ ([] : Schedule), SingleThread period := by simp
  have hbase : Sched.initHelper 3 [2, 0, 0] 2 [] = .ok ⟨3, [2, 0, 0], 2, [], [2, 0, 0]⟩ := rfl
  apply (SBPMESched.init_accepts_iff hbase hsingle rfl).mpr
  refine ⟨⟨List.isChain_nil, by simp, Nat.zero_lt_two⟩, fun hnone => ?_⟩
  exact (Frame.firstPair_eq_none_iff Nat.zero_lt_two).mp hnone [0, 1] rfl
    follows_in_turn.fst.toSearchWord

theorem sbpmeSched_hands_on_iff_in_turn :
    (∀ fuel s t, SBPMESched.Reached 3 [2, 0, 0] 2 [] false s → s.nextIter fuel = .ok t →
      HandsOn 2 s.sched t.sched t.schedPrefix) ↔
    ¬ ∃ u x x', Frame.Follows ⟨3, [2, 0, 0], 2, none⟩ (u ++ [x]) (u ++ [x']) ∧
      Frame.Stalls ⟨3, [2, 0, 0], 2, none⟩ u x x' := by
  obtain ⟨fuel, start, hinit⟩ := init_in_turn
  have hbase : Sched.initHelper 3 [2, 0, 0] 2 [] = .ok ⟨3, [2, 0, 0], 2, [], [2, 0, 0]⟩ := rfl
  exact sbpmeSched_hands_on_iff hbase (by simp) rfl hinit

/-- The second schedule differs from the first one in the last period only. -/
theorem sbpmeSched_hands_on_fails :
    ∃ fuel s t, SBPMESched.Reached 3 [2, 0, 0] 2 [] false s ∧ s.nextIter fuel = .ok t ∧
      ¬ HandsOn 2 s.sched t.sched t.schedPrefix := by
  obtain ⟨fuel, start, hinit⟩ := init_in_turn
  have hbase : Sched.initHelper 3 [2, 0, 0] 2 [] = .ok ⟨3, [2, 0, 0], 2, [], [2, 0, 0]⟩ := rfl
  have hfollows : Frame.Follows ⟨3, [2, 0, 0], 2, none⟩ ([0] ++ [1]) ([0] ++ [2]) := follows_in_turn
  have hstalls : Frame.Stalls ⟨3, [2, 0, 0], 2, none⟩ [0] 1 2 := by
    refine ⟨rfl, by simp, by simp, fun i hi => Or.inr ⟨?_, (Option.some_ne_none i).symm⟩⟩
    rw [List.mem_singleton.mp hi]
    rfl
  exact exists_unusable hbase (by simp) rfl hinit hfollows hstalls

end Period.Scheduler
