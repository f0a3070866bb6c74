import Mathlib.Data.List.Nodup
import Mathlib.Logic.Function.Basic
import Period.Foundation.Scatter

/-!
# The report of the target

`traceEnd` walks over `mapTid` in the order of the thread ids of the system and stores the
count of each child. It looks for the index of a child under the id one below, and only if
nothing is there under the id of the child.
-/

namespace Period.Runtime

open Scatter
set_option autoImplicit false

def shareMemoryThreadNum : Nat := 100

/-- `my_tidMap` after these threads have come through `instr_PthreadCall` one after the
other, the first one with `sched_tid` 1. -/
def fillTidMap (tids : List Int) : Int → Option Nat :=
  (tids.zipIdx 1).foldl
    (fun myTidMap e => if (myTidMap e.1).isSome then myTidMap else Function.update myTidMap e.1 (some e.2))
    fun _ => none

/-- `operator[]` of the map. A key that it does not have comes in with `0`. -/
def subscript (myTidMap : Int → Option Nat) (tid : Int) : Nat × (Int → Option Nat) :=
  match myTidMap tid with
  | some v => (v, myTidMap)
  | none => (0, Function.update myTidMap tid (some 0))

structure TraceEnd where
  myTidMap : Int → Option Nat
  kpNumArray : List Nat
  maxKPNum : Nat
  pidNum : Nat

/-- `si -> kpNumArray[i] = v` behind the test `i < SHARE_MEMORY_THREAD_NUM`. Only a thread that
is not in `my_tidMap` has an index below zero; its write goes elsewhere. -/
def storeCount (kpNumArray : List Nat) (i : Int) (v : Nat) : List Nat :=
  if 0 ≤ i ∧ i < shareMemoryThreadNum then kpNumArray.set i.toNat (v % 65536) else kpNumArray

def traceEndStep (mainTid : Int) (s : TraceEnd) (e : Int × Nat) : TraceEnd :=
  if e.1 = mainTid then { s with pidNum := s.pidNum + 1 }
  else
    let prev := subscript s.myTidMap (e.1 - 1)
    let own := subscript prev.2 e.1
    let myThreadIndex : Int := if prev.1 = 0 then own.1 - 1 else prev.1
    { myTidMap := if prev.1 = 0 then own.2 else prev.2
      kpNumArray := storeCount s.kpNumArray myThreadIndex e.2
      maxKPNum := if s.maxKPNum < e.2 then e.2 else s.maxKPNum
      pidNum := s.pidNum + 1 }

structure Report where
  N : Nat
  M : Nat
  kpNumArray : List Nat
  deriving DecidableEq, Repr

/-- `traceEnd`, with the entries of `mapTid` in the order of its keys. `N` is an `unsigned int`. -/
def traceEnd (mainTid : Int) (mapTid : List (Int × Nat)) (myTidMap : Int → Option Nat) : Report :=
  let s := mapTid.foldl (traceEndStep mainTid)
    { myTidMap, kpNumArray := List.replicate shareMemoryThreadNum 0, maxKPNum := 0, pidNum := 0 }
  { N := (s.pidNum + 4294967295) % 4294967296, M := s.maxKPNum, kpNumArray := s.kpNumArray }

/-- The entries of `mapTid` that are no main thread's. -/
def hitsOf (mainTid : Int) (mapTid : List (Int × Nat)) : List (Int × Nat) :=
  mapTid.filter fun e => e.1 ≠ mainTid

/-- Children with different ids of the system, as many as the array has entries, and a
`mapTid` that knows only them and the main thread. -/
structure Children (mainTid : Int) (tids : List Int) (mapTid : List (Int × Nat)) : Prop where
  nodup : tids.Nodup
  main : mainTid ∉ tids
  length_le : tids.length ≤ shareMemoryThreadNum
  sorted : mapTid.Pairwise (·.1 < ·.1)
  known : ∀ e ∈ mapTid, e.1 = mainTid ∨ e.1 ∈ tids
  counted : ∀ e ∈ mapTid, 1 ≤ e.2

/-- The index under which the count of a child is stored. -/
def threadIndex (tids : List Int) (tid : Int) : Nat :=
  if tid - 1 ∈ tids then tids.idxOf (tid - 1) + 1 else tids.idxOf tid

/-- The indices are those of the children that hit a key point, possibly in another order
that is not seen in the counts. -/
structure KeepsCounts (tids : List Int) (hits : List (Int × Nat)) : Prop where
  fits : ∀ e ∈ hits, e.2 < 65536
  inj : ∀ e ∈ hits, ∀ e' ∈ hits, threadIndex tids e.1 = threadIndex tids e'.1 → e = e'
  same : ∀ e ∈ hits, ∃ e' ∈ hits, tids.idxOf e'.1 = threadIndex tids e.1 ∧ e'.2 = e.2

section TidMap
variable {tids : List Int}

theorem fillTidMap_concat (tids : List Int) (tid : Int) : fillTidMap (tids ++ [tid]) =
    if (fillTidMap tids tid).isSome then fillTidMap tids
    else Function.update (fillTidMap tids) tid (some (tids.length + 1)) := by
  rw [fillTidMap, List.zipIdx_append, List.foldl_append, ← fillTidMap]
  simp [Nat.add_comm]

theorem fillTidMap_eq (hnodup : tids.Nodup) (tid : Int) :
    fillTidMap tids tid = if tid ∈ tids then some (tids.idxOf tid + 1) else none := by
  induction tids using List.reverseRecOn generalizing tid with
  | nil => rfl
  | append_singleton tids last ih =>
    rw [← List.concat_eq_append, List.nodup_concat] at hnodup
    have hnew : fillTidMap tids last = none := by
      rw [ih hnodup.2, if_neg hnodup.1]
    rw [fillTidMap_concat, hnew, if_neg (by decide)]
    by_cases hlast : tid = last
    · subst hlast
      rw [Function.update_self, if_pos (by simp), List.idxOf_append_of_notMem hnodup.1]
      simp
    · rw [Function.update_of_ne hlast, ih hnodup.2]
      by_cases hmem : tid ∈ tids
      · rw [if_pos hmem, if_pos (List.mem_append_left _ hmem), List.idxOf_append_of_mem hmem]
      · rw [if_neg hmem, if_neg]
        intro happ
        rcases List.mem_append.mp happ with happ | happ
        · exact hmem happ
        · exact hlast (List.mem_singleton.mp happ)

theorem fillTidMap_getD (hnodup : tids.Nodup) (tid : Int) :
    (fillTidMap tids tid).getD 0 = if tid ∈ tids then tids.idxOf tid + 1 else 0 := by
  rw [fillTidMap_eq hnodup]
  split <;> rfl

theorem subscript_fst (myTidMap : Int → Option Nat) (tid : Int) :
    (subscript myTidMap tid).1 = (myTidMap tid).getD 0 := by
  rw [subscript]
  cases myTidMap tid <;> rfl

theorem subscript_snd (myTidMap : Int → Option Nat) (tid u : Int) :
    ((subscript myTidMap tid).2 u).getD 0 = (myTidMap u).getD 0 := by
  rw [subscript]
  split
  · rfl
  · next hnone =>
    by_cases hu : u = tid
    · subst hu
      simp [hnone]
    · simp [Function.update_of_ne hu]

end TidMap

/-! ## The loop -/

section Loop
variable {mainTid : Int} {tids : List Int} {s : TraceEnd} {e : Int × Nat}

/-- The entries that lookups have left in `my_tidMap` have the value that a missing one has. -/
def SameIds (tids : List Int) (s : TraceEnd) : Prop :=
  ∀ tid, (s.myTidMap tid).getD 0 = if tid ∈ tids then tids.idxOf tid + 1 else 0

theorem traceEndStep_child (h : SameIds tids s) (hmain : e.1 ≠ mainTid) (hmem : e.1 ∈ tids)
    (hlen : s.kpNumArray.length = shareMemoryThreadNum) :
    SameIds tids (traceEndStep mainTid s e) ∧
    (traceEndStep mainTid s e).kpNumArray =
      s.kpNumArray.set (threadIndex tids e.1) (e.2 % 65536) ∧
    (traceEndStep mainTid s e).maxKPNum = max s.maxKPNum e.2 := by
  have hprev : (subscript s.myTidMap (e.1 - 1)).1 =
      if e.1 - 1 ∈ tids then tids.idxOf (e.1 - 1) + 1 else 0 := by
    rw [subscript_fst, h]
  have hown : (subscript (subscript s.myTidMap (e.1 - 1)).2 e.1).1 = tids.idxOf e.1 + 1 := by
    rw [subscript_fst, subscript_snd, h, if_pos hmem]
  have hindex : (if (subscript s.myTidMap (e.1 - 1)).1 = 0 then
      ((subscript (subscript s.myTidMap (e.1 - 1)).2 e.1).1 : Int) - 1
      else (subscript s.myTidMap (e.1 - 1)).1) = (threadIndex tids e.1 : Int) := by
    rw [hprev, hown, threadIndex]
    by_cases hbefore : e.1 - 1 ∈ tids
    · simp [hbefore]
    · simp [hbefore]
  rw [traceEndStep, if_neg hmain]
  refine ⟨fun tid => ?_, ?_, ?_⟩
  · simp only []
    split
    · rw [subscript_snd, subscript_snd]
      exact h tid
    · rw [subscript_snd]
      exact h tid
  · simp only [hindex, storeCount]
    split
    · rw [Int.toNat_natCast]
    · next hbehind =>
      rw [List.set_eq_of_length_le]
      omega
  · simp only []
    split
    · omega
    · omega

/-- The loop writes the counts of the children at their indices. -/
theorem traceEnd_loop {mapTid : List (Int × Nat)} (h : SameIds tids s)
    (hknown : ∀ e ∈ mapTid, e.1 = mainTid ∨ e.1 ∈ tids)
    (hlen : s.kpNumArray.length = shareMemoryThreadNum) :
    (mapTid.foldl (traceEndStep mainTid) s).kpNumArray =
      scatter (fun e => threadIndex tids e.1) (fun e => e.2 % 65536) (hitsOf mainTid mapTid)
        s.kpNumArray ∧
    (mapTid.foldl (traceEndStep mainTid) s).maxKPNum =
      ((hitsOf mainTid mapTid).map Prod.snd).foldl max s.maxKPNum := by
  induction mapTid generalizing s with
  | nil => exact ⟨rfl, rfl⟩
  | cons e mapTid ih =>
    have hknown' := fun e' he' => hknown e' (List.mem_cons_of_mem e he')
    rw [List.foldl_cons, hitsOf]
    by_cases hmain : e.1 = mainTid
    · rw [List.filter_cons_of_neg (by simp [hmain]), ← hitsOf]
      have hskip : traceEndStep mainTid s e = { s with pidNum := s.pidNum + 1 } := if_pos hmain
      rw [hskip]
      exact ih h hknown' hlen
    · obtain ⟨hsame, harray, hmax⟩ := traceEndStep_child h hmain
        ((hknown e List.mem_cons_self).resolve_left hmain) hlen
      rw [List.filter_cons_of_pos (by simp [hmain]), ← hitsOf]
      obtain ⟨hcounts, hbiggest⟩ := ih hsame hknown' (by rw [harray, List.length_set, hlen])
      rw [hcounts, hbiggest, harray, hmax]
      exact ⟨rfl, rfl⟩

end Loop

section Report
variable {mainTid : Int} {tids : List Int} {mapTid : List (Int × Nat)}

theorem traceEnd_eq (h : Children mainTid tids mapTid) :
    (traceEnd mainTid mapTid (fillTidMap tids)).kpNumArray =
      scatter (fun e => threadIndex tids e.1) (fun e => e.2 % 65536) (hitsOf mainTid mapTid)
        (List.replicate shareMemoryThreadNum 0) ∧
    (traceEnd mainTid mapTid (fillTidMap tids)).M =
      ((hitsOf mainTid mapTid).map Prod.snd).foldl max 0 :=
  traceEnd_loop (fillTidMap_getD h.nodup) h.known List.length_replicate

theorem Children.mem_tids (h : Children mainTid tids mapTid) {e : Int × Nat}
    (he : e ∈ hitsOf mainTid mapTid) : e.1 ∈ tids := by
  obtain ⟨he, hmain⟩ := List.mem_filter.mp he
  exact (h.known e he).resolve_left (of_decide_eq_true hmain)

theorem Children.eq_of_idxOf (h : Children mainTid tids mapTid) {e e' : Int × Nat}
    (he : e ∈ hitsOf mainTid mapTid) (he' : e' ∈ hitsOf mainTid mapTid)
    (heq : tids.idxOf e.1 = tids.idxOf e'.1) : e = e' := by
  have htid : e.1 = e'.1 := (List.idxOf_inj (h.mem_tids he)).mp heq
  have hkeys : (mapTid.map Prod.fst).Nodup := by
    rw [List.Nodup, List.pairwise_map]
    exact h.sorted.imp Int.ne_of_lt
  exact List.inj_on_of_nodup_map hkeys (List.mem_of_mem_filter he) (List.mem_of_mem_filter he') htid

/-- Every count is stored under the index of its child and `M` is the biggest one exactly
when the indices are those of the children. -/
theorem traceEnd_reports_iff (h : Children mainTid tids mapTid) :
    (AtHome (fun e => tids.idxOf e.1) Prod.snd (hitsOf mainTid mapTid)
        (traceEnd mainTid mapTid (fillTidMap tids)).kpNumArray ∧
      (traceEnd mainTid mapTid (fillTidMap tids)).M =
        ((hitsOf mainTid mapTid).map Prod.snd).foldl max 0) ↔
      KeepsCounts tids (hitsOf mainTid mapTid) := by
  obtain ⟨harray, hM⟩ := traceEnd_eq h
  rw [and_iff_left hM, harray]
  have hhome : ∀ e ∈ hitsOf mainTid mapTid, ∀ e' ∈ hitsOf mainTid mapTid,
      tids.idxOf e.1 = tids.idxOf e'.1 → e = e' := fun e he e' he' => h.eq_of_idxOf he he'
  have hlt : ∀ e ∈ hitsOf mainTid mapTid, tids.idxOf e.1 < shareMemoryThreadNum := fun e he =>
    Nat.lt_of_lt_of_le (List.idxOf_lt_length_of_mem (h.mem_tids he)) h.length_le
  have hpos : ∀ e ∈ hitsOf mainTid mapTid, e.2 ≠ 0 := fun e he =>
    Nat.pos_iff_ne_zero.mp (h.counted e (List.mem_of_mem_filter he))
  have hwhole : (∀ e ∈ hitsOf mainTid mapTid, e.2 < 65536) →
      scatter (fun e => threadIndex tids e.1) (fun e => e.2 % 65536) (hitsOf mainTid mapTid)
        (List.replicate shareMemoryThreadNum 0) =
      scatter (fun e => threadIndex tids e.1) Prod.snd (hitsOf mainTid mapTid)
        (List.replicate shareMemoryThreadNum 0) := fun hfits =>
    scatter_congr fun e he => Nat.mod_eq_of_lt (hfits e he)
  constructor
  · intro hreport
    have hfits : ∀ e ∈ hitsOf mainTid mapTid, e.2 < 65536 := by
      intro e he
      rw [← hreport.1 e he]
      apply scatter_lt (fun _ _ => Nat.mod_lt _ (by decide))
      intro j
      rw [getD_replicate_zero]
      decide
    rw [hwhole hfits, atHome_iff hhome hlt hpos] at hreport
    exact ⟨hfits, hreport.1, hreport.2⟩
  · intro hkeeps
    rw [hwhole hkeeps.fits, atHome_iff hhome hlt hpos]
    exact ⟨hkeeps.inj, hkeeps.same⟩

end Report

theorem children_reversed : Children 100 [102, 101] [(101, 5), (102, 7)] :=
  ⟨by decide, by decide, by decide, by decide, by decide, by decide⟩

theorem traceEnd_reports_iff_reversed :
    (AtHome (fun e => [102, 101].idxOf e.1) Prod.snd (hitsOf 100 [(101, 5), (102, 7)])
        (traceEnd 100 [(101, 5), (102, 7)] (fillTidMap [102, 101])).kpNumArray ∧
      (traceEnd 100 [(101, 5), (102, 7)] (fillTidMap [102, 101])).M =
        ((hitsOf 100 [(101, 5), (102, 7)]).map Prod.snd).foldl max 0) ↔
      KeepsCounts [102, 101] (hitsOf 100 [(101, 5), (102, 7)]) :=
  traceEnd_reports_iff children_reversed

/-- The second child has the id below the one of the first child: the seven key points of the
first child are stored behind both. -/
theorem traceEnd_misreports :
    Children 100 [102, 101] [(101, 5), (102, 7)] ∧
    ¬ AtHome (fun e => [102, 101].idxOf e.1) Prod.snd (hitsOf 100 [(101, 5), (102, 7)])
      (traceEnd 100 [(101, 5), (102, 7)] (fillTidMap [102, 101])).kpNumArray ∧
    (traceEnd 100 [(101, 5), (102, 7)] (fillTidMap [102, 101])).kpNumArray =
      [0, 5, 7] ++ List.replicate 97 0 := by
  have harray : (traceEnd 100 [(101, 5), (102, 7)] (fillTidMap [102, 101])).kpNumArray =
      [0, 5, 7] ++ List.replicate 97 0 := by
    rfl
  refine ⟨children_reversed, fun h => ?_, harray⟩
  have hfirst := h.1 (102, 7) (by decide)
  rw [harray] at hfirst
  cases hfirst

end Period.Runtime
