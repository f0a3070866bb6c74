import Period.Driver.DefaultRun
import Period.Runtime.TraceEnd

/-!
# The first reading

What the target reports is what the script reads after the dry run and the default runs. The
count of a child may be under another index, and then a thread seems to have no key points.
-/

namespace Period.Driver

open Period.Runtime Runs Scatter
set_option autoImplicit false

/-- What the script reads behind `traceEnd`. -/
def readingOf (r : Report) (kpLocArray : Nat → Nat) : Reading where
  A := r.N
  B := r.M
  kpNumArray := fun i => r.kpNumArray.getD i 0
  kpLocArray := kpLocArray

section Report
variable {mainTid : Int} {tids : List Int} {mapTid : List (Int × Nat)} {kpLocArray : Nat → Nat}

theorem traceEnd_pidNum (s : TraceEnd) :
    (mapTid.foldl (traceEndStep mainTid) s).pidNum = s.pidNum + mapTid.length := by
  induction mapTid generalizing s with
  | nil => rfl
  | cons e mapTid ih =>
    have hstep : (traceEndStep mainTid s e).pidNum = s.pidNum + 1 := by
      rw [traceEndStep]
      split
      · rfl
      · rfl
    rw [List.foldl_cons, ih, hstep, List.length_cons]
    omega

/-- There is an entry for the main thread at most, and one for each child at most. -/
theorem length_mapTid_le (h : Children mainTid tids mapTid) : mapTid.length ≤ tids.length + 1 := by
  have hkeys : (mapTid.map Prod.fst).Nodup := by
    rw [List.Nodup, List.pairwise_map]
    exact h.sorted.imp Int.ne_of_lt
  have hsub : mapTid.map Prod.fst ⊆ mainTid :: tids := by
    intro tid htid
    obtain ⟨e, he, rfl⟩ := List.mem_map.mp htid
    exact List.mem_cons.mpr (h.known e he)
  have hle := (hkeys.subperm hsub).length_le
  rwa [List.length_map, List.length_cons] at hle

theorem traceEnd_N (h : Children mainTid tids mapTid) :
    (traceEnd mainTid mapTid (fillTidMap tids)).N =
      if mapTid = [] then 4294967295 else mapTid.length - 1 := by
  have hN : (traceEnd mainTid mapTid (fillTidMap tids)).N = (mapTid.length + 4294967295) % 4294967296 := by
    simp only [traceEnd, traceEnd_pidNum, Nat.zero_add]
  have hle := length_mapTid_le h
  have hroom := h.length_le
  rw [shareMemoryThreadNum] at hroom
  rw [hN]
  split
  · next hnil =>
    rw [hnil, List.length_nil]
  · next hne =>
    have hpos := List.length_pos_iff.mpr hne
    omega

theorem traceEnd_pos_iff (h : Children mainTid tids mapTid)
    (hfits : ∀ e ∈ hitsOf mainTid mapTid, e.2 < 65536) {i : Nat} :
    0 < (traceEnd mainTid mapTid (fillTidMap tids)).kpNumArray.getD i 0 ↔
      i < shareMemoryThreadNum ∧ ∃ e ∈ hitsOf mainTid mapTid, threadIndex tids e.1 = i := by
  rw [(traceEnd_eq h).1]
  apply scatter_pos_iff
  intro e he
  rw [Nat.mod_eq_of_lt (hfits e he)]
  exact h.counted e (List.mem_of_mem_filter he)

theorem traceEnd_le (h : Children mainTid tids mapTid) (i : Nat) :
    (traceEnd mainTid mapTid (fillTidMap tids)).kpNumArray.getD i 0 ≤
      (traceEnd mainTid mapTid (fillTidMap tids)).M := by
  obtain ⟨harray, hM⟩ := traceEnd_eq h
  rw [harray, hM]
  apply Nat.le_of_lt_succ
  apply scatter_lt
  · intro e he
    have hmax := (foldl_max_spec ((hitsOf mainTid mapTid).map Prod.snd) 0).1 e.2
      (List.mem_cons_of_mem 0 (List.mem_map_of_mem he))
    exact Nat.lt_succ_of_le ((Nat.mod_le e.2 65536).trans hmax)
  · intro j
    rw [getD_replicate_zero]
    exact Nat.succ_pos _

/-- The counts are under the indices of the threads that the script knows of. -/
theorem dense_of_indices (h : Children mainTid tids mapTid)
    (hfits : ∀ e ∈ hitsOf mainTid mapTid, e.2 < 65536) (hne : mapTid ≠ [])
    (hindices : ∀ i < mapTid.length - 1, ∃ e ∈ hitsOf mainTid mapTid, threadIndex tids e.1 = i) :
    (readingOf (traceEnd mainTid mapTid (fillTidMap tids)) kpLocArray).Dense := by
  have hA := traceEnd_N h
  rw [if_neg hne] at hA
  refine ⟨fun i hi => ?_, fun i => traceEnd_le h i⟩
  have hi' : i < mapTid.length - 1 := hi.trans_eq hA
  have hroom : i < shareMemoryThreadNum := by
    have hle := length_mapTid_le h
    have hlength := h.length_le
    omega
  exact (traceEnd_pos_iff h hfits).mpr ⟨hroom, hindices i hi'⟩

/-- What the script reads shows key points in every thread exactly when a thread has come to a
key point and the counts of the children fill the indices without a gap. -/
theorem dense_traceEnd_iff (h : Children mainTid tids mapTid)
    (hfits : ∀ e ∈ hitsOf mainTid mapTid, e.2 < 65536) :
    (readingOf (traceEnd mainTid mapTid (fillTidMap tids)) kpLocArray).Dense ↔
      mapTid ≠ [] ∧ ∀ i < mapTid.length - 1, ∃ e ∈ hitsOf mainTid mapTid, threadIndex tids e.1 = i := by
  constructor
  · intro hdense
    have hA := traceEnd_N h
    have hne : mapTid ≠ [] := by
      intro hnil
      -- `N` is far behind the array, where nothing has been written.
      rw [if_pos hnil] at hA
      have hlt : 100 < (traceEnd mainTid mapTid (fillTidMap tids)).N := by
        rw [hA]
        decide
      exact Nat.lt_irrefl 100 ((traceEnd_pos_iff h hfits).mp (hdense.pos 100 hlt)).1
    rw [if_neg hne] at hA
    refine ⟨hne, fun i hi => ?_⟩
    exact ((traceEnd_pos_iff h hfits).mp (hdense.pos i (hi.trans_eq hA.symm))).2
  · rintro ⟨hne, hindices⟩
    exact dense_of_indices h hfits hne hindices

end Report

/-- The children of `children_reversed` and the main thread have all hit key points. -/
theorem dense_traceEnd_iff_reversed :
    (readingOf (traceEnd 100 [(100, 1), (101, 5), (102, 7)] (fillTidMap [102, 101])) fun _ => 0).Dense ↔
      [((100 : Int), 1), (101, 5), (102, 7)] ≠ [] ∧
      ∀ i < 2, ∃ e ∈ hitsOf 100 [(100, 1), (101, 5), (102, 7)], threadIndex [102, 101] e.1 = i :=
  dense_traceEnd_iff ⟨by decide, by decide, by decide, by decide, by decide, by decide⟩ (by decide)

end Period.Driver
