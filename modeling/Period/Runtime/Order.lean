import Period.Runtime.Timing

/-!
# What the slots say about a run

Every key point has its own slot, so that nothing is overwritten: `kpOrder` numbers the key
points as they were passed, and `kpLoc` holds their hashes in the rows of the children.
-/

namespace Period.Runtime

open Aligned Runs RowMajor
set_option autoImplicit false

def slotsOf (log : List Hit) : List Nat := log.map (·.access.slot)

/-- The slots of the key points passed hold their numbers and hashes, the others nothing. -/
structure Traced (s : Execution) : Prop where
  next : s.target.curSyncOrder = (s.log.length + 1) % 65536
  own : (slotsOf s.log).Nodup
  passed : ∀ n hit, s.log[n]? = some hit →
    s.target.kpOrder hit.access.slot = (n + 1) % 65536 ∧ s.target.kpLoc hit.access.slot = hit.intHash
  empty : ∀ i, i ∉ slotsOf s.log → s.target.kpOrder i = 0 ∧ s.target.kpLoc i = 0

theorem traced_start {a : Target} (h : Fresh a) : Traced (.start a) where
  next := h.next
  own := List.nodup_nil
  passed _ _ h := nomatch h
  empty i _ := h.empty i

section Steps
variable {numTd numKp : Nat} {table : Nat → Nat} {s : Execution} {a : Target}

theorem traced_congr {s' : Execution} (h : Traced s) (hlog : s'.log = s.log)
    (hnext : s'.target.curSyncOrder = s.target.curSyncOrder)
    (horder : s'.target.kpOrder = s.target.kpOrder) (hloc : s'.target.kpLoc = s.target.kpLoc) :
    Traced s' := by
  constructor
  · rw [hlog, hnext]
    exact h.next
  · rw [hlog]
    exact h.own
  · rw [hlog, horder, hloc]
    exact h.passed
  · rw [hlog, horder, hloc]
    exact h.empty

/-- A child that is in the loop stands at a slot nobody has written. -/
theorem slot_fresh (hsim : Sim numKp table s a) (hrows : AlongRows numKp table s a)
    {t intHash yields : Nat} (hp : s.point t = .draining intHash yields) :
    s.slot t ∉ slotsOf s.log := by
  have hin := hsim.inside t intHash yields (by rw [hp]; rfl)
  have hslot : s.slot t = (t - 1) * numKp + a.mapTid t :=
    (hsim.slot_eq t).trans (hsim.untouched.registered t hin.registered).2.2
  intro hmem
  obtain ⟨hit, hhit, heq⟩ := List.mem_map.mp hmem
  have hne := hrows.1 hit hhit
  have hchild : hit.access ∈ (passedBy hit.access.schedTid s.log).map (·.access) :=
    List.mem_map.mpr ⟨hit, mem_passedBy.mpr ⟨hhit, rfl⟩, rfl⟩
  rw [hrows.2 _ hne] at hchild
  obtain ⟨k, hk, haccess⟩ := List.mem_map.mp hchild
  have hk := List.mem_range.mp hk
  rw [← haccess, hslot] at heq
  have hroom := hsim.bounded _ hne
  obtain ⟨hthread, hkey⟩ := index_unique (Nat.lt_of_lt_of_le hk hroom) hin.room heq
  have hpos := hin.pos
  have hsame : hit.access.schedTid = t := by omega
  rw [hsame] at hk
  omega

theorem traced_records (hsim : Sim numKp table s a) (hrows : AlongRows numKp table s a) (h : Traced s)
    {t intHash yields : Nat} (hp : s.point t = .draining intHash yields) :
    Traced (s.leave t intHash yields) := by
  have hfresh := slot_fresh hsim hrows hp
  have hslots : slotsOf (s.leave t intHash yields).log = slotsOf s.log ++ [s.slot t] :=
    List.map_append
  refine ⟨?_, ?_, fun n hit hn => ?_, fun i hi => ?_⟩
  · show (s.target.curSyncOrder + 1) % 65536 = ((s.log ++ [_]).length + 1) % 65536
    rw [h.next, List.length_append, List.length_singleton, Nat.mod_add_mod]
  · rw [hslots]
    exact List.nodup_append.mpr ⟨h.own, List.pairwise_singleton _ _, fun i hi j hj hij =>
      hfresh (List.mem_singleton.mp hj ▸ hij ▸ hi)⟩
  · show Function.update s.target.kpOrder (s.slot t) s.target.curSyncOrder hit.access.slot = _ ∧
      Function.update s.target.kpLoc (s.slot t) intHash hit.access.slot = hit.intHash
    have hlog : (s.leave t intHash yields).log = s.log ++ [s.hit t intHash yields] := rfl
    rw [hlog] at hn
    rcases getElem?_concat hn with ⟨_, hn⟩ | ⟨hlast, hhit⟩
    · have hne : hit.access.slot ≠ s.slot t := by
        intro heq
        exact hfresh (heq ▸ List.mem_map.mpr ⟨hit, List.mem_of_getElem? hn, rfl⟩)
      rw [Function.update_of_ne hne, Function.update_of_ne hne]
      exact h.passed n hit hn
    · subst hlast hhit
      show Function.update _ (s.slot t) _ (s.slot t) = _ ∧ Function.update _ (s.slot t) _ (s.slot t) = _
      rw [Function.update_self, Function.update_self]
      exact ⟨h.next, rfl⟩
  · rw [hslots, List.mem_append, List.mem_singleton, not_or] at hi
    show Function.update s.target.kpOrder (s.slot t) s.target.curSyncOrder i = 0 ∧
      Function.update s.target.kpLoc (s.slot t) intHash i = 0
    rw [Function.update_of_ne hi.2, Function.update_of_ne hi.2]
    exact h.empty i hi.1

theorem traced_step {act : Act} {calls : List Call} {s' : Execution}
    (hout : s.StepOutcome act calls s') (hsim : Sim numKp table s a) (hrows : AlongRows numKp table s a)
    (h : Traced s) : Traced s' := by
  cases hout with
  | idle _ => exact h
  | creates t =>
    have hkeep : ∀ b : Target, (instrPthreadCall t b).curSyncOrder = b.curSyncOrder ∧
        (instrPthreadCall t b).kpOrder = b.kpOrder ∧ (instrPthreadCall t b).kpLoc = b.kpLoc := by
      intro b
      unfold instrPthreadCall
      split <;> exact ⟨rfl, rfl, rfl⟩
    obtain ⟨hnext, horder, hloc⟩ := hkeep s.target
    exact traced_congr h rfl hnext horder hloc
  | skips _ _ _ => exact h
  | counts _ _ _ => exact traced_congr h rfl rfl rfl rfl
  | enters _ _ _ _ _ => exact traced_congr h rfl rfl rfl rfl
  | sleeps _ _ _ _ _ => exact traced_congr h rfl rfl rfl rfl
  | wakes _ _ _ _ _ => exact traced_congr h rfl rfl rfl rfl
  | records t intHash yields hpoint _ => exact traced_records hsim hrows h hpoint
  | ticks => exact traced_congr h rfl rfl rfl rfl

theorem traced_run {acts : List Act} (hacts : Meets Execution.step (Act.InRow numTd) acts s)
    (hsim : Sim numKp table s a) (hrows : AlongRows numKp table s a) (h : Traced s) :
    Traced (run Execution.step acts s) := by
  induction acts generalizing s a with
  | nil => exact h
  | cons act acts ih =>
    obtain ⟨hact, hacts⟩ := hacts
    have hout := Execution.step_outcome act s
    exact ih hacts (sim_step hout hact hsim).2.1 (alongRows_step hout hsim hrows)
      (traced_step hout hsim hrows h)

end Steps

theorem traced_of_inRow {numTd : Nat} {a : Target} {acts : List Act} {s : Execution} (hfresh : Fresh a)
    (hs : s = .start a) (hacts : Meets Execution.step (Act.InRow numTd) acts s) :
    Traced (run Execution.step acts s) := by
  subst hs
  exact traced_run hacts hfresh.sim hfresh.alongRows (traced_start hfresh)

section Hashes
variable {numTd : Nat} {a : Target} {acts : List Act} {s : Execution}

/-- Slot `k` of the row of a child holds the hash of its `k`-th key point. -/
theorem kpLoc_of_child (hfresh : Fresh a) (hs : s = .start a)
    (hacts : Meets Execution.step (Act.InRow numTd) acts s) {t k : Nat} {hit : Hit} (ht : t ≠ 0)
    (hk : (passedBy t (run Execution.step acts s).log)[k]? = some hit) :
    hit.access.slot = (t - 1) * a.numKp + k ∧
      (run Execution.step acts s).target.kpLoc ((t - 1) * a.numKp + k) = hit.intHash := by
  have hslot : hit.access.slot = (t - 1) * a.numKp + k := by
    rw [access_of_child hfresh hs hacts ht hk]
    rfl
  obtain ⟨n, hn⟩ := List.mem_iff_getElem?.mp (mem_passedBy.mp (List.mem_of_getElem? hk)).1
  exact ⟨hslot, hslot ▸ ((traced_of_inRow hfresh hs hacts).passed n hit hn).2⟩

theorem kpLoc_agrees {numTd' : Nat} {a' : Target} {acts' : List Act} {s' : Execution}
    (hfresh : Fresh a) (hs : s = .start a) (hacts : Meets Execution.step (Act.InRow numTd) acts s)
    (hfresh' : Fresh a') (hs' : s' = .start a')
    (hacts' : Meets Execution.step (Act.InRow numTd') acts' s') (hnumKp : a.numKp = a'.numKp)
    (hhashes : ∀ t, t ≠ 0 → (passedBy t (run Execution.step acts s).log).map (·.intHash) =
      (passedBy t (run Execution.step acts' s').log).map (·.intHash))
    {i : Nat} (hi : i ∈ slotsOf (run Execution.step acts s).log) :
    (run Execution.step acts s).target.kpLoc i = (run Execution.step acts' s').target.kpLoc i := by
  obtain ⟨hit, hmem, rfl⟩ := List.mem_map.mp hi
  have ht : hit.access.schedTid ≠ 0 := passed_by_child hfresh hs hacts hmem
  obtain ⟨k, hk⟩ := List.mem_iff_getElem?.mp (mem_passedBy.mpr ⟨hmem, rfl⟩)
  have hsame := congrArg (·[k]?) (hhashes _ ht)
  simp only [List.getElem?_map, hk, Option.map_some] at hsame
  obtain ⟨hit', hk', hhash⟩ := Option.map_eq_some_iff.mp hsame.symm
  obtain ⟨hslot, hloc⟩ := kpLoc_of_child hfresh hs hacts ht hk
  rw [hslot, hloc, hnumKp, (kpLoc_of_child hfresh' hs' hacts' ht hk').2, hhash]

end Hashes

def undisturbed : List Act := [.create 2, .create 1, .call 2 8, .record 2, .call 1 7, .record 1]

end Period.Runtime
