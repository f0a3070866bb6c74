import Period.Foundation.Runs
import Period.Runtime.Target

/-!
# The slots that are used

The dry run gives every child a tenth of the array and lets its index run on; a DBDS run
gives it a row and moves the index behind the announced rows at the end of it. Both read
the slots of the child in `isBoundedLocHash` and then use the slot at its index.
-/

namespace Period.Runtime

open Runs
set_option autoImplicit false

/-- The target after `traceBegin`. Only a DBDS run loads what the driver has written. -/
def traceBeginIn (dbdsRun : Bool) (siN siM loopUnwindedNum : Nat) (kp : Nat → Nat) : Target :=
  if dbdsRun then traceBegin siN siM loopUnwindedNum kp
  else traceBegin 0 0 loopUnwindedNum fun _ => 0

/-- `tid2index`. -/
def startIndex (dbdsRun : Bool) (numKp schedTid : Nat) : Nat :=
  if dbdsRun then (schedTid - 1) * numKp
  else
    let tid2index := (schedTid - 1) * (shareMemoryArraySize / 10)
    if shareMemoryArraySize ≤ tid2index then 0 else tid2index

/-- Where `idx_kpMap` moves after a counted key point. -/
def advanceIn (dbdsRun : Bool) (s : Target) (schedTid : Nat) : Nat :=
  if dbdsRun then advance s schedTid else s.idxKpMap schedTid + 1

def instrPthreadCallIn (dbdsRun : Bool) (schedTid : Nat) (s : Target) : Target :=
  if schedTid = 0 ∨ s.myTidMap schedTid then s
  else
    let tid2index := startIndex dbdsRun s.numKp schedTid
    { s with
      myTidMap := Function.update s.myTidMap schedTid true
      idxKpMap := Function.update s.idxKpMap schedTid tid2index
      idxOriginalKpMap := Function.update s.idxOriginalKpMap schedTid tid2index }

/-- `instr_LOC_string`. Only a DBDS run drains `kpYield`. -/
def instrLOCStringIn (dbdsRun : Bool) (schedTid intHash : Nat) (s : Target) : Target :=
  if loopUnwinded s schedTid intHash then
    let s' := { s with mapTid := Function.update s.mapTid schedTid (s.mapTid schedTid + 1) }
    if schedTid = 0 then s'
    else
      let slot := s.idxKpMap schedTid
      { s' with
        kpYield := if dbdsRun then Function.update s.kpYield slot 0 else s.kpYield
        kpLoc := Function.update s.kpLoc slot intHash
        kpOrder := Function.update s.kpOrder slot s.curSyncOrder
        curSyncOrder := (s.curSyncOrder + 1) % 65536
        idxKpMap := Function.update s.idxKpMap schedTid (advanceIn dbdsRun s schedTid) }
  else s

def Call.performIn (dbdsRun : Bool) : Call → Target → Target
  | .pthreadCall schedTid, s => instrPthreadCallIn dbdsRun schedTid s
  | .locString schedTid intHash, s => instrLOCStringIn dbdsRun schedTid intHash s

theorem performIn_dbds (c : Call) (s : Target) : c.performIn true s = (c.perform s).1 := by
  cases c with
  | pthreadCall t => rfl
  | locString t intHash =>
    rw [Call.performIn, Call.perform, instrLOCStringIn, instrLOCString]
    split
    · split <;> rfl
    · rfl

def slotsRead (loopUnwindedNum : Nat) (kpLoc : Nat → Nat) (intHash : Nat) :
    Nat → List Nat → List Nat
  | _, [] => []
  | hitCount, i :: slots =>
    let hitCount := if kpLoc i = intHash then hitCount + 1 else hitCount
    i :: if loopUnwindedNum ≤ hitCount then [] else slotsRead loopUnwindedNum kpLoc intHash hitCount slots

/-- The slots that a call uses: what the loop test reads, and the slot at the index. -/
def Call.slots : Call → Target → List Nat
  | .pthreadCall _, _ => []
  | .locString t intHash, s =>
    slotsRead s.loopUnwindedNum s.kpLoc intHash 0
      (List.range' (s.idxOriginalKpMap t) (s.idxKpMap t - s.idxOriginalKpMap t)) ++
    if t ≠ 0 ∧ loopUnwinded s t intHash = true then [s.idxKpMap t] else []

def slotsUsed (dbdsRun : Bool) : List Call → Target → List Nat
  | [], _ => []
  | c :: calls, s => c.slots s ++ slotsUsed dbdsRun calls (c.performIn dbdsRun s)

/-- A key point of a child is counted after as many as there are slots from the first one of
the child to the end of the array. In a DBDS run the index only runs on to the end of the row. -/
def Exhausts (dbdsRun : Bool) : Call → Target → Prop
  | .pthreadCall _, _ => False
  | .locString t intHash, s => t ≠ 0 ∧ loopUnwinded s t intHash = true ∧
    s.mapTid t = shareMemoryArraySize - startIndex dbdsRun s.numKp t ∧
    (dbdsRun = true → s.mapTid t ≤ s.numKp)

theorem slotsRead_subset (loopUnwindedNum : Nat) (kpLoc : Nat → Nat) (intHash hitCount : Nat)
    (slots : List Nat) : slotsRead loopUnwindedNum kpLoc intHash hitCount slots ⊆ slots := by
  induction slots generalizing hitCount with
  | nil => exact List.Subset.refl _
  | cons i slots ih =>
    simp only [slotsRead]
    apply List.cons_subset_cons
    generalize (if kpLoc i = intHash then hitCount + 1 else hitCount) = hits
    split
    · exact List.nil_subset _
    · exact ih _

/-- The calls come down to one of three outcomes, as in a DBDS run. -/
inductive OutcomeIn (dbdsRun : Bool) (c : Call) (s : Target) : Target → Prop where
  | quiet (m : Nat → Nat) (h : ∀ t, t ≠ 0 → m t = s.mapTid t) :
      OutcomeIn dbdsRun c s { s with mapTid := m }
  | registers (t : Nat) (hpos : t ≠ 0) (hnew : s.myTidMap t = false) :
      OutcomeIn dbdsRun c s { s with
        myTidMap := Function.update s.myTidMap t true
        idxKpMap := Function.update s.idxKpMap t (startIndex dbdsRun s.numKp t)
        idxOriginalKpMap := Function.update s.idxOriginalKpMap t (startIndex dbdsRun s.numKp t) }
  | hits (t intHash : Nat) (kpYield : Nat → Nat) (hc : c = .locString t intHash) (hpos : t ≠ 0)
      (hcounted : loopUnwinded s t intHash = true) :
      OutcomeIn dbdsRun c s { s with
        mapTid := Function.update s.mapTid t (s.mapTid t + 1)
        kpYield := kpYield
        kpLoc := Function.update s.kpLoc (s.idxKpMap t) intHash
        kpOrder := Function.update s.kpOrder (s.idxKpMap t) s.curSyncOrder
        curSyncOrder := (s.curSyncOrder + 1) % 65536
        idxKpMap := Function.update s.idxKpMap t (advanceIn dbdsRun s t) }

theorem Call.performIn_outcome (dbdsRun : Bool) (c : Call) (s : Target) :
    OutcomeIn dbdsRun c s (c.performIn dbdsRun s) := by
  cases c with
  | pthreadCall t =>
    rw [Call.performIn, instrPthreadCallIn]
    by_cases h : t = 0 ∨ s.myTidMap t = true
    · rw [if_pos h]
      exact OutcomeIn.quiet s.mapTid fun _ _ => rfl
    · rw [if_neg h]
      rw [not_or] at h
      exact OutcomeIn.registers t h.1 (by simpa using h.2)
  | locString t intHash =>
    rw [Call.performIn, instrLOCStringIn]
    by_cases hcounted : loopUnwinded s t intHash = true
    · rw [if_pos hcounted]
      by_cases ht : t = 0
      · rw [if_pos ht]
        exact OutcomeIn.quiet _ fun u hu => Function.update_of_ne (by rw [ht]; exact hu) _ _
      · rw [if_neg ht]
        exact OutcomeIn.hits t intHash _ rfl ht hcounted
    · rw [if_neg hcounted]
      exact OutcomeIn.quiet s.mapTid fun _ _ => rfl

/-! ## Where the indices are -/

/-- The index of a child: on its way through its slots, or past the end of its row. -/
inductive IndexPlace (dbdsRun : Bool) (s : Target) (t : Nat) : Prop where
  | within (hrow : dbdsRun = true → s.mapTid t ≤ s.numKp)
      (hidx : s.idxKpMap t = s.idxOriginalKpMap t + s.mapTid t)
      (hend : s.mapTid t = 0 ∨ s.idxKpMap t ≤ shareMemoryArraySize)
  | past (hrow : s.numKp < s.mapTid t) (hdbds : dbdsRun = true)
      (hfits : s.idxOriginalKpMap t + s.numKp < shareMemoryArraySize)
      (hidx : s.idxKpMap t ≤ s.idxOriginalKpMap t + s.numKp ∨ s.idxKpMap t ≤ s.numTd * s.numKp)

structure IndexInv (dbdsRun : Bool) (s : Target) : Prop where
  announced : s.numTd * s.numKp < shareMemoryArraySize
  registered : ∀ t, s.myTidMap t = true → t ≠ 0 ∧
    s.idxOriginalKpMap t = startIndex dbdsRun s.numKp t ∧ IndexPlace dbdsRun s t
  unregistered : ∀ t, s.myTidMap t = false → s.idxKpMap t = s.idxOriginalKpMap t ∧
    (t ≠ 0 → s.mapTid t = 0)

section Steps
variable {dbdsRun : Bool} {s : Target} {c : Call}

theorem slots_locString_lt_iff {t intHash : Nat}
    (hread : ∀ i, s.idxOriginalKpMap t ≤ i → i < s.idxKpMap t → i < shareMemoryArraySize) :
    (∀ i ∈ (Call.locString t intHash).slots s, i < shareMemoryArraySize) ↔
      (t ≠ 0 → loopUnwinded s t intHash = true → s.idxKpMap t < shareMemoryArraySize) := by
  rw [Call.slots, List.forall_mem_append]
  have hloop : ∀ i ∈ slotsRead s.loopUnwindedNum s.kpLoc intHash 0
      (List.range' (s.idxOriginalKpMap t) (s.idxKpMap t - s.idxOriginalKpMap t)),
      i < shareMemoryArraySize := by
    intro i hi
    obtain ⟨hlo, hhi⟩ := List.mem_range'_1.mp (slotsRead_subset _ _ _ _ _ hi)
    exact hread i hlo (by omega)
  rw [and_iff_right hloop]
  by_cases hcounted : t ≠ 0 ∧ loopUnwinded s t intHash = true
  · simp [hcounted]
  · rw [if_neg hcounted]
    exact iff_of_true (fun _ hi => nomatch hi) fun ht hbound => absurd ⟨ht, hbound⟩ hcounted

theorem slots_lt_iff (h : IndexInv dbdsRun s) (hc : c.InOrder s) :
    (∀ i ∈ c.slots s, i < shareMemoryArraySize) ↔ ¬ Exhausts dbdsRun c s := by
  cases c with
  | pthreadCall t => exact iff_of_true (fun _ hi => nomatch hi) id
  | locString t intHash =>
    by_cases ht : t = 0
    · have hempty : s.myTidMap t = false := by
        rw [← Bool.not_eq_true]
        intro hreg
        exact (h.registered t hreg).1 ht
      rw [slots_locString_lt_iff]
      · exact iff_of_true (fun hne => absurd ht hne) fun hex => hex.1 ht
      · intro i hlo hhi
        have := (h.unregistered t hempty).1
        omega
    · obtain ⟨_, horiginal, hplace⟩ := h.registered t (hc.resolve_left ht)
      cases hplace with
      | within hrow hidx hend =>
        rw [slots_locString_lt_iff (by intro i hlo hhi; omega), Exhausts, ← horiginal]
        constructor
        · rintro hlt ⟨_, hcounted, hmapTid, _⟩
          have := hlt ht hcounted
          omega
        · intro hex _ hcounted
          by_contra hge
          exact hex ⟨ht, hcounted, by omega, hrow⟩
      | past hrow hdbds hfits hidx =>
        have hlt : s.idxKpMap t < shareMemoryArraySize := by
          have := h.announced
          omega
        rw [slots_locString_lt_iff (fun i _ hhi => Nat.lt_trans hhi hlt)]
        exact iff_of_true (fun _ _ => hlt) fun hex => Nat.not_le_of_lt hrow (hex.2.2.2 hdbds)

theorem IndexPlace.congr {s' : Target} {t : Nat} (h : IndexPlace dbdsRun s t)
    (hnumTd : s'.numTd = s.numTd) (hnumKp : s'.numKp = s.numKp) (hmapTid : s'.mapTid t = s.mapTid t)
    (hidx : s'.idxKpMap t = s.idxKpMap t) (horig : s'.idxOriginalKpMap t = s.idxOriginalKpMap t) :
    IndexPlace dbdsRun s' t := by
  cases h with
  | within hrow hplace hend =>
    apply IndexPlace.within
    · rwa [hmapTid, hnumKp]
    · rwa [hmapTid, hidx, horig]
    · rwa [hmapTid, hidx]
  | past hrow hdbds hfits hplace =>
    apply IndexPlace.past _ hdbds
    · rwa [horig, hnumKp]
    · rwa [hidx, horig, hnumKp, hnumTd]
    · rwa [hmapTid, hnumKp]

/-- A counted key point that does not exhaust the array moves the index to a good place. -/
theorem indexPlace_advance {t intHash : Nat} (h : IndexInv dbdsRun s) (ht : s.myTidMap t = true)
    (hcounted : loopUnwinded s t intHash = true)
    (hroom : ¬ Exhausts dbdsRun (.locString t intHash) s) {s' : Target}
    (hnumTd : s'.numTd = s.numTd) (hnumKp : s'.numKp = s.numKp)
    (hmapTid : s'.mapTid t = s.mapTid t + 1) (hidx : s'.idxKpMap t = advanceIn dbdsRun s t)
    (horig : s'.idxOriginalKpMap t = s.idxOriginalKpMap t) : IndexPlace dbdsRun s' t := by
  obtain ⟨hpos, horiginal, hplace⟩ := h.registered t ht
  have hroom : ¬ (s.mapTid t = shareMemoryArraySize - s.idxOriginalKpMap t ∧
      (dbdsRun = true → s.mapTid t ≤ s.numKp)) := by
    rw [horiginal]
    exact fun hex => hroom ⟨hpos, hcounted, hex⟩
  cases hplace with
  | within hrow hplace hend =>
    have hfree : s.idxKpMap t < shareMemoryArraySize := by
      by_contra hge
      exact hroom ⟨by omega, hrow⟩
    cases dbdsRun with
    | false =>
      have hmove : s'.idxKpMap t = s.idxKpMap t + 1 := hidx
      exact IndexPlace.within nofun (by omega) (Or.inr (by omega))
    | true =>
      have hrow := hrow rfl
      have hmove : s'.idxKpMap t = advance s t := hidx
      rw [advance] at hmove
      by_cases hlast : s.mapTid t = s.numKp
      · rw [if_pos (by omega)] at hmove
        exact IndexPlace.past (by omega) rfl (by omega) (Or.inr (Nat.le_of_eq (by rw [hmove, hnumTd, hnumKp])))
      · rw [if_neg (by omega)] at hmove
        exact IndexPlace.within (fun _ => by omega) (by omega) (Or.inr (by omega))
  | past hrow hdbds hfits hplace =>
    subst hdbds
    have hmove : s'.idxKpMap t = advance s t := hidx
    rw [advance] at hmove
    apply IndexPlace.past (by omega) rfl (by omega)
    split at hmove
    · exact Or.inr (Nat.le_of_eq (by rw [hmove, hnumTd, hnumKp]))
    · exact Or.inl (by omega)

theorem indexInv_performIn (h : IndexInv dbdsRun s) (hc : c.InOrder s)
    (hroom : ¬ Exhausts dbdsRun c s) : IndexInv dbdsRun (c.performIn dbdsRun s) := by
  have hout := c.performIn_outcome dbdsRun s
  generalize c.performIn dbdsRun s = s' at hout
  cases hout with
  | quiet m hm =>
    refine ⟨h.announced, fun t ht => ?_, fun t ht => ?_⟩
    · obtain ⟨hpos, horiginal, hplace⟩ := h.registered t ht
      exact ⟨hpos, horiginal, hplace.congr rfl rfl (hm t hpos) rfl rfl⟩
    · obtain ⟨hidx, hzero⟩ := h.unregistered t ht
      exact ⟨hidx, fun hpos => (hm t hpos).trans (hzero hpos)⟩
  | registers t hpos hnew =>
    refine ⟨h.announced, fun u hu => ?_, fun u hu => ?_⟩
    · by_cases htu : u = t
      · subst htu
        have hzero : s.mapTid u = 0 := (h.unregistered u hnew).2 hpos
        refine ⟨hpos, Function.update_self .., IndexPlace.within (fun _ => ?_) ?_ (Or.inl hzero)⟩
        · rw [hzero]
          exact Nat.zero_le _
        · simp [hzero]
      · simp only [Function.update_of_ne htu] at hu ⊢
        obtain ⟨hu0, horiginal, hplace⟩ := h.registered u hu
        exact ⟨hu0, horiginal, hplace.congr rfl rfl rfl (Function.update_of_ne htu ..)
          (Function.update_of_ne htu ..)⟩
    · by_cases htu : u = t
      · subst htu
        simp at hu
      · simp only [Function.update_of_ne htu] at hu ⊢
        exact h.unregistered u hu
  | hits t intHash kpYield hcall hpos hcounted =>
    subst hcall
    have ht := hc.resolve_left hpos
    refine ⟨h.announced, fun u hu => ?_, fun u hu => ?_⟩
    · obtain ⟨hu0, horiginal, hplace⟩ := h.registered u hu
      refine ⟨hu0, horiginal, ?_⟩
      by_cases htu : u = t
      · subst htu
        exact indexPlace_advance h ht hcounted hroom rfl rfl (Function.update_self ..)
          (Function.update_self ..) rfl
      · exact hplace.congr rfl rfl (Function.update_of_ne htu ..) (Function.update_of_ne htu ..) rfl
    · have htu := Target.ne_of_registered ht hu
      simp only [Function.update_of_ne htu]
      exact h.unregistered u hu

/-- All slots of a run lie in the array exactly when no call exhausts it. -/
theorem slotsUsed_lt_iff {calls : List Call} (h : IndexInv dbdsRun s)
    (hcalls : Meets (Call.performIn dbdsRun) Call.InOrder calls s) :
    (∀ i ∈ slotsUsed dbdsRun calls s, i < shareMemoryArraySize) ↔
      Meets (Call.performIn dbdsRun) (fun c s => ¬ Exhausts dbdsRun c s) calls s := by
  induction calls generalizing s with
  | nil => exact iff_of_true (fun _ hi => nomatch hi) trivial
  | cons c calls ih =>
    rw [slotsUsed, List.forall_mem_append, slots_lt_iff h hcalls.1]
    apply and_congr_right
    intro hroom
    exact ih (indexInv_performIn h hcalls.1 hroom) hcalls.2

end Steps

theorem indexInv_traceBeginIn (dbdsRun : Bool) {siN siM : Nat}
    (hsize : siN * siM < shareMemoryArraySize) (loopUnwindedNum : Nat) (kp : Nat → Nat) :
    IndexInv dbdsRun (traceBeginIn dbdsRun siN siM loopUnwindedNum kp) := by
  cases dbdsRun with
  | false =>
    have hnone : 0 * 0 < shareMemoryArraySize := by decide
    exact ⟨hnone, fun _ ht => Bool.noConfusion ht, fun _ _ => ⟨rfl, fun _ => rfl⟩⟩
  | true => exact ⟨hsize, fun _ ht => Bool.noConfusion ht, fun _ _ => ⟨rfl, fun _ => rfl⟩⟩

/-- The driver tests nothing larger than its own array. -/
theorem slots_in_bounds_iff (dbdsRun : Bool) {siN siM : Nat} (hsize : siN * siM ≤ 1990)
    (loopUnwindedNum : Nat) (kp : Nat → Nat) {calls : List Call}
    (hcalls : Meets (Call.performIn dbdsRun) Call.InOrder calls
      (traceBeginIn dbdsRun siN siM loopUnwindedNum kp)) :
    (∀ i ∈ slotsUsed dbdsRun calls (traceBeginIn dbdsRun siN siM loopUnwindedNum kp),
      i < shareMemoryArraySize) ↔
      Meets (Call.performIn dbdsRun) (fun c s => ¬ Exhausts dbdsRun c s) calls
        (traceBeginIn dbdsRun siN siM loopUnwindedNum kp) :=
  slotsUsed_lt_iff (indexInv_traceBeginIn dbdsRun (Nat.lt_of_le_of_lt hsize (by decide))
    loopUnwindedNum kp) hcalls

theorem slots_in_bounds_iff_two :
    (∀ i ∈ slotsUsed true fullRows (traceBeginIn true 2 2 4 fun i => i), i < shareMemoryArraySize) ↔
      Meets (Call.performIn true) (fun c s => ¬ Exhausts true c s) fullRows (traceBeginIn true 2 2 4 fun i => i) :=
  slots_in_bounds_iff true (by decide) 4 (fun i => i) (by decide)

/-- More children than announced, and a dry run in which child 11 hits five locations. -/
theorem slots_out_of_bounds :
    (Meets (Call.performIn true) Call.InOrder
        ((List.range' 1 5).map Call.pthreadCall ++ [.locString 5 7])
        (traceBeginIn true 2 995 4 fun _ => 0) ∧
      3980 ∈ slotsUsed true ((List.range' 1 5).map Call.pthreadCall ++ [.locString 5 7])
        (traceBeginIn true 2 995 4 fun _ => 0)) ∧
    (Meets (Call.performIn false) Call.InOrder
        ((List.range' 1 11).map Call.pthreadCall ++ (List.range' 1 5).map (Call.locString 11))
        (traceBeginIn false 0 0 4 fun _ => 0) ∧
      3964 ∈ slotsUsed false
        ((List.range' 1 11).map Call.pthreadCall ++ (List.range' 1 5).map (Call.locString 11))
        (traceBeginIn false 0 0 4 fun _ => 0)) := by
  refine ⟨⟨?_, ?_⟩, ?_, ?_⟩
  · decide
  · decide
  · decide
  · decide

end Period.Runtime
