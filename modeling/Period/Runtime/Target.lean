import Mathlib.Logic.Function.Basic
import Mathlib.Data.List.Basic

/-!
# The instrumented target

The state of the runtime in `DBDSFunction.cpp` during a DBDS run and
`instr_LOC_string`, which a thread calls at every key point. Threads are named by the
`sched_tid` they were registered with, `0` is the main thread. Slots are indices of
the arrays `kpYield`, `kpLoc` and `kpOrder`; every other value of a map that no thread
has set is `0`, as in the maps and static arrays of the source.
-/

namespace Period.Runtime

set_option autoImplicit false

def shareMemoryArraySize : Nat := 3964

structure Target where
  numTd : Nat
  numKp : Nat
  loopUnwindedNum : Nat
  kpYield : Nat → Nat
  kpLoc : Nat → Nat
  kpOrder : Nat → Nat
  curSyncOrder : Nat
  /-- Whether `my_tidMap` has an entry. -/
  myTidMap : Nat → Bool
  idxKpMap : Nat → Nat
  idxOriginalKpMap : Nat → Nat
  /-- `mapTid`: how many key points a thread has hit. -/
  mapTid : Nat → Nat

def isBoundedLocHashFrom (loopUnwindedNum : Nat) (kpLoc : Nat → Nat) (intHash : Nat) :
    Nat → List Nat → Bool
  | _, [] => true
  | hitCount, i :: slots =>
    let hitCount := if kpLoc i = intHash then hitCount + 1 else hitCount
    if loopUnwindedNum ≤ hitCount then false
    else isBoundedLocHashFrom loopUnwindedNum kpLoc intHash hitCount slots

def isBoundedLocHash (loopUnwindedNum : Nat) (kpLoc : Nat → Nat) (intHash start stop : Nat) : Bool :=
  isBoundedLocHashFrom loopUnwindedNum kpLoc intHash 0 (List.range' start (stop - start))

/-- What `traceBegin` loads: `kpYield[i] = si->kp[i]` while `i < num_td*num_kp`. -/
def loadYield (numTd numKp : Nat) (kp : Nat → Nat) (i : Nat) : Nat :=
  if i < numTd * numKp ∧ i < shareMemoryArraySize then kp i else 0

/-- The target after `traceBegin` in a DBDS run, no child being registered. -/
def traceBegin (siN siM loopUnwindedNum : Nat) (kp : Nat → Nat) : Target where
  numTd := siN
  numKp := siM
  loopUnwindedNum := loopUnwindedNum
  kpYield := loadYield siN siM kp
  kpLoc := fun _ => 0
  kpOrder := fun _ => 0
  curSyncOrder := 1
  myTidMap := fun _ => false
  idxKpMap := fun _ => 0
  idxOriginalKpMap := fun _ => 0
  mapTid := fun _ => 0

/-- `instr_PthreadCall` of the child with this `sched_tid`. -/
def instrPthreadCall (schedTid : Nat) (s : Target) : Target :=
  if schedTid = 0 ∨ s.myTidMap schedTid then s
  else
    let tid2index := (schedTid - 1) * s.numKp
    { s with
      myTidMap := Function.update s.myTidMap schedTid true
      idxKpMap := Function.update s.idxKpMap schedTid tid2index
      idxOriginalKpMap := Function.update s.idxOriginalKpMap schedTid tid2index }

/-- What a call of `instr_LOC_string` does to the slots: it drains `kpYield[slot]`, one
`sched_yield` for each unit, and then writes `kpLoc[slot]` and `kpOrder[slot]`. -/
structure Access where
  schedTid : Nat
  slot : Nat
  yields : Nat
  deriving DecidableEq, Repr

/-- Whether the call passes the loop-unwinding test. -/
def loopUnwinded (s : Target) (schedTid intHash : Nat) : Bool :=
  isBoundedLocHash s.loopUnwindedNum s.kpLoc intHash (s.idxOriginalKpMap schedTid)
    (s.idxKpMap schedTid)

/-- Where `idx_kpMap` moves after a counted key point. -/
def advance (s : Target) (schedTid : Nat) : Nat :=
  if s.idxOriginalKpMap schedTid + s.numKp ≤ s.idxKpMap schedTid then s.numTd * s.numKp
  else s.idxKpMap schedTid + 1

/-- `instr_LOC_string` of one thread. -/
def instrLOCString (schedTid intHash : Nat) (s : Target) : Target × Option Access :=
  if loopUnwinded s schedTid intHash then
    let s' := { s with mapTid := Function.update s.mapTid schedTid (s.mapTid schedTid + 1) }
    if schedTid = 0 then (s', none)
    else
      let slot := s.idxKpMap schedTid
      ({ s' with
          kpYield := Function.update s.kpYield slot 0
          kpLoc := Function.update s.kpLoc slot intHash
          kpOrder := Function.update s.kpOrder slot s.curSyncOrder
          curSyncOrder := (s.curSyncOrder + 1) % 65536
          idxKpMap := Function.update s.idxKpMap schedTid (advance s schedTid) },
        some ⟨schedTid, slot, s.kpYield slot⟩)
  else (s, none)

inductive Call where
  | pthreadCall (schedTid : Nat)
  | locString (schedTid intHash : Nat)
  deriving DecidableEq, Repr

def Call.perform : Call → Target → Target × Option Access
  | .pthreadCall schedTid, s => (instrPthreadCall schedTid s, none)
  | .locString schedTid intHash, s => instrLOCString schedTid intHash s

/-- The state after a sequence of calls, in the order in which they happen, and the accesses. -/
def performAll : List Call → Target → Target × List Access
  | [], s => (s, [])
  | c :: calls, s =>
    let r := c.perform s
    let rest := performAll calls r.1
    (rest.1, r.2.toList ++ rest.2)

/-- Children have numbers from `1` to `num_td` and register before their first key point. -/
def Call.Admissible (numTd : Nat) : Call → Target → Prop
  | .pthreadCall schedTid, _ => 1 ≤ schedTid ∧ schedTid ≤ numTd
  | .locString schedTid _, s => schedTid = 0 ∨ s.myTidMap schedTid = true

/-- Any number of children may be created. -/
def Call.InOrder : Call → Target → Prop
  | .pthreadCall t, _ => 1 ≤ t
  | .locString t _, s => t = 0 ∨ s.myTidMap t = true

instance : ∀ (c : Call) (s : Target), Decidable (c.InOrder s)
  | .pthreadCall _, _ => inferInstanceAs (Decidable (_ ≤ _))
  | .locString _ _, _ => inferInstanceAs (Decidable (_ ∨ _))

/-- A condition on each call and the state before it. -/
def Along (C : Call → Target → Prop) : List Call → Target → Prop
  | [], _ => True
  | c :: calls, s => C c s ∧ Along C calls (c.perform s).1

theorem isBoundedLocHashFrom_of_ne {loopUnwindedNum intHash hitCount : Nat} {kpLoc : Nat → Nat}
    {slots : List Nat} (hslots : ∀ i ∈ slots, kpLoc i ≠ intHash) (hlt : hitCount < loopUnwindedNum) :
    isBoundedLocHashFrom loopUnwindedNum kpLoc intHash hitCount slots = true := by
  induction slots with
  | nil => rfl
  | cons i slots ih =>
    simp only [isBoundedLocHashFrom, if_neg (hslots i List.mem_cons_self),
      if_neg (Nat.not_le.mpr hlt)]
    exact ih fun j hj => hslots j (List.mem_cons_of_mem i hj)

theorem along_append {C : Call → Target → Prop} {calls calls' : List Call} {a : Target} :
    Along C (calls ++ calls') a ↔ Along C calls a ∧ Along C calls' (performAll calls a).1 := by
  induction calls generalizing a with
  | nil => exact ⟨fun h => ⟨trivial, h⟩, fun h => h.2⟩
  | cons c calls ih => exact (and_congr_right fun _ => ih).trans and_assoc.symm

theorem performAll_append (calls calls' : List Call) (a : Target) :
    performAll (calls ++ calls') a = ((performAll calls' (performAll calls a).1).1,
      (performAll calls a).2 ++ (performAll calls' (performAll calls a).1).2) := by
  induction calls generalizing a with
  | nil => rfl
  | cons c calls ih => simp only [List.cons_append, performAll, ih, List.append_assoc]

/-- The state after a counted key point of a child. -/
def Target.hit (s : Target) (schedTid intHash : Nat) : Target :=
  { s with
    mapTid := Function.update s.mapTid schedTid (s.mapTid schedTid + 1)
    kpYield := Function.update s.kpYield (s.idxKpMap schedTid) 0
    kpLoc := Function.update s.kpLoc (s.idxKpMap schedTid) intHash
    kpOrder := Function.update s.kpOrder (s.idxKpMap schedTid) s.curSyncOrder
    curSyncOrder := (s.curSyncOrder + 1) % 65536
    idxKpMap := Function.update s.idxKpMap schedTid (advance s schedTid) }

@[simp] theorem Target.hit_kpLoc (s : Target) (t intHash : Nat) :
    (s.hit t intHash).kpLoc = Function.update s.kpLoc (s.idxKpMap t) intHash := rfl

@[simp] theorem Target.hit_idxKpMap (s : Target) (t intHash : Nat) :
    (s.hit t intHash).idxKpMap = Function.update s.idxKpMap t (advance s t) := rfl

@[simp] theorem Target.hit_mapTid (s : Target) (t intHash : Nat) :
    (s.hit t intHash).mapTid = Function.update s.mapTid t (s.mapTid t + 1) := rfl

@[simp] theorem Target.hit_kpYield (s : Target) (t intHash : Nat) :
    (s.hit t intHash).kpYield = Function.update s.kpYield (s.idxKpMap t) 0 := rfl

theorem Target.ne_of_registered {s : Target} {t u : Nat} (ht : s.myTidMap t = true)
    (hu : s.myTidMap u = false) : u ≠ t := by
  rintro rfl
  exact Bool.noConfusion (ht.symm.trans hu)

/-- The target with a row for child `t`. -/
def Target.register (s : Target) (t : Nat) : Target :=
  { s with
    myTidMap := Function.update s.myTidMap t true
    idxKpMap := Function.update s.idxKpMap t ((t - 1) * s.numKp)
    idxOriginalKpMap := Function.update s.idxOriginalKpMap t ((t - 1) * s.numKp) }

@[simp] theorem Target.register_myTidMap (s : Target) (t : Nat) :
    (s.register t).myTidMap = Function.update s.myTidMap t true := rfl

@[simp] theorem Target.register_idxKpMap (s : Target) (t : Nat) :
    (s.register t).idxKpMap = Function.update s.idxKpMap t ((t - 1) * s.numKp) := rfl

@[simp] theorem Target.register_idxOriginalKpMap (s : Target) (t : Nat) :
    (s.register t).idxOriginalKpMap = Function.update s.idxOriginalKpMap t ((t - 1) * s.numKp) := rfl

theorem instrPthreadCall_new {s : Target} {t : Nat} (ht : t ≠ 0) (hnew : s.myTidMap t = false) :
    instrPthreadCall t s = s.register t := by
  rw [instrPthreadCall, if_neg (by simp [ht, hnew])]
  rfl

inductive Outcome (c : Call) (s : Target) : Target × Option Access → Prop where
  | quiet (m : Nat → Nat) (h : ∀ t, t ≠ 0 → m t = s.mapTid t) :
      Outcome c s ({ s with mapTid := m }, none)
  | registers (t : Nat) (hc : c = .pthreadCall t) (hpos : t ≠ 0) (hnew : s.myTidMap t = false) :
      Outcome c s ({ s with
        myTidMap := Function.update s.myTidMap t true
        idxKpMap := Function.update s.idxKpMap t ((t - 1) * s.numKp)
        idxOriginalKpMap := Function.update s.idxOriginalKpMap t ((t - 1) * s.numKp) }, none)
  | hits (t intHash : Nat) (hc : c = .locString t intHash) (hpos : t ≠ 0)
      (hcounted : loopUnwinded s t intHash = true) :
      Outcome c s (s.hit t intHash, some ⟨t, s.idxKpMap t, s.kpYield (s.idxKpMap t)⟩)

theorem Call.perform_outcome (c : Call) (s : Target) : Outcome c s (c.perform s) := by
  cases c with
  | pthreadCall t =>
    rw [Call.perform, instrPthreadCall]
    by_cases h : t = 0 ∨ s.myTidMap t = true
    · rw [if_pos h]
      exact Outcome.quiet s.mapTid fun _ _ => rfl
    · rw [if_neg h]
      rw [not_or] at h
      exact Outcome.registers t rfl h.1 (by simpa using h.2)
  | locString t intHash =>
    rw [Call.perform, instrLOCString]
    by_cases hcounted : loopUnwinded s t intHash = true
    · rw [if_pos hcounted]
      by_cases ht : t = 0
      · rw [if_pos ht]
        exact Outcome.quiet _ fun u hu => Function.update_of_ne (by rw [ht]; exact hu) _ _
      · rw [if_neg ht]
        exact Outcome.hits t intHash rfl ht hcounted
    · rw [if_neg hcounted]
      exact Outcome.quiet s.mapTid fun _ _ => rfl

theorem perform_counted {a : Target} {t intHash : Nat} (ht : t ≠ 0) (hcounted : loopUnwinded a t intHash = true) :
    (Call.locString t intHash).perform a =
      (a.hit t intHash, some ⟨t, a.idxKpMap t, a.kpYield (a.idxKpMap t)⟩) := by
  rw [Call.perform, instrLOCString, if_pos hcounted, if_neg ht]
  rfl

theorem locString_access (t intHash : Nat) (s : Target) :
    ((Call.locString t intHash).perform s).2 =
      if t ≠ 0 ∧ loopUnwinded s t intHash = true then
        some ⟨t, s.idxKpMap t, s.kpYield (s.idxKpMap t)⟩
      else none := by
  rw [Call.perform, instrLOCString]
  by_cases hcounted : loopUnwinded s t intHash = true
  · by_cases ht : t = 0
    · rw [if_pos hcounted, if_pos ht, if_neg (fun h => h.1 ht)]
    · rw [if_pos hcounted, if_neg ht, if_pos ⟨ht, hcounted⟩]
  · rw [if_neg hcounted, if_neg (fun h => hcounted h.2)]

def fullRows : List Call :=
  [.pthreadCall 1, .pthreadCall 2, .locString 1 7, .locString 2 8, .locString 2 7, .locString 1 9]

end Period.Runtime
