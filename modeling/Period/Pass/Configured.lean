import Mathlib.Data.List.Lex
import Period.Foundation.Runs
import Period.Pass.ConConfig
import Period.Pass.Sensitive

/-!
# The configured lines

`SensitiveOperations::runOnModule` does not only look at the locations of ConConfig: it appends
those of lock calls, of the calls of lock wrappers, and of some sensitive functions, wherever in
the module they are.
-/

namespace Period.Pass

open Runs
set_option autoImplicit false

def unlockFunctionString : List String :=
  ["Unlock", "mutex_unlock", "task_unlock", "PR_RWLock_Unlock", "PR_Unlock", "UK"]

structure Shape where
  size : Nat
  argSize : Nat
  instructionCount : Nat
  isVarArg : Bool
  hasAddressTaken : Bool

def Shape.isSmall (f : Shape) : Bool :=
  f.size = 1 && f.argSize = 1 && f.instructionCount ≤ 10 && !f.isVarArg && !f.hasAddressTaken

/-- `SourceLoc` without `./`, where the instruction has one. -/
def SoInst.placed (inst : SoInst) : Option Text :=
  if inst.sourceLoc = [] then none
  else if colon ∉ inst.sourceLoc then none
  else some (eraseDotSlash inst.sourceLoc)

structure Found where
  lockFunctionSet : List (List Char)
  unlockFunctionSet : List (List Char)
  mutexLockSet : List Text
  soFuncSet : List Text

def Found.addSo (sourceLoc : Text) (s : Found) : Found := { s with soFuncSet := s.soFuncSet.insert sourceLoc }

section Collect
variable (getFuncname : List Char → List Char)

/-- A call whose location goes to `SoFuncSet`, apart from `free`. The numbers of operands are
different ones. -/
def SoInst.isSoFunc (inst : SoInst) : Bool :=
  (inst.operands.length = 3 || inst.operands.length = 4) &&
      atomicStrings.any (fun string => string.toList = inst.demangled getFuncname) ||
    inst.operands.length = 2 && mapSizeString.toList = inst.demangled getFuncname ||
    inst.intrinsic "llvm.memset."

def collectSo (inst : SoInst) (s : Found) : Found :=
  if inst.isSoFunc getFuncname then
    match inst.placed with
    | none => s
    | some sourceLoc => s.addSo sourceLoc
  else s

/-- The function that the call is in has the name and the shape. -/
def collectLock (name : List Char) (shape : Shape) (inst : SoInst) (s : Found) : Found :=
  if inst.named 1 ["pthread_mutex_lock"] then
    match inst.placed with
    | none => s
    | some sourceLoc =>
      collectSo getFuncname inst
        (if isListed getFuncname lockFunctionString name || shape.isSmall then
          { s with lockFunctionSet := s.lockFunctionSet.insert name }
        else { s with mutexLockSet := s.mutexLockSet.insert sourceLoc })
  else if inst.named 1 ["pthread_mutex_unlock"] then
    match inst.placed with
    | none => s
    | some _ =>
      collectSo getFuncname inst
        (if isListed getFuncname unlockFunctionString name || shape.isSmall then
          { s with unlockFunctionSet := s.unlockFunctionSet.insert name }
        else s)
  else if 2 ≤ inst.operands.length then
    let called := inst.operands.getD 1 []
    let s := if isListed getFuncname lockFunctionString called then
      { s with lockFunctionSet := s.lockFunctionSet.insert called } else s
    let s := if isListed getFuncname unlockFunctionString called then
      { s with unlockFunctionSet := s.unlockFunctionSet.insert called } else s
    collectSo getFuncname inst s
  else collectSo getFuncname inst s

/-- One instruction. One without a location is left at once. -/
def collectInst (name : List Char) (shape : Shape) (inst : SoInst) (s : Found) : Found :=
  match inst.opcode with
  | .call =>
    if inst.named 1 ["free"] then
      match inst.placed with
      | none => s
      | some sourceLoc => collectLock getFuncname name shape inst (s.addSo sourceLoc)
    else collectLock getFuncname name shape inst s
  | .invoke =>
    if inst.isResize getFuncname then
      match inst.placed with
      | none => s
      | some sourceLoc => s.addSo sourceLoc
    else s
  | _ => s

/-- The second loop, for a call of a wrapper. -/
def collectWrapped (lockFunctionSet : List (List Char)) (inst : SoInst) (mutexLockSet : List Text) :
    List Text :=
  if inst.opcode = .call ∧ 2 ≤ inst.operands.length ∧ lockFunctionSet.contains (inst.operands.getD 1 []) then
    match inst.placed with
    | none => mutexLockSet
    | some sourceLoc => mutexLockSet.insert sourceLoc
  else mutexLockSet

end Collect

namespace Module
variable (m : Module) (getFuncname : List Char → List Char) (shapes : Fin m.n → Shape)
  (insts : Fin m.n → List SoInst)

def allInsts : List (Fin m.n × SoInst) :=
  (List.finRange m.n).flatMap fun f => if m.hasBody f then (insts f).map fun inst => (f, inst) else []

def collectFirst : Found :=
  run (fun x s => collectInst getFuncname (m.fn x.1).name (shapes x.1) x.2 s) (m.allInsts insts)
    ⟨[], [], [], []⟩

def collect : Found :=
  let s := m.collectFirst getFuncname shapes insts
  { s with mutexLockSet := run (fun x => collectWrapped s.lockFunctionSet x.2) (m.allInsts insts) s.mutexLockSet }

end Module

/-- What the loop writes into `ConFirst` for a line. It cuts nothing off. -/
def conFirstOf (line : Text) : Option Text :=
  if line.getLast? = some carriageReturn then
    if line.length = 1 then some [78, 46, 65, 46] else some line.dropLast
  else if line.isEmpty then none
  else some line

def firstWrites : Nat → List Text → List (Nat × Text)
  | _, [] => []
  | i, line :: lines =>
    match conFirstOf line with
    | none => firstWrites (i + 1) lines
    | some text => (i, text) :: firstWrites (i + 1) lines

def readConFirst (content : Text) : List Text :=
  (firstWrites 0 (getlines [] content)).foldl (fun conFirst w => conFirst.set w.1 w.2)
    (List.replicate (countLines content) [])

/-- The order of `std::set<string>`. -/
def sortTexts (l : List Text) : List Text :=
  l.mergeSort fun a b => a.map UInt8.toNat ≤ b.map UInt8.toNat

/-- `ConLine`: what is in `ConFirst` is erased from the sets. -/
def Found.conLines (s : Found) (content : Text) : List Text :=
  let conFirst := readConFirst content
  conFirst ++ (sortTexts (s.mutexLockSet.filter (· ∉ conFirst)) ++ sortTexts (s.soFuncSet.filter (· ∉ conFirst)))

def Found.soConfig (s : Found) (getFuncname : List Char → List Char) : SoConfig :=
  ⟨getFuncname, s.lockFunctionSet, s.unlockFunctionSet⟩

/-! ## What is found -/

section Step
variable {getFuncname : List Char → List Char} {name : List Char} {shape : Shape} {inst : SoInst} {s : Found}
  {sourceLoc : Text}

theorem named_iff (k : Nat) (string : String) : inst.named k [string] = true ↔
    k < inst.operands.length ∧ string.toList = inst.operands.getD k [] := by
  simp [SoInst.named]

/-- The call, or the `invoke`, is one whose location goes to `SoFuncSet`. -/
def SoInst.isFound (getFuncname : List Char → List Char) (inst : SoInst) : Bool :=
  match inst.opcode with
  | .call => inst.named 1 ["free"] || inst.isSoFunc getFuncname
  | .invoke => inst.isResize getFuncname
  | _ => false

/-- A call of `pthread_mutex_lock` that makes its function a wrapper. -/
def isWrapper (getFuncname : List Char → List Char) (name : List Char) (shape : Shape) : Bool :=
  isListed getFuncname lockFunctionString name || shape.isSmall

theorem collectSo_mutexLockSet : (collectSo getFuncname inst s).mutexLockSet = s.mutexLockSet := by
  rw [collectSo]
  split
  · split <;> rfl
  · rfl

theorem mem_soFuncSet_addSo {other : Text} : sourceLoc ∈ (s.addSo other).soFuncSet ↔
    sourceLoc ∈ s.soFuncSet ∨ other = sourceLoc := by
  rw [Found.addSo, List.mem_insert_iff, or_comm, eq_comm]

theorem mem_collectSo : sourceLoc ∈ (collectSo getFuncname inst s).soFuncSet ↔
    sourceLoc ∈ s.soFuncSet ∨ inst.isSoFunc getFuncname = true ∧ inst.placed = some sourceLoc := by
  rw [collectSo]
  split
  · next hso =>
    split
    · next hnone => simp [hnone]
    · next other hplaced =>
      rw [mem_soFuncSet_addSo, hplaced, Option.some.injEq, and_iff_right hso]
  · next hso => simp [hso]

theorem mem_soFuncSet_collectLock : sourceLoc ∈ (collectLock getFuncname name shape inst s).soFuncSet ↔
    sourceLoc ∈ s.soFuncSet ∨ inst.isSoFunc getFuncname = true ∧ inst.placed = some sourceLoc := by
  have hnone : inst.placed = none → (sourceLoc ∈ s.soFuncSet ↔
      sourceLoc ∈ s.soFuncSet ∨ inst.isSoFunc getFuncname = true ∧ inst.placed = some sourceLoc) := by
    intro h
    rw [h]
    simp
  unfold collectLock
  split
  · split
    · next h => exact hnone h
    · rw [mem_collectSo]
      split <;> rfl
  · split
    · split
      · next h => exact hnone h
      · rw [mem_collectSo]
        split <;> rfl
    · split
      · dsimp only
        rw [mem_collectSo]
        split
        · split <;> rfl
        · split <;> rfl
      · exact mem_collectSo

theorem mem_soFuncSet_collectInst : sourceLoc ∈ (collectInst getFuncname name shape inst s).soFuncSet ↔
    sourceLoc ∈ s.soFuncSet ∨ inst.isFound getFuncname = true ∧ inst.placed = some sourceLoc := by
  unfold collectInst SoInst.isFound
  cases inst.opcode with
  | call =>
    dsimp only
    split
    · next hfree =>
      rw [hfree, Bool.true_or]
      split
      · next hnone => simp [hnone]
      · next other hplaced =>
        rw [mem_soFuncSet_collectLock, mem_soFuncSet_addSo, hplaced, Option.some.injEq]
        tauto
    · next hfree =>
      rw [Bool.eq_false_iff.mpr hfree, Bool.false_or]
      exact mem_soFuncSet_collectLock
  | invoke =>
    dsimp only
    split
    · next hresize =>
      split
      · next hnone => simp [hnone]
      · next other hplaced =>
        rw [mem_soFuncSet_addSo, hplaced, Option.some.injEq, and_iff_right hresize]
    · next hresize => simp [hresize]
  | store => simp
  | other => simp

theorem collectLock_mutexLockSet (h : inst.named 1 ["pthread_mutex_lock"] = false) :
    (collectLock getFuncname name shape inst s).mutexLockSet = s.mutexLockSet := by
  rw [collectLock, h, if_neg Bool.false_ne_true]
  split
  · split
    · rfl
    · rw [collectSo_mutexLockSet]
      split <;> rfl
  · split
    · dsimp only
      rw [collectSo_mutexLockSet]
      split
      · split <;> rfl
      · split <;> rfl
    · exact collectSo_mutexLockSet

/-- A call of `pthread_mutex_lock` that is no wrapper's. -/
theorem mem_mutexLockSet_collectLock :
    sourceLoc ∈ (collectLock getFuncname name shape inst s).mutexLockSet ↔ sourceLoc ∈ s.mutexLockSet ∨
      inst.named 1 ["pthread_mutex_lock"] = true ∧ isWrapper getFuncname name shape = false ∧
        inst.placed = some sourceLoc := by
  by_cases hlock : inst.named 1 ["pthread_mutex_lock"] = true
  · rw [collectLock, if_pos hlock, ← isWrapper]
    split
    · next hnone => simp [hnone]
    · next other hplaced =>
      rw [collectSo_mutexLockSet, hplaced, Option.some.injEq, eq_comm (a := other), and_iff_right hlock]
      split
      · next hwrapper => simp [hwrapper]
      · next hwrapper =>
        rw [List.mem_insert_iff, Bool.eq_false_iff.mpr hwrapper, and_iff_right rfl, or_comm]
  · rw [collectLock_mutexLockSet (Bool.eq_false_iff.mpr hlock)]
    simp [hlock]

theorem mem_mutexLockSet_collectInst :
    sourceLoc ∈ (collectInst getFuncname name shape inst s).mutexLockSet ↔ sourceLoc ∈ s.mutexLockSet ∨
      inst.opcode = .call ∧ inst.named 1 ["pthread_mutex_lock"] = true ∧
        isWrapper getFuncname name shape = false ∧ inst.placed = some sourceLoc := by
  unfold collectInst
  cases inst.opcode with
  | call =>
    dsimp only
    split
    · next hfree =>
      -- an operand has one name
      have hlock : inst.named 1 ["pthread_mutex_lock"] = false := by
        rw [Bool.eq_false_iff]
        intro hlock
        have heq := ((named_iff 1 _).mp hfree).2.trans ((named_iff 1 _).mp hlock).2.symm
        exact absurd heq (by decide)
      split
      · simp [hlock]
      · rw [mem_mutexLockSet_collectLock, hlock]
        simp [Found.addSo]
    · rw [mem_mutexLockSet_collectLock]
      simp
  | invoke =>
    dsimp only
    split
    · split
      · simp
      · simp [Found.addSo]
    · simp
  | store => simp
  | other => simp

theorem mem_collectWrapped {lockFunctionSet : List (List Char)} {mutexLockSet : List Text} :
    sourceLoc ∈ collectWrapped lockFunctionSet inst mutexLockSet ↔ sourceLoc ∈ mutexLockSet ∨
      (inst.opcode = .call ∧ 2 ≤ inst.operands.length ∧ inst.operands.getD 1 [] ∈ lockFunctionSet) ∧
        inst.placed = some sourceLoc := by
  rw [collectWrapped]
  simp only [List.contains_eq_mem, decide_eq_true_eq]
  split
  · next hcall =>
    split
    · next hnone => simp [hnone]
    · next other hplaced =>
      rw [List.mem_insert_iff, hplaced, Option.some.injEq, and_iff_right hcall, or_comm, eq_comm]
  · next hcall => rw [or_iff_left fun h => hcall h.1]

end Step

section Collected
variable {m : Module} {getFuncname : List Char → List Char} {shapes : Fin m.n → Shape}
  {insts : Fin m.n → List SoInst} {sourceLoc : Text}

theorem mem_allInsts {x : Fin m.n × SoInst} :
    x ∈ m.allInsts insts ↔ m.hasBody x.1 = true ∧ x.2 ∈ insts x.1 := by
  rw [Module.allInsts, List.mem_flatMap]
  constructor
  · rintro ⟨f, _, hx⟩
    split at hx
    · next hbody =>
      obtain ⟨inst, hinst, rfl⟩ := List.mem_map.mp hx
      exact ⟨hbody, hinst⟩
    · exact absurd hx List.not_mem_nil
  · rintro ⟨hbody, hx⟩
    refine ⟨x.1, List.mem_finRange x.1, ?_⟩
    rw [if_pos hbody]
    exact List.mem_map_of_mem hx

theorem mem_soFuncSet_collect : sourceLoc ∈ (m.collect getFuncname shapes insts).soFuncSet ↔
    ∃ f, m.hasBody f = true ∧ ∃ inst ∈ insts f,
      inst.isFound getFuncname = true ∧ inst.placed = some sourceLoc := by
  have hrun := @mem_run_iff _ _ _ _ (fun loc s => loc ∈ Found.soFuncSet s)
    (fun (x : Fin m.n × SoInst) loc => x.2.isFound getFuncname = true ∧ x.2.placed = some loc)
    (fun x s loc => @mem_soFuncSet_collectInst getFuncname (m.fn x.1).name (shapes x.1) x.2 s loc)
    (m.allInsts insts) ⟨[], [], [], []⟩ sourceLoc
  rw [Module.collect, Module.collectFirst, hrun, or_iff_right List.not_mem_nil]
  constructor
  · rintro ⟨x, hx, hfound⟩
    obtain ⟨hbody, hinst⟩ := mem_allInsts.mp hx
    exact ⟨x.1, hbody, x.2, hinst, hfound⟩
  · rintro ⟨f, hbody, inst, hinst, hfound⟩
    exact ⟨(f, inst), mem_allInsts.mpr ⟨hbody, hinst⟩, hfound⟩

/-- The locations of lock calls that are in no wrapper, and of the calls of wrappers. -/
theorem mem_mutexLockSet_collect : sourceLoc ∈ (m.collect getFuncname shapes insts).mutexLockSet ↔
    ∃ f, m.hasBody f = true ∧ ∃ inst ∈ insts f, inst.opcode = .call ∧ inst.placed = some sourceLoc ∧
      (inst.named 1 ["pthread_mutex_lock"] = true ∧
          isWrapper getFuncname (m.fn f).name (shapes f) = false ∨
        2 ≤ inst.operands.length ∧
          inst.operands.getD 1 [] ∈ (m.collect getFuncname shapes insts).lockFunctionSet) := by
  have hfirst := @mem_run_iff _ _ _ _ (fun loc s => loc ∈ Found.mutexLockSet s)
    (fun (x : Fin m.n × SoInst) loc => x.2.opcode = .call ∧ x.2.named 1 ["pthread_mutex_lock"] = true ∧
      isWrapper getFuncname (m.fn x.1).name (shapes x.1) = false ∧ x.2.placed = some loc)
    (fun x s loc => @mem_mutexLockSet_collectInst getFuncname (m.fn x.1).name (shapes x.1) x.2 s loc)
    (m.allInsts insts) ⟨[], [], [], []⟩ sourceLoc
  have hsecond := @mem_run_iff _ _ _ _ (fun loc (s : List Text) => loc ∈ s)
    (fun (x : Fin m.n × SoInst) loc => (x.2.opcode = .call ∧ 2 ≤ x.2.operands.length ∧
      x.2.operands.getD 1 [] ∈ (m.collectFirst getFuncname shapes insts).lockFunctionSet) ∧
      x.2.placed = some loc)
    (fun x s loc => @mem_collectWrapped x.2 loc _ s) (m.allInsts insts)
    (m.collectFirst getFuncname shapes insts).mutexLockSet sourceLoc
  rw [or_iff_right List.not_mem_nil] at hfirst
  rw [← Module.collectFirst] at hfirst
  rw [Module.collect, hsecond, hfirst]
  constructor
  · rintro (⟨x, hx, hcall, hlock, hwrapper, hplaced⟩ | ⟨x, hx, ⟨hcall, hlen, hset⟩, hplaced⟩)
    · obtain ⟨hbody, hinst⟩ := mem_allInsts.mp hx
      exact ⟨x.1, hbody, x.2, hinst, hcall, hplaced, Or.inl ⟨hlock, hwrapper⟩⟩
    · obtain ⟨hbody, hinst⟩ := mem_allInsts.mp hx
      exact ⟨x.1, hbody, x.2, hinst, hcall, hplaced, Or.inr ⟨hlen, hset⟩⟩
  · rintro ⟨f, hbody, inst, hinst, hcall, hplaced, ⟨hlock, hwrapper⟩ | ⟨hlen, hset⟩⟩
    · exact Or.inl ⟨(f, inst), mem_allInsts.mpr ⟨hbody, hinst⟩, hcall, hlock, hwrapper, hplaced⟩
    · exact Or.inr ⟨(f, inst), mem_allInsts.mpr ⟨hbody, hinst⟩, ⟨hcall, hlen, hset⟩, hplaced⟩

end Collected

theorem mem_sortTexts {l : List Text} {text : Text} : text ∈ sortTexts l ↔ text ∈ l := List.mem_mergeSort

theorem mem_conLines {s : Found} {content text : Text} : text ∈ s.conLines content ↔
    text ∈ readConFirst content ∨ text ∈ s.mutexLockSet ∨ text ∈ s.soFuncSet := by
  simp only [Found.conLines, List.mem_append, mem_sortTexts, List.mem_filter, decide_eq_true_eq]
  tauto

/-- A file without empty lines and without CRLF is read as it is. -/
theorem readConFirst_eq {content : Text}
    (h : ∀ line ∈ getlines [] content, line ≠ [] ∧ line.getLast? ≠ some carriageReturn) :
    readConFirst content = getlines [] content := by
  have hwrites : ∀ (lines : List Text) (i : Nat),
      (∀ line ∈ lines, line ≠ [] ∧ line.getLast? ≠ some carriageReturn) →
        firstWrites i lines = (lines.zipIdx i).map Prod.swap := by
    intro lines
    induction lines with
    | nil => exact fun _ _ => rfl
    | cons line lines ih =>
      intro i hlines
      obtain ⟨⟨hne, hlast⟩, hrest⟩ := List.forall_mem_cons.mp hlines
      have hline : conFirstOf line = some line := by
        rw [conFirstOf, if_neg hlast, if_neg fun hempty => hne (List.isEmpty_iff.mp hempty)]
      rw [firstWrites, hline]
      dsimp only
      rw [ih (i + 1) hrest, List.zipIdx_cons]
      rfl
  have hcount : countLines content = (getlines [] content).length := by
    rw [countLines_eq, List.length_filterMap_eq_countP, List.countP_eq_length]
    intro line hline
    rw [Option.isSome_iff_ne_none, Ne, conLineOf_eq_none_iff]
    exact (h line hline).1
  rw [readConFirst, hwrites _ 0 h, hcount]
  exact foldl_set_zipIdx _ [] _ (List.length_replicate ..)

end Period.Pass
