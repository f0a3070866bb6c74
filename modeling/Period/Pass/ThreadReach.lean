import Mathlib.Data.Finset.Card
import Mathlib.Data.Fin.VecNotation
import Mathlib.Data.Fintype.Card
import Mathlib.Data.List.DropRight
import Mathlib.Data.List.FinRange
import Mathlib.Logic.Relation

/-!
# What threads may run

`SensitiveOperations::runOnModule` marks the functions that a thread may run, so that the others
are filtered. A function that calls a lock function is marked in any case. Callees of the call
graph are searched in turn, with a line on the standard output for each. A callee behind a
pointer cast is marked as well, but it is not searched.
-/

namespace Period.Pass

set_option autoImplicit false

/-- `getCalledFunction`, or the last operand without its casts, or no function. -/
inductive CalledFunction (n : Nat) where
  | direct (f : Fin n)
  | cast (f : Fin n)
  | unknown
  deriving DecidableEq

/-- An operand of a call: its name, and the function that it is without its casts. -/
structure Operand (n : Nat) where
  name : List Char
  function : Option (Fin n)
  deriving DecidableEq

/-- A call instruction. Of an invoke there are only the callee that the call graph has and the block. -/
structure CallInst (n : Nat) where
  callee : CalledFunction n
  /-- The name of the last operand. -/
  name : List Char
  /-- The other operands. -/
  args : List (Operand n)
  /-- The name of the basic block. -/
  block : List Char
  deriving DecidableEq

structure Function (n : Nat) where
  name : List Char
  body : Option (List (CallInst n))
  deriving DecidableEq

/-- The functions in the order of their addresses, which is how a set of them is iterated over. -/
structure Module where
  n : Nat
  fn : Fin n → Function n

namespace Module
variable (m : Module)

def hasBody (f : Fin m.n) : Bool := (m.fn f).body.isSome

def calls (f : Fin m.n) : List (CallInst m.n) := (m.fn f).body.getD []

end Module

/-- The operand that a call of `pthread_create` or `PR_CreateThread` takes for the thread. -/
def CallInst.threadTask {n : Nat} (inst : CallInst n) : Option (Option (Fin n)) :=
  if inst.args.length = 4 ∧ inst.name = "pthread_create".toList then inst.args[2]?.map Operand.function
  else if inst.args.length = 7 ∧ inst.name = "PR_CreateThread".toList then inst.args[1]?.map Operand.function
  else none

/-- `pthreadCallFunction`. An operand that is no function is the null pointer. -/
def Module.pthreadCallFunction (m : Module) : List (Option (Fin m.n)) :=
  (List.finRange m.n).flatMap fun f => (m.calls f).filterMap CallInst.threadTask

def lockFunctionString : List String :=
  ["Lock", "mutex_lock", "task_lock", "PR_RWLock_Rlock", "PR_RWLock_Wlock", "PR_Lock"]

/-- `substr(0,rfind("("))`, where there is one. -/
def beforeParen (name : List Char) : List Char :=
  if '(' ∈ name then (name.rdropWhile (· ≠ '(')).dropLast else name

/-- The name, or what it is demangled to, is one of the strings. -/
def isListed (getFuncname : List Char → List Char) (strings : List String) (name : List Char) : Bool :=
  strings.any fun string => string.toList = name || string.toList = beforeParen (getFuncname name)

section Locks
variable (getFuncname : List Char → List Char)

/-- `getOperand(1)` is an interesting lock function. -/
def CallInst.callsLock {n : Nat} (inst : CallInst n) : Bool :=
  match (inst.args.map Operand.name ++ [inst.name])[1]? with
  | none => false
  | some called => called ≠ "pthread_mutex_lock".toList && called ≠ "pthread_mutex_unlock".toList &&
      isListed getFuncname lockFunctionString called

def Module.callsLock (m : Module) (f : Fin m.n) : Bool := (m.calls f).any (CallInst.callsLock getFuncname)

end Locks

inductive Stop where
  | nullFunction
  | outOfFuel
  deriving DecidableEq

structure Search (n : Nat) where
  /-- The functions that `pthreadFunctionMap` maps to true. -/
  pthreadFunctionMap : Finset (Fin n)
  pthreadAllCalleeSet : Finset (Fin n)
  searchCalleeFinishSet : Finset (Fin n)
  isFixPoint : Bool
  canSeekCallee : Bool
  /-- What has been printed. -/
  debugLines : List (List Char)
  deriving DecidableEq

def debugLine (block callee : List Char) : List Char :=
  "[DEBUGDEBUG]   ".toList ++ (block ++ (" calls function '".toList ++ (callee ++ "'".toList)))

namespace Module
variable (m : Module)

def seekCallee (s : Search m.n) (inst : CallInst m.n) : Search m.n :=
  match inst.callee with
  | .direct fi =>
    if m.hasBody fi then
      { s with
        pthreadFunctionMap := insert fi s.pthreadFunctionMap
        pthreadAllCalleeSet := insert fi s.pthreadAllCalleeSet
        isFixPoint := false
        canSeekCallee := true
        debugLines := s.debugLines ++ [debugLine inst.block (m.fn fi).name] }
    else s
  | _ => s

def markCast (s : Search m.n) (inst : CallInst m.n) : Search m.n :=
  match inst.callee with
  | .cast callfun => { s with pthreadFunctionMap := insert callfun s.pthreadFunctionMap }
  | _ => s

/-- The iterator at `f`, which it stands at only if `f` is in the set by then. -/
def searchCallee (s : Search m.n) (f : Fin m.n) : Search m.n :=
  if f ∈ s.pthreadAllCalleeSet ∧ f ∉ s.searchCalleeFinishSet then
    let s := { s with searchCalleeFinishSet := insert f s.searchCalleeFinishSet }
    (m.calls f).foldl m.markCast ((m.calls f).foldl m.seekCallee s)
  else s

def sweep (s : Search m.n) : Search m.n :=
  (List.finRange m.n).foldl m.searchCallee { s with isFixPoint := true }

def searchCallees : Nat → Search m.n → Except Stop (Search m.n)
  | 0, _ => .error .outOfFuel
  | fuel + 1, s => if s.isFixPoint then .ok s else searchCallees fuel (m.sweep s)

def isMarkedInteresting (markedInterestingString : List (List Char)) (f : Fin m.n) : Bool :=
  m.hasBody f && markedInterestingString.contains (m.fn f).name

section Marked
variable (getFuncname : List Char → List Char) (markedInterestingString : List (List Char))

def isMarked (f : Fin m.n) : Bool :=
  m.isMarkedInteresting markedInterestingString f || m.callsLock getFuncname f

def initSearch : Search m.n where
  pthreadFunctionMap := Finset.univ.filter fun f =>
    m.isMarked getFuncname markedInterestingString f ∨ some f ∈ m.pthreadCallFunction
  pthreadAllCalleeSet := Finset.univ.filter fun f => some f ∈ m.pthreadCallFunction
  searchCalleeFinishSet := ∅
  isFixPoint := false
  canSeekCallee := false
  debugLines := []

/-- The loop reads the blocks of each function in the set, also of the null pointer. -/
def search (fuel : Nat) : Except Stop (Search m.n) :=
  if none ∈ m.pthreadCallFunction then .error .nullFunction
  else m.searchCallees fuel (m.initSearch getFuncname markedInterestingString)

end Marked

def isFiltered (s : Search m.n) (f : Fin m.n) : Bool :=
  !m.hasBody f || (s.canSeekCallee && f ∉ s.pthreadFunctionMap)

/-! ## Calls -/

/-- A call of the call graph to a function with a body. -/
def Direct (f g : Fin m.n) : Prop := m.hasBody g = true ∧ ∃ inst ∈ m.calls f, inst.callee = .direct g

def Cast (f g : Fin m.n) : Prop := ∃ inst ∈ m.calls f, inst.callee = .cast g

def Calls (f g : Fin m.n) : Prop := ∃ inst ∈ m.calls f, inst.callee = .direct g ∨ inst.callee = .cast g

def ThreadReach (f : Fin m.n) : Prop :=
  ∃ e, some e ∈ m.pthreadCallFunction ∧ Relation.ReflTransGen m.Calls e f

def DirectReach (f : Fin m.n) : Prop :=
  ∃ e, some e ∈ m.pthreadCallFunction ∧ Relation.ReflTransGen m.Direct e f

/-- Every function with a body that a thread may run is marked, and not filtered. -/
def ThreadsClosed (s : Search m.n) : Prop :=
  ∀ f, m.hasBody f = true → m.ThreadReach f → f ∈ s.pthreadFunctionMap ∧ m.isFiltered s f = false

variable {m}

theorem calls_iff {f g : Fin m.n} (hg : m.hasBody g = true) : m.Calls f g ↔ m.Direct f g ∨ m.Cast f g := by
  constructor
  · rintro ⟨inst, hinst, hdirect | hcast⟩
    · exact Or.inl ⟨hg, inst, hinst, hdirect⟩
    · exact Or.inr ⟨inst, hinst, hcast⟩
  · rintro (⟨_, inst, hinst, hdirect⟩ | ⟨inst, hinst, hcast⟩)
    · exact ⟨inst, hinst, Or.inl hdirect⟩
    · exact ⟨inst, hinst, Or.inr hcast⟩

variable (m) in
def debugLineOf (inst : CallInst m.n) : Option (List Char) :=
  match inst.callee with
  | .direct fi => if m.hasBody fi then some (debugLine inst.block (m.fn fi).name) else none
  | _ => none

theorem debugLineOf_eq_some {inst : CallInst m.n} {line : List Char} : m.debugLineOf inst = some line ↔
    ∃ g, inst.callee = .direct g ∧ m.hasBody g = true ∧ line = debugLine inst.block (m.fn g).name := by
  rw [debugLineOf]
  cases hcallee : inst.callee with
  | direct fi =>
    simp only [CalledFunction.direct.injEq, exists_eq_left', ite_eq_iff, Option.some.injEq, reduceCtorEq,
      and_false, or_false, eq_comm (a := line)]
  | cast f => simp
  | unknown => simp

theorem foldl_seekCallee (l : List (CallInst m.n)) (s : Search m.n) :
    (l.foldl m.seekCallee s).searchCalleeFinishSet = s.searchCalleeFinishSet ∧
    (∀ g, g ∈ (l.foldl m.seekCallee s).pthreadAllCalleeSet ↔ g ∈ s.pthreadAllCalleeSet ∨
      m.hasBody g = true ∧ ∃ inst ∈ l, inst.callee = .direct g) ∧
    (∀ g, g ∈ (l.foldl m.seekCallee s).pthreadFunctionMap ↔ g ∈ s.pthreadFunctionMap ∨
      m.hasBody g = true ∧ ∃ inst ∈ l, inst.callee = .direct g) ∧
    ((l.foldl m.seekCallee s).isFixPoint = true ↔ s.isFixPoint = true ∧
      ∀ g, ¬ (m.hasBody g = true ∧ ∃ inst ∈ l, inst.callee = .direct g)) ∧
    (l.foldl m.seekCallee s).debugLines = s.debugLines ++ l.filterMap m.debugLineOf := by
  induction l generalizing s with
  | nil => simp
  | cons inst l ih =>
    rw [List.foldl_cons]
    obtain ⟨hfinish, hall, hmap, hfix, hlines⟩ := ih (m.seekCallee s inst)
    simp only [List.mem_cons, exists_eq_or_imp]
    rw [List.filterMap_cons, debugLineOf]
    rw [seekCallee] at hfinish hall hmap hfix hlines ⊢
    cases hcallee : inst.callee with
    | direct fi =>
      simp only [hcallee] at hfinish hall hmap hfix hlines ⊢
      by_cases hbody : m.hasBody fi = true
      · simp only [hbody, if_true] at hfinish hall hmap hfix hlines ⊢
        have hself : ∀ g, g = fi → m.hasBody g = true := fun g hg => hg ▸ hbody
        refine ⟨hfinish, fun g => ?_, fun g => ?_, ?_, hlines.trans (List.append_assoc ..)⟩
        · rw [hall, Finset.mem_insert]
          grind
        · rw [hmap, Finset.mem_insert]
          grind
        · rw [hfix]
          grind
      · simp only [hbody, Bool.false_eq_true, if_false] at hfinish hall hmap hfix hlines ⊢
        refine ⟨hfinish, fun g => ?_, fun g => ?_, ?_, hlines⟩
        · rw [hall]
          grind
        · rw [hmap]
          grind
        · rw [hfix]
          grind
    | cast f =>
      simp only [hcallee] at hfinish hall hmap hfix hlines ⊢
      simp only [reduceCtorEq, false_or]
      exact ⟨hfinish, hall, hmap, hfix, hlines⟩
    | unknown =>
      simp only [hcallee] at hfinish hall hmap hfix hlines ⊢
      simp only [reduceCtorEq, false_or]
      exact ⟨hfinish, hall, hmap, hfix, hlines⟩

theorem foldl_markCast (l : List (CallInst m.n)) (s : Search m.n) :
    (l.foldl m.markCast s).searchCalleeFinishSet = s.searchCalleeFinishSet ∧
    (l.foldl m.markCast s).pthreadAllCalleeSet = s.pthreadAllCalleeSet ∧
    (l.foldl m.markCast s).isFixPoint = s.isFixPoint ∧
    (l.foldl m.markCast s).debugLines = s.debugLines ∧
    ∀ g, g ∈ (l.foldl m.markCast s).pthreadFunctionMap ↔
      g ∈ s.pthreadFunctionMap ∨ ∃ inst ∈ l, inst.callee = .cast g := by
  induction l generalizing s with
  | nil => simp
  | cons inst l ih =>
    rw [List.foldl_cons]
    obtain ⟨hfinish, hall, hfix, hlines, hmap⟩ := ih (m.markCast s inst)
    simp only [List.mem_cons, exists_eq_or_imp]
    rw [markCast] at hfinish hall hmap hfix hlines ⊢
    cases hcallee : inst.callee with
    | cast callfun =>
      simp only [hcallee] at hfinish hall hmap hfix hlines ⊢
      refine ⟨hfinish, hall, hfix, hlines, fun g => ?_⟩
      rw [hmap, Finset.mem_insert, CalledFunction.cast.injEq, or_comm (a := g = callfun), or_assoc, eq_comm]
    | direct f =>
      simp only [hcallee] at hfinish hall hmap hfix hlines ⊢
      simp only [reduceCtorEq, false_or]
      exact ⟨hfinish, hall, hfix, hlines, hmap⟩
    | unknown =>
      simp only [hcallee] at hfinish hall hmap hfix hlines ⊢
      simp only [reduceCtorEq, false_or]
      exact ⟨hfinish, hall, hfix, hlines, hmap⟩

/-- What the iterator does at `f`: nothing, or it searches `f`. -/
theorem searchCallee_cases (s : Search m.n) (f : Fin m.n) :
    m.searchCallee s f = s ∧ (f ∈ s.pthreadAllCalleeSet → f ∈ s.searchCalleeFinishSet) ∨
    f ∈ s.pthreadAllCalleeSet ∧ f ∉ s.searchCalleeFinishSet ∧
      (m.searchCallee s f).searchCalleeFinishSet = insert f s.searchCalleeFinishSet ∧
      (∀ g, g ∈ (m.searchCallee s f).pthreadAllCalleeSet ↔ g ∈ s.pthreadAllCalleeSet ∨ m.Direct f g) ∧
      (∀ g, g ∈ (m.searchCallee s f).pthreadFunctionMap ↔
        g ∈ s.pthreadFunctionMap ∨ m.Direct f g ∨ m.Cast f g) ∧
      ((m.searchCallee s f).isFixPoint = true ↔ s.isFixPoint = true ∧ ∀ g, ¬ m.Direct f g) ∧
      (m.searchCallee s f).debugLines = s.debugLines ++ (m.calls f).filterMap m.debugLineOf := by
  by_cases hvisit : f ∈ s.pthreadAllCalleeSet ∧ f ∉ s.searchCalleeFinishSet
  · obtain ⟨hfinish, hall, hmap, hfix, hlines⟩ := foldl_seekCallee (m.calls f)
      { s with searchCalleeFinishSet := insert f s.searchCalleeFinishSet }
    obtain ⟨hfinish', hall', hfix', hlines', hmap'⟩ := foldl_markCast (m.calls f)
      ((m.calls f).foldl m.seekCallee { s with searchCalleeFinishSet := insert f s.searchCalleeFinishSet })
    refine Or.inr ⟨hvisit.1, hvisit.2, ?_⟩
    rw [searchCallee, if_pos hvisit]
    refine ⟨hfinish'.trans hfinish, fun g => ?_, fun g => ?_, ?_, hlines'.trans hlines⟩
    · rw [hall', hall]
      rfl
    · rw [hmap', hmap, or_assoc]
      rfl
    · rw [hfix', hfix]
      rfl
  · rw [searchCallee, if_neg hvisit]
    exact Or.inl ⟨rfl, fun hf => by_contra fun hnot => hvisit ⟨hf, hnot⟩⟩

/-! ## The whole loop -/

variable {getFuncname : List Char → List Char} {markedInterestingString : List (List Char)}

/-- What holds whenever the loop stands between two functions. -/
structure Searched (m : Module) (getFuncname : List Char → List Char)
    (markedInterestingString : List (List Char)) (s : Search m.n) : Prop where
  tasks : ∀ e, some e ∈ m.pthreadCallFunction → e ∈ s.pthreadAllCalleeSet
  reached : ∀ f ∈ s.pthreadAllCalleeSet, m.DirectReach f
  finished : ∀ f ∈ s.searchCalleeFinishSet, f ∈ s.pthreadAllCalleeSet
  closed : ∀ f ∈ s.searchCalleeFinishSet, ∀ g, m.Direct f g → g ∈ s.pthreadAllCalleeSet
  marked : ∀ g, g ∈ s.pthreadFunctionMap ↔ m.isMarked getFuncname markedInterestingString g = true ∨
    g ∈ s.pthreadAllCalleeSet ∨ ∃ f ∈ s.searchCalleeFinishSet, m.Cast f g
  printed : ∀ line, line ∈ s.debugLines ↔
    ∃ f ∈ s.searchCalleeFinishSet, ∃ inst ∈ m.calls f, m.debugLineOf inst = some line

theorem searched_init : Searched m getFuncname markedInterestingString
    (m.initSearch getFuncname markedInterestingString) := by
  refine ⟨fun e he => ?_, fun f hf => ?_, nofun, nofun, fun g => ?_, fun line => ?_⟩
  · exact Finset.mem_filter.mpr ⟨Finset.mem_univ e, he⟩
  · exact ⟨f, (Finset.mem_filter.mp hf).2, Relation.ReflTransGen.refl⟩
  · simp [initSearch]
  · simp [initSearch]

theorem searched_step {s : Search m.n} (h : Searched m getFuncname markedInterestingString s) (f : Fin m.n) :
    Searched m getFuncname markedInterestingString (m.searchCallee s f) := by
  rcases searchCallee_cases s f with ⟨hsame, _⟩ | ⟨hf, _, hfinish, hall, hmap, _, hlines⟩
  · rwa [hsame]
  · refine ⟨fun e he => (hall e).mpr (Or.inl (h.tasks e he)), fun g hg => ?_, fun g hg => ?_,
      fun g hg k hgk => ?_, fun g => ?_, fun line => ?_⟩
    · rcases (hall g).mp hg with hg | hfg
      · exact h.reached g hg
      · obtain ⟨e, he, hef⟩ := h.reached f hf
        exact ⟨e, he, hef.tail hfg⟩
    · rw [hfinish] at hg
      rcases Finset.mem_insert.mp hg with rfl | hg
      · exact (hall g).mpr (Or.inl hf)
      · exact (hall g).mpr (Or.inl (h.finished g hg))
    · rw [hfinish] at hg
      rcases Finset.mem_insert.mp hg with rfl | hg
      · exact (hall k).mpr (Or.inr hgk)
      · exact (hall k).mpr (Or.inl (h.closed g hg k hgk))
    · rw [hmap, h.marked, hall, hfinish]
      simp only [Finset.mem_insert, exists_eq_or_imp]
      generalize (∃ f ∈ s.searchCalleeFinishSet, m.Cast f g) = earlier
      tauto
    · rw [hlines, List.mem_append, h.printed, hfinish, List.mem_filterMap]
      simp only [Finset.mem_insert, exists_eq_or_imp]
      exact or_comm

theorem searched_sweep {s : Search m.n} (h : Searched m getFuncname markedInterestingString s) :
    Searched m getFuncname markedInterestingString (m.sweep s) := by
  have hfold : ∀ (l : List (Fin m.n)) (s : Search m.n), Searched m getFuncname markedInterestingString s →
      Searched m getFuncname markedInterestingString (l.foldl m.searchCallee s) := by
    intro l
    induction l with
    | nil => exact fun s h => h
    | cons f l ih => exact fun s h => ih _ (searched_step h f)
  exact hfold _ _ ⟨h.tasks, h.reached, h.finished, h.closed, h.marked, h.printed⟩

/-- A part of a round: either a function is searched that was not, or nothing changes. -/
theorem foldl_searchCallee (l : List (Fin m.n)) (s : Search m.n) :
    s.searchCalleeFinishSet ⊆ (l.foldl m.searchCallee s).searchCalleeFinishSet ∧
    ((l.foldl m.searchCallee s).isFixPoint = true → s.isFixPoint = true ∧
      (l.foldl m.searchCallee s).pthreadAllCalleeSet = s.pthreadAllCalleeSet ∧
      ∀ f ∈ l, f ∈ s.pthreadAllCalleeSet → f ∈ (l.foldl m.searchCallee s).searchCalleeFinishSet) ∧
    (s.isFixPoint = true → (l.foldl m.searchCallee s).isFixPoint = false →
      s.searchCalleeFinishSet.card < (l.foldl m.searchCallee s).searchCalleeFinishSet.card) := by
  induction l generalizing s with
  | nil =>
    refine ⟨Finset.Subset.refl _, fun h => ⟨h, rfl, nofun⟩, fun h h' => ?_⟩
    rw [List.foldl_nil, h] at h'
    cases h'
  | cons f l ih =>
    obtain ⟨hsub, hfix, hgrow⟩ := ih (m.searchCallee s f)
    rw [List.foldl_cons]
    rcases searchCallee_cases s f with ⟨hsame, hdone⟩ | ⟨_, hnew, hfinish, hall, _, hstep, _⟩
    · rw [hsame] at hsub hfix hgrow ⊢
      refine ⟨hsub, fun h => ?_, hgrow⟩
      obtain ⟨hs, hset, hrest⟩ := hfix h
      refine ⟨hs, hset, fun g hg hin => ?_⟩
      rcases List.mem_cons.mp hg with rfl | hg
      · exact hsub (hdone hin)
      · exact hrest g hg hin
    · have hsub' : insert f s.searchCalleeFinishSet ⊆
          (l.foldl m.searchCallee (m.searchCallee s f)).searchCalleeFinishSet := hfinish ▸ hsub
      refine ⟨(Finset.subset_insert f _).trans hsub', fun h => ?_, fun _ _ => ?_⟩
      · obtain ⟨hmid, hset, hrest⟩ := hfix h
        obtain ⟨hs, hnone⟩ := hstep.mp hmid
        have hsame : (m.searchCallee s f).pthreadAllCalleeSet = s.pthreadAllCalleeSet := by
          ext g
          rw [hall]
          exact or_iff_left (hnone g)
        rw [hsame] at hset hrest
        refine ⟨hs, hset, fun g hg hin => ?_⟩
        rcases List.mem_cons.mp hg with rfl | hg
        · exact hsub' (Finset.mem_insert_self g _)
        · exact hrest g hg hin
      · have hcard := Finset.card_le_card hsub'
        rw [Finset.card_insert_of_notMem hnew] at hcard
        omega

/-- The loop ends, and then every function of the set has been searched. -/
theorem searchCallees_ends {s : Search m.n} (h : Searched m getFuncname markedInterestingString s)
    (hfix : s.isFixPoint = true → ∀ f ∈ s.pthreadAllCalleeSet, f ∈ s.searchCalleeFinishSet) {fuel : Nat}
    (hfuel : m.n + 2 ≤ fuel + s.searchCalleeFinishSet.card) :
    ∃ s', m.searchCallees fuel s = .ok s' ∧ Searched m getFuncname markedInterestingString s' ∧
      ∀ f ∈ s'.pthreadAllCalleeSet, f ∈ s'.searchCalleeFinishSet := by
  have hbound : ∀ s : Search m.n, s.searchCalleeFinishSet.card ≤ m.n := fun s => by
    simpa using Finset.card_le_univ s.searchCalleeFinishSet
  induction fuel generalizing s with
  | zero =>
    have hcard := hbound s
    omega
  | succ fuel ih =>
    rw [searchCallees]
    by_cases hend : s.isFixPoint = true
    · rw [if_pos hend]
      exact ⟨s, rfl, h, hfix hend⟩
    · rw [if_neg hend]
      obtain ⟨_, hdone, hgrow⟩ := foldl_searchCallee (List.finRange m.n) { s with isFixPoint := true }
      have hnext : (m.sweep s).isFixPoint = true →
          ∀ f ∈ (m.sweep s).pthreadAllCalleeSet, f ∈ (m.sweep s).searchCalleeFinishSet := by
        intro hfix' f hf
        obtain ⟨_, hset, hrest⟩ := hdone hfix'
        exact hrest f (List.mem_finRange f) (hset ▸ hf)
      by_cases hlast : (m.sweep s).isFixPoint = true
      · cases fuel with
        | zero =>
          have hcard := hbound s
          omega
        | succ fuel =>
          rw [searchCallees, if_pos hlast]
          exact ⟨_, rfl, searched_sweep h, hnext hlast⟩
      · rw [Bool.not_eq_true] at hlast
        have hcard : s.searchCalleeFinishSet.card < (m.sweep s).searchCalleeFinishSet.card := hgrow rfl hlast
        exact ih (searched_sweep h) hnext (by omega)

theorem searchCallees_mono {s s' : Search m.n} {fuel fuel' : Nat} (hle : fuel ≤ fuel')
    (h : m.searchCallees fuel s = .ok s') : m.searchCallees fuel' s = .ok s' := by
  induction fuel generalizing s fuel' with
  | zero => cases h
  | succ fuel ih =>
    obtain ⟨k, rfl⟩ := Nat.exists_eq_add_of_le' hle
    rw [← Nat.add_assoc]
    rw [searchCallees] at h ⊢
    split
    · next hend => rwa [if_pos hend] at h
    · next hend =>
      rw [if_neg hend] at h
      exact ih (Nat.le_add_left fuel k) h

theorem search_spec {fuel : Nat} {s : Search m.n}
    (h : m.search getFuncname markedInterestingString fuel = .ok s) :
    (∀ g, g ∈ s.pthreadFunctionMap ↔ m.isMarked getFuncname markedInterestingString g = true ∨
      m.DirectReach g ∨ ∃ f, m.DirectReach f ∧ m.Cast f g) ∧
    ∀ line, line ∈ s.debugLines ↔ ∃ f, m.DirectReach f ∧ ∃ inst ∈ m.calls f, ∃ g,
      inst.callee = .direct g ∧ m.hasBody g = true ∧ line = debugLine inst.block (m.fn g).name := by
  rw [search] at h
  split at h
  · cases h
  · obtain ⟨s', hrun, hsearched, hdone⟩ := @searchCallees_ends m getFuncname markedInterestingString _
      searched_init nofun (fuel + (m.n + 2)) (by omega)
    obtain rfl : s = s' := Except.ok.inj ((searchCallees_mono (Nat.le_add_right _ _) h).symm.trans hrun)
    have hall : ∀ f, f ∈ s.pthreadAllCalleeSet ↔ m.DirectReach f := by
      intro f
      refine ⟨hsearched.reached f, ?_⟩
      rintro ⟨e, he, hef⟩
      induction hef with
      | refl => exact hsearched.tasks e he
      | tail _ hstep ih => exact hsearched.closed _ (hdone _ ih) _ hstep
    have hfinish : ∀ f, f ∈ s.searchCalleeFinishSet ↔ m.DirectReach f := fun f =>
      ⟨fun hf => (hall f).mp (hsearched.finished f hf), fun hf => hdone f ((hall f).mpr hf)⟩
    refine ⟨fun g => ?_, fun line => ?_⟩
    · rw [hsearched.marked]
      simp only [hall, hfinish]
    · rw [hsearched.printed]
      simp only [hfinish, debugLineOf_eq_some]

/-- The loop ends if every thread runs a known function. Then all that threads may run is marked
exactly when, of each function, the call graph tells all but the last call of some chain. -/
theorem search_threadsClosed_iff (m : Module) (getFuncname : List Char → List Char)
    (markedInterestingString : List (List Char)) :
    (none ∉ m.pthreadCallFunction → ∃ rounds, ∀ fuel, rounds ≤ fuel →
      ∃ s, m.search getFuncname markedInterestingString fuel = .ok s) ∧
    ∀ fuel s, m.search getFuncname markedInterestingString fuel = .ok s → (m.ThreadsClosed s ↔
      ∀ g, m.hasBody g = true → m.ThreadReach g →
        m.isMarked getFuncname markedInterestingString g = true ∨ some g ∈ m.pthreadCallFunction ∨
          ∃ f, m.DirectReach f ∧ m.Calls f g) := by
  constructor
  · intro hnull
    refine ⟨m.n + 2, fun fuel hfuel => ?_⟩
    obtain ⟨s, hrun, _⟩ := @searchCallees_ends m getFuncname markedInterestingString _ searched_init nofun fuel
      (by omega)
    exact ⟨s, by rw [search, if_neg hnull, hrun]⟩
  · intro fuel s h
    have hmarked : ∀ g, m.hasBody g = true → (g ∈ s.pthreadFunctionMap ↔
        m.isMarked getFuncname markedInterestingString g = true ∨ some g ∈ m.pthreadCallFunction ∨
          ∃ f, m.DirectReach f ∧ m.Calls f g) := by
      intro g hg
      rw [(search_spec h).1]
      constructor
      · rintro (hname | ⟨e, he, heg⟩ | ⟨f, hf, hfg⟩)
        · exact Or.inl hname
        · rcases Relation.ReflTransGen.cases_tail heg with rfl | ⟨f, hef, hfg⟩
          · exact Or.inr (Or.inl he)
          · exact Or.inr (Or.inr ⟨f, ⟨e, he, hef⟩, (calls_iff hg).mpr (Or.inl hfg)⟩)
        · exact Or.inr (Or.inr ⟨f, hf, (calls_iff hg).mpr (Or.inr hfg)⟩)
      · rintro (hname | htask | ⟨f, ⟨e, he, hef⟩, hfg⟩)
        · exact Or.inl hname
        · exact Or.inr (Or.inl ⟨g, htask, Relation.ReflTransGen.refl⟩)
        · rcases (calls_iff hg).mp hfg with hdirect | hcast
          · exact Or.inr (Or.inl ⟨e, he, hef.tail hdirect⟩)
          · exact Or.inr (Or.inr ⟨f, ⟨e, he, hef⟩, hcast⟩)
    constructor
    · intro hclosed g hg hreach
      exact (hmarked g hg).mp (hclosed g hg hreach).1
    · intro hall g hg hreach
      have hmem := (hmarked g hg).mpr (hall g hg hreach)
      refine ⟨hmem, ?_⟩
      rw [isFiltered, hg]
      simp [hmem]

end Module

/-- `main` makes a thread of function 1, which calls 2 through a cast and 4 directly; 2 calls 3. -/
def castChain : Module where
  n := 5
  fn := ![⟨"main".toList, some [⟨.unknown, "pthread_create".toList,
      [⟨"tid".toList, none⟩, ⟨[], none⟩, ⟨"task".toList, some 1⟩, ⟨[], none⟩], "entry".toList⟩]⟩,
    ⟨"task".toList, some [⟨.cast 2, [], [], "entry".toList⟩, ⟨.direct 4, "log".toList, [], "entry".toList⟩]⟩,
    ⟨"handler".toList, some [⟨.direct 3, "update".toList, [], "entry".toList⟩]⟩,
    ⟨"update".toList, some []⟩, ⟨"log".toList, some []⟩]

/-- The function behind the cast call is filtered. -/
theorem cast_callee_not_searched : ¬ ∀ (m : Module) (getFuncname : List Char → List Char)
    (markedInterestingString : List (List Char)) (fuel : Nat) (s : Search m.n),
    m.search getFuncname markedInterestingString fuel = .ok s → m.ThreadsClosed s := by
  intro h
  let found : Search 5 := ⟨{2, 4, 1}, {4, 1}, {4, 1}, true, true, [debugLine "entry".toList "log".toList]⟩
  have hrun : castChain.search id [] 3 = .ok found := rfl
  have hcast : castChain.Calls (1 : Fin 5) (2 : Fin 5) :=
    ⟨(⟨.cast 2, [], [], "entry".toList⟩ : CallInst 5), List.mem_cons_self, Or.inr rfl⟩
  have hdirect : castChain.Calls (2 : Fin 5) (3 : Fin 5) :=
    ⟨(⟨.direct 3, "update".toList, [], "entry".toList⟩ : CallInst 5), List.mem_cons_self, Or.inl rfl⟩
  have hreach : castChain.ThreadReach (3 : Fin 5) :=
    ⟨(1 : Fin 5), by decide, (Relation.ReflTransGen.single hcast).tail hdirect⟩
  have hmarked : (3 : Fin 5) ∈ ({2, 4, 1} : Finset (Fin 5)) :=
    (h castChain id [] 3 found hrun (3 : Fin 5) rfl hreach).1
  exact absurd hmarked (by decide)

end Period.Pass
