import Mathlib.Logic.Function.Basic
import Period.Foundation.OrderedDict
import Period.Foundation.Runs

/-!
# The main loop and its two dictionaries

`waited_to_explore` and `waited_to_explore_save` are references: at the start of each depth
they become one object, and only a `deepcopy` makes them two again. A step is the start of a
depth, one test, the end of a scheduler, or one turn of the loop that pops an entry.
-/

namespace Period.Driver

open Runs
set_option autoImplicit false

def SHARE_THREAD_NUM : Nat := 100
def SHARE_ARRAY_SIZE : Nat := 1990

def calculateCoverageHashID (kpLocArray : Nat → Nat) (num : Nat) (kpNumArray : Nat → Nat)
    (N : Nat) : Nat :=
  let num := if num > SHARE_ARRAY_SIZE then SHARE_ARRAY_SIZE else num
  let hashID := (List.range num).foldl (fun hashID i => hashID + kpLocArray i) 0
  hashID + (List.range N).foldl (fun m i => (kpNumArray i * m) % 10000000) 1

/-- `new_max_kpNumArray` over the first `n` threads, with the `parentArray` it leaves. -/
def newMaxKpNumArray (kpNumArray parentArray : Nat → Nat) (n : Nat) : Bool × (Nat → Nat) :=
  ((List.range n).any fun i => kpNumArray i > parentArray i,
    fun i => if i < n ∧ kpNumArray i > parentArray i then kpNumArray i else parentArray i)

/-- What `get_info_from_share_memory` reads after a launch. -/
structure Reading where
  A : Nat
  B : Nat
  kpNumArray : Nat → Nat
  kpLocArray : Nat → Nat

structure Interesting where
  inter : List Nat
  pattern : List (List Nat)
  N : Nat
  M : Nat
  kpNumList : List Nat
  schedPrefix : List (List Nat)

/-- `add_to_explore_dict`: the shorter prefix stays. -/
def addToExploreDict (waited : OrderedDict Nat Interesting) (coverageHashID : Nat)
    (tmpList : Interesting) : OrderedDict Nat Interesting :=
  match waited.get? coverageHashID with
  | some saved =>
    if saved.schedPrefix.flatten.length > tmpList.schedPrefix.flatten.length then
      waited.set coverageHashID tmpList
    else waited
  | none => waited.set coverageHashID tmpList

/-- One test: the schedule with its pattern and prefix, and what each launch returned. A
launch that is missing timed out. -/
structure Trial where
  inter : List Nat
  pattern : List (List Nat)
  schedPrefix : List (List Nat)
  first : Option Reading
  retests : List Reading

/-- The retest loop: `N` and `M` grow until the target fits. -/
def retest (N M : Nat) (r : Reading) : List Reading → Nat × Nat × Option Reading
  | [] =>
    if r.A > N ∨ r.B > M then (max N r.A, max M r.B, none) else (N, M, some r)
  | r' :: rs =>
    if r.A > N ∨ r.B > M then retest (max N r.A) (max M r.B) r' rs else (N, M, some r)

structure Setup where
  varModeFlag : Nat
  noPrefixRun : Bool
  zeroInKP : Nat
  defaultCoverageHashID : Nat
  directInterNum : Nat
  N : Nat
  M : Nat
  parentArray : Nat → Nat

inductive Stage where
  | stage1
  | stage2
  deriving DecidableEq, Repr

inductive Phase where
  /-- `for inter in scheduler` -/
  | testing
  /-- `while waited_to_explore` -/
  | popping (whileFlag : Bool)
  /-- This depth is over. -/
  | ended
  deriving DecidableEq, Repr

structure Session where
  iterPeriod : Nat
  stage : Stage
  phase : Phase
  N : Nat
  M : Nat
  parentArray : Nat → Nat
  parentArrayCopy : Nat → Nat
  directInterLeft : Nat
  /-- The dictionary objects. -/
  heap : Nat → OrderedDict Nat Interesting
  /-- The objects from here on are not made yet. -/
  fresh : Nat
  waited : Nat
  saved : Nat
  /-- The IDs popped at this depth. -/
  popped : List Nat

inductive Event where
  /-- The next `iterPeriod`. -/
  | depth
  | test (t : Trial)
  /-- The scheduler has no further schedule. -/
  | finish
  /-- One turn of `while waited_to_explore`; `built` when `SBPMESched` did not raise. -/
  | pop (built : Bool)

section Step
variable (c : Setup)

def start : Session where
  iterPeriod := 1
  stage := .stage1
  phase := .ended
  N := c.N
  M := c.M
  parentArray := c.parentArray
  parentArrayCopy := c.parentArray
  directInterLeft := c.directInterNum
  heap := fun _ => .empty
  fresh := 2
  waited := 0
  saved := 1
  popped := []

/-- The next turn of `for iterPeriod in range(2, period_limit+1)`. `get_schedule()` is a list,
so the `break`s on `None` are left out. -/
def nextDepth (s : Session) : Session :=
  if c.varModeFlag = 0 ∨ s.iterPeriod + 1 = 2 then enter s.directInterLeft
  else if s.directInterLeft = 0 then s
  else enter (s.directInterLeft - 1)
where
  enter (left : Nat) : Session :=
    { s with
      iterPeriod := s.iterPeriod + 1
      phase := .testing
      parentArray := s.parentArrayCopy
      directInterLeft := left
      waited := s.saved
      popped := [] }

/-- The ID that the reading adds to the dictionaries, if it is new coverage. -/
def newCoverage (r : Reading) (s : Session) : Option Nat :=
  let coverageHashID :=
    calculateCoverageHashID r.kpLocArray (s.M * (s.N + c.zeroInKP)) r.kpNumArray s.N
  if s.stage = .stage2 ∧ coverageHashID ∈ (s.heap s.saved).keys then none
  else if coverageHashID = c.defaultCoverageHashID then none
  else if (newMaxKpNumArray r.kpNumArray s.parentArray (s.N + c.zeroInKP)).1 then
    some coverageHashID
  else none

def interesting (t : Trial) (r : Reading) : Interesting where
  inter := t.inter
  pattern := t.pattern
  N := r.A
  M := r.B
  kpNumList := (List.range (r.A + c.zeroInKP)).map r.kpNumArray
  schedPrefix := t.schedPrefix

def Session.add (s : Session) (ref coverageHashID : Nat) (x : Interesting) : Session :=
  { s with heap := Function.update s.heap ref (addToExploreDict (s.heap ref) coverageHashID x) }

/-- After the retest loop. An index beyond `SHARE_THREAD_NUM` raises in
`new_max_kpNumArray`, which has changed `parentArray` by then. -/
def conclude (t : Trial) (r : Reading) (s : Session) : Session :=
  let s := { s with parentArrayCopy := s.parentArray }
  if s.N + c.zeroInKP > SHARE_THREAD_NUM then
    { s with parentArray := (newMaxKpNumArray r.kpNumArray s.parentArray SHARE_THREAD_NUM).2 }
  else
    match newCoverage c r s with
    | none => s
    | some coverageHashID =>
      let x := interesting c t r
      (s.add s.waited coverageHashID x).add s.saved coverageHashID x

/-- The session in which a test is decided, and the reading it is decided on. -/
def settle (t : Trial) (s : Session) : Session × Option Reading :=
  match t.first with
  | none => (s, none)
  | some r =>
    -- `check_and_update_kpNumMaxArray` raises before the retest loop
    if s.N + c.zeroInKP > SHARE_THREAD_NUM then (s, none)
    else
      let result := retest s.N s.M r t.retests
      ({ s with N := result.1, M := result.2.1 }, result.2.2)

def runTest (t : Trial) (s : Session) : Session :=
  match settle c t s with
  | (s, none) => s
  | (s, some r) => conclude c t r s

/-- What follows the tests when `DBDS_stage == 2`. -/
def endStage2 (s : Session) : Session :=
  if s.iterPeriod = 2 ∨ c.noPrefixRun then { s with stage := .stage1, phase := .ended }
  else { s with phase := .popping false }

def endScheduler (s : Session) : Session :=
  match s.stage with
  | .stage1 =>
    if c.varModeFlag = 0 ∨ s.iterPeriod = 2 then
      endStage2 c { s with
        stage := .stage2
        heap := Function.update s.heap s.fresh (s.heap s.waited)
        fresh := s.fresh + 1
        saved := s.fresh }
    else if s.directInterLeft ≠ 0 then { s with directInterLeft := s.directInterLeft - 1 }
    else endStage2 c { s with stage := .stage2, directInterLeft := c.directInterNum }
  | .stage2 => endStage2 c s

/-- One turn of `while waited_to_explore`, or what follows the loop. -/
def popItem (built whileFlag : Bool) (s : Session) : Session :=
  match (s.heap s.waited).popFirst with
  | none =>
    -- once more round the main loop, without a scheduler
    if whileFlag then { s with phase := .popping false }
    else { s with stage := .stage1, phase := .ended }
  | some ((coverageHashID, tempL), rest) =>
    { s with
      heap := Function.update s.heap s.waited rest
      parentArrayCopy := s.parentArray
      parentArray := fun i => if i < tempL.N then tempL.kpNumList.getD i 0 else 0
      popped := s.popped ++ [coverageHashID]
      phase := if built then .testing else .popping true }

/-- An event that cannot happen now changes nothing. -/
def step (e : Event) (s : Session) : Session :=
  match e, s.phase with
  | .depth, .ended => nextDepth c s
  | .test t, .testing => runTest c t s
  | .finish, .testing => endScheduler c s
  | .pop built, .popping whileFlag => popItem built whileFlag s
  | _, _ => s

end Step

/-! ## What an event can do -/

section Outcomes
variable (c : Setup)

/-- The end of a stage 1 makes a copy of the dictionary, starts the next scheduler of the stage
or goes on to stage 2 with the dictionary itself. -/
inductive SchedulerOutcome (s : Session) : Session → Prop where
  | copies (hstage : s.stage = .stage1) (hmode : c.varModeFlag = 0 ∨ s.iterPeriod = 2) :
      SchedulerOutcome s (endStage2 c { s with
        stage := .stage2
        heap := Function.update s.heap s.fresh (s.heap s.waited)
        fresh := s.fresh + 1
        saved := s.fresh })
  | goesOn (hstage : s.stage = .stage1) (hmode : ¬ (c.varModeFlag = 0 ∨ s.iterPeriod = 2))
      (hleft : s.directInterLeft ≠ 0) :
      SchedulerOutcome s { s with directInterLeft := s.directInterLeft - 1 }
  | shares (hstage : s.stage = .stage1) (hmode : ¬ (c.varModeFlag = 0 ∨ s.iterPeriod = 2))
      (hleft : s.directInterLeft = 0) :
      SchedulerOutcome s (endStage2 c { s with
        stage := .stage2
        directInterLeft := c.directInterNum })
  | stage2 (hstage : s.stage = .stage2) : SchedulerOutcome s (endStage2 c s)

theorem endScheduler_outcome (s : Session) : SchedulerOutcome c s (endScheduler c s) := by
  unfold endScheduler
  split
  · next hstage =>
    split
    · next hmode => exact SchedulerOutcome.copies hstage hmode
    · next hmode =>
      split
      · next hleft => exact SchedulerOutcome.goesOn hstage hmode hleft
      · next hleft => exact SchedulerOutcome.shares hstage hmode (not_not.mp hleft)
  · next hstage => exact SchedulerOutcome.stage2 hstage

/-- One turn of the loop takes the first entry, or there is none. -/
inductive PopOutcome (built whileFlag : Bool) (s : Session) : Session → Prop where
  | again (hempty : (s.heap s.waited).popFirst = none) (hwhile : whileFlag = true) :
      PopOutcome built whileFlag s { s with phase := .popping false }
  | ends (hempty : (s.heap s.waited).popFirst = none) (hwhile : whileFlag = false) :
      PopOutcome built whileFlag s { s with stage := .stage1, phase := .ended }
  | pops (coverageHashID : Nat) (tempL : Interesting) (rest : OrderedDict Nat Interesting)
      (hpop : (s.heap s.waited).popFirst = some ((coverageHashID, tempL), rest)) :
      PopOutcome built whileFlag s { s with
        heap := Function.update s.heap s.waited rest
        parentArrayCopy := s.parentArray
        parentArray := fun i => if i < tempL.N then tempL.kpNumList.getD i 0 else 0
        popped := s.popped ++ [coverageHashID]
        phase := if built then .testing else .popping true }

theorem popItem_outcome (built whileFlag : Bool) (s : Session) :
    PopOutcome built whileFlag s (popItem built whileFlag s) := by
  unfold popItem
  split
  · next hempty =>
    split
    · next hwhile => exact PopOutcome.again hempty hwhile
    · next hwhile => exact PopOutcome.ends hempty (Bool.eq_false_iff.mpr hwhile)
  · next coverageHashID tempL rest hpop => exact PopOutcome.pops coverageHashID tempL rest hpop

inductive StepOutcome (s : Session) : Event → Session → Prop where
  | idle (e : Event) : StepOutcome s e s
  | enters (left : Nat) (hphase : s.phase = .ended) :
      StepOutcome s .depth (nextDepth.enter s left)
  | tests (t : Trial) (hphase : s.phase = .testing) : StepOutcome s (.test t) (runTest c t s)
  | finishes (hphase : s.phase = .testing) : StepOutcome s .finish (endScheduler c s)
  | pops (built whileFlag : Bool) (hphase : s.phase = .popping whileFlag) :
      StepOutcome s (.pop built) (popItem built whileFlag s)

theorem step_outcome (e : Event) (s : Session) : StepOutcome c s e (step c e s) := by
  unfold step
  split
  · next hphase =>
    unfold nextDepth
    split
    · exact StepOutcome.enters _ hphase
    · split
      · exact StepOutcome.idle _
      · exact StepOutcome.enters _ hphase
  · next t hphase => exact StepOutcome.tests t hphase
  · next hphase => exact StepOutcome.finishes hphase
  · next built whileFlag hphase => exact StepOutcome.pops built whileFlag hphase
  · exact StepOutcome.idle _

end Outcomes

theorem retest_grows (N M : Nat) (r : Reading) (rs : List Reading) :
    N ≤ (retest N M r rs).1 ∧ M ≤ (retest N M r rs).2.1 := by
  induction rs generalizing N M r with
  | nil =>
    unfold retest
    split
    · exact ⟨Nat.le_max_left _ _, Nat.le_max_left _ _⟩
    · exact ⟨Nat.le_refl _, Nat.le_refl _⟩
  | cons r' rs ih =>
    unfold retest
    split
    · obtain ⟨hN, hM⟩ := ih (max N r.A) (max M r.B) r'
      exact ⟨Nat.le_trans (Nat.le_max_left _ _) hN, Nat.le_trans (Nat.le_max_left _ _) hM⟩
    · exact ⟨Nat.le_refl _, Nat.le_refl _⟩

section Growth
variable (c : Setup)

theorem conclude_size (t : Trial) (r : Reading) (s : Session) :
    (conclude c t r s).N = s.N ∧ (conclude c t r s).M = s.M := by
  unfold conclude
  dsimp only
  split
  · exact ⟨rfl, rfl⟩
  · split
    · exact ⟨rfl, rfl⟩
    · exact ⟨rfl, rfl⟩

theorem settle_grows (t : Trial) (s : Session) :
    s.N ≤ (settle c t s).1.N ∧ s.M ≤ (settle c t s).1.M := by
  unfold settle
  split
  · exact ⟨Nat.le_refl _, Nat.le_refl _⟩
  · split
    · exact ⟨Nat.le_refl _, Nat.le_refl _⟩
    · exact retest_grows _ _ _ _

theorem runTest_grows (t : Trial) (s : Session) :
    s.N ≤ (runTest c t s).N ∧ s.M ≤ (runTest c t s).M := by
  have hsettle := settle_grows c t s
  unfold runTest
  rcases hs : settle c t s with ⟨s', _ | r⟩
  · rw [hs] at hsettle
    exact hsettle
  · rw [hs] at hsettle
    obtain ⟨hN, hM⟩ := conclude_size c t r s'
    exact ⟨hN.symm ▸ hsettle.1, hM.symm ▸ hsettle.2⟩

theorem endStage2_size (s : Session) :
    (endStage2 c s).N = s.N ∧ (endStage2 c s).M = s.M := by
  unfold endStage2
  split
  · exact ⟨rfl, rfl⟩
  · exact ⟨rfl, rfl⟩

theorem endScheduler_size (s : Session) :
    (endScheduler c s).N = s.N ∧ (endScheduler c s).M = s.M := by
  have hout := endScheduler_outcome c s
  generalize endScheduler c s = s' at hout
  cases hout with
  | copies _ _ => exact endStage2_size c _
  | goesOn _ _ _ => exact ⟨rfl, rfl⟩
  | shares _ _ _ => exact endStage2_size c _
  | stage2 _ => exact endStage2_size c s

theorem popItem_size (built whileFlag : Bool) (s : Session) :
    (popItem built whileFlag s).N = s.N ∧ (popItem built whileFlag s).M = s.M := by
  have hout := popItem_outcome built whileFlag s
  generalize popItem built whileFlag s = s' at hout
  cases hout with
  | again _ _ => exact ⟨rfl, rfl⟩
  | ends _ _ => exact ⟨rfl, rfl⟩
  | pops _ _ _ _ => exact ⟨rfl, rfl⟩

/-- Only the retest loop changes `N` and `M`, and it lets them grow. -/
theorem step_grows (e : Event) (s : Session) :
    s.N ≤ (step c e s).N ∧ s.M ≤ (step c e s).M := by
  have hout := step_outcome c e s
  generalize step c e s = s' at hout
  cases hout with
  | idle _ => exact ⟨Nat.le_refl _, Nat.le_refl _⟩
  | enters left _ => exact ⟨Nat.le_refl _, Nat.le_refl _⟩
  | tests t _ => exact runTest_grows c t s
  | finishes _ =>
    obtain ⟨hN, hM⟩ := endScheduler_size c s
    exact ⟨Nat.le_of_eq hN.symm, Nat.le_of_eq hM.symm⟩
  | pops built whileFlag _ =>
    obtain ⟨hN, hM⟩ := popItem_size built whileFlag s
    exact ⟨Nat.le_of_eq hN.symm, Nat.le_of_eq hM.symm⟩

theorem run_grows (es : List Event) (s : Session) :
    s.N ≤ (run (step c) es s).N ∧ s.M ≤ (run (step c) es s).M := by
  induction es generalizing s with
  | nil => exact ⟨Nat.le_refl _, Nat.le_refl _⟩
  | cons e es ih =>
    obtain ⟨hN, hM⟩ := step_grows c e s
    obtain ⟨hN', hM'⟩ := ih (step c e s)
    exact ⟨Nat.le_trans hN hN', Nat.le_trans hM hM'⟩

end Growth

end Period.Driver
