import Period.Driver.Launch
import Period.Driver.SavedRuns
import Period.Scheduler.Reached

/-!
# The main loop and its schedulers

The events of a session come from the schedulers that the loop builds: one for each depth, and
one for each prefix that it pops. All variables are considered (`VarModeFlag` is `0`), so the
scheduler of a depth has the key points that the dry run has found.
-/

namespace Period.Driver

open Runs Enumeration
open Period.Scheduler
set_option autoImplicit false

/-- A scheduler in a `for` loop. Its `_iter` is `_first_iter` at first. -/
structure Iteration where
  scheduler : SBPMESched
  first : Bool

def Iteration.next (fuel : Nat) (it : Iteration) : Except Halt Iteration :=
  if it.first then .ok { it with first := false }
  else (it.scheduler.nextIter fuel).map fun scheduler => { scheduler, first := false }

/-- What `next` still gives before it stops. -/
def Iteration.Gives (fuel : Nat) : List SBPMESched → Iteration → Prop
  | [], it => it.next fuel = .error .stopIteration
  | s :: rest, it => it.next fuel = .ok ⟨s, false⟩ ∧ Iteration.Gives fuel rest ⟨s, false⟩

theorem gives_of_exhaust {fuel k : Nat} {s : SBPMESched} {rest : List SBPMESched}
    (h : exhaust (SBPMESched.nextIter fuel) .stopIteration k s = some (s :: rest)) :
    Iteration.Gives fuel rest ⟨s, false⟩ := by
  induction k generalizing s rest with
  | zero => cases h
  | succ k ih =>
    rw [exhaust] at h
    cases hnext : s.nextIter fuel with
    | ok s' =>
      rw [hnext] at h
      obtain ⟨out, hout, hcons⟩ := Option.map_eq_some_iff.mp h
      obtain ⟨rest', rfl⟩ := exhaust_head hout
      cases hcons
      refine ⟨?_, ih hout⟩
      rw [Iteration.next, hnext]
      rfl
    | error e =>
      rw [hnext] at h
      by_cases hstop : e = .stopIteration
      · simp only [if_pos hstop] at h
        cases h
        rw [Iteration.Gives, Iteration.next, hnext, hstop]
        rfl
      · simp only [if_neg hstop] at h
        cases h

theorem gives_from_start {fuel k : Nat} {s : SBPMESched} {out : List SBPMESched}
    (h : exhaust (SBPMESched.nextIter fuel) .stopIteration k s = some out) :
    Iteration.Gives fuel out ⟨s, true⟩ := by
  obtain ⟨rest, rfl⟩ := exhaust_head h
  exact ⟨rfl, gives_of_exhaust h⟩

/-- `is_redundant_with_prefix`; the loop calls it for a prefix with a period only. -/
def isRedundantWithPrefix (inter schedPrefix : Schedule) : Bool :=
  match inter with
  | first :: _ :: _ =>
    if first.toFinset.card = 1 ∧ (schedPrefix.headD []).toFinset = first.toFinset then
      first.length < (schedPrefix.headD []).length
    else true
  | _ => true

structure Options where
  bugDepth : Nat
  fullDeepRun : Bool
  noPrefixRun : Bool
  runsLimit : Nat
  zeroInKP : Nat
  defaultCoverageHashID : Nat
  N : Nat
  M : Nat
  kpMaxNumArray : Nat → Nat
  parentArray : Nat → Nat

namespace Options
variable (o : Options)

/-- `VarModeFlag` is `0` without `-n` and `-m`. -/
def setup : Setup where
  varModeFlag := 0
  noPrefixRun := o.noPrefixRun
  zeroInKP := o.zeroInKP
  defaultCoverageHashID := o.defaultCoverageHashID
  directInterNum := 0
  N := o.N
  M := o.M
  parentArray := o.parentArray

def threadNum : Nat := o.N + o.zeroInKP

def mList : List Nat := (List.range o.threadNum).map o.kpMaxNumArray

/-- Of a deep bug only the prefixes that are popped are tested. -/
def skips (iterPeriod : Nat) : Bool := 4 ≤ iterPeriod - 1 ∧ ¬ o.fullDeepRun

end Options

structure Test where
  iterPeriod : Nat
  stage : Stage
  N : Nat
  M : Nat
  scheduler : SBPMESched

def Test.pattern (t : Test) : List (List Nat) :=
  filledWithZero (getYieldPattern t.scheduler.n t.scheduler.kps t.scheduler.sched) t.M

/-- The target that the test launches, when `m` was in the segment. -/
def Test.target (t : Test) (loopUnwindedNum : Nat) (m : Bytes.Mem) : Runtime.Target :=
  launch loopUnwindedNum (writeTest t.N t.M t.pattern m)

/-- What the target left after the launch and after each relaunch. A launch that is missing timed
out. -/
structure Answer where
  first : Option Reading
  retests : List Reading

structure Testing where
  session : Session
  scheduler : Option Iteration
  schedPrefix : Schedule
  rounds : Nat
  reachRunsLimit : Bool
  /-- What a scheduler raised in the loop. -/
  raised : Option Halt
  /-- The tests so far. -/
  log : List Test

namespace Testing

section Step
variable (o : Options) (fuel : Nat)

def start : Testing where
  session := Driver.start o.setup
  scheduler := none
  schedPrefix := []
  rounds := 0
  reachRunsLimit := false
  raised := none
  log := []

def turn (e : Event) (s : Testing) : Testing := { s with session := Driver.step o.setup e s.session }

/-- The constructor runs in a `try` block. -/
def startDepth (s : Testing) : Testing :=
  match SBPMESched.init fuel o.threadNum o.mList (s.session.iterPeriod + 1) [] false with
  | .error .outOfFuel => { s with raised := some .outOfFuel }
  | .error _ => { s.turn o .depth with scheduler := none }
  | .ok scheduler => { s.turn o .depth with scheduler := some { scheduler, first := true } }

def finish (s : Testing) : Testing := { s.turn o .finish with scheduler := none }

def testNow (it : Iteration) (s : Testing) : Test where
  iterPeriod := s.session.iterPeriod
  stage := s.session.stage
  N := s.session.N
  M := s.session.M
  scheduler := it.scheduler

def trialOf (answer : Answer) (t : Test) : Trial where
  inter := t.scheduler.sched.flatten
  pattern := t.pattern
  schedPrefix := t.scheduler.schedPrefix
  first := answer.first
  retests := answer.retests

def runTest (answer : Answer) (it : Iteration) (s : Testing) : Testing :=
  { s.turn o (.test (trialOf answer (s.testNow it))) with
    scheduler := some it
    rounds := s.rounds + 1
    log := s.log ++ [s.testNow it] }

def forTurn (answer : Answer) (it : Iteration) (s : Testing) : Testing :=
  match it.next fuel with
  | .error .stopIteration => s.finish o
  | .error e => { s with raised := some e }
  | .ok it =>
    if s.session.stage = .stage1 ∧ o.skips s.session.iterPeriod then s.finish o
    else if s.schedPrefix ≠ [] ∧ isRedundantWithPrefix it.scheduler.sched s.schedPrefix then
      { s with scheduler := some it }
    else if o.runsLimit ≠ 0 ∧ o.runsLimit < s.rounds + 1 then
      { s with rounds := s.rounds + 1, reachRunsLimit := true }.finish o
    else s.runTest o answer it

/-- One turn of `while waited_to_explore`, or what follows it. -/
def popTurn (whileFlag : Bool) (s : Testing) : Testing :=
  match (s.session.heap s.session.waited).popFirst with
  | none => { s.turn o (.pop false) with schedPrefix := if whileFlag then s.schedPrefix else [] }
  | some ((_, tempL), _) =>
    match SBPMESched.init fuel tempL.N (tmpMList tempL) s.session.iterPeriod tempL.schedPrefix true with
    | .error .outOfFuel => { s with raised := some .outOfFuel }
    | .error _ => { s.turn o (.pop false) with schedPrefix := tempL.schedPrefix, scheduler := none }
    | .ok scheduler =>
      { s.turn o (.pop true) with
        schedPrefix := tempL.schedPrefix
        scheduler := some { scheduler, first := true } }

/-- An exception that is not caught ends the program, and the depths end with the one of
`bugDepth`. -/
def step (answer : Answer) (s : Testing) : Testing :=
  if s.raised.isSome then s
  else
    match s.session.phase with
    | .ended =>
      if s.reachRunsLimit ∨ o.bugDepth + 1 ≤ s.session.iterPeriod then s else s.startDepth o fuel
    | .testing =>
      match s.scheduler with
      | none => s.finish o
      | some it => s.forTurn o fuel answer it
    | .popping whileFlag => s.popTurn o fuel whileFlag

end Step

/-! ## What a turn can do -/

section Outcomes
variable (o : Options) (fuel : Nat)

inductive LoopEnds (s : Testing) : Option Iteration → Prop where
  | noScheduler : LoopEnds s none
  | stops (it : Iteration) (hnext : it.next fuel = .error .stopIteration) : LoopEnds s (some it)
  | skipped (it : Iteration) (hstage : s.session.stage = .stage1)
      (hskips : o.skips s.session.iterPeriod = true) : LoopEnds s (some it)

inductive Outcome (answer : Answer) (s : Testing) : Testing → Prop where
  | idle (hdone : s.raised.isSome ∨
      s.session.phase = .ended ∧ (s.reachRunsLimit = true ∨ o.bugDepth + 1 ≤ s.session.iterPeriod)) :
      Outcome answer s s
  | raises (e : Halt)
      (hinit : s.session.phase = .ended → s.session.iterPeriod < o.bugDepth + 1 ∧
        SBPMESched.init fuel o.threadNum o.mList (s.session.iterPeriod + 1) [] false = .error .outOfFuel)
      (hnext : s.session.phase = .testing → ∃ it, s.scheduler = some it ∧
        it.next fuel = .error e ∧ e ≠ .stopIteration)
      (hpop : ∀ whileFlag, s.session.phase = .popping whileFlag →
        (s.session.heap s.session.waited).popFirst ≠ none) :
      Outcome answer s { s with raised := some e }
  | enters (hphase : s.session.phase = .ended) (hlimit : s.reachRunsLimit = false)
      (hdepth : s.session.iterPeriod < o.bugDepth + 1) (made : Except Halt SBPMESched)
      (hmade : SBPMESched.init fuel o.threadNum o.mList (s.session.iterPeriod + 1) [] false = made)
      (hfuel : made ≠ .error .outOfFuel) :
      Outcome answer s { s.turn o .depth with
        scheduler := made.toOption.map fun scheduler => { scheduler, first := true } }
  | finishes (hphase : s.session.phase = .testing) (hends : LoopEnds o fuel s s.scheduler) :
      Outcome answer s (s.finish o)
  | limits (hphase : s.session.phase = .testing) (it it' : Iteration) (hit : s.scheduler = some it)
      (hnext : it.next fuel = .ok it') (hlimit : o.runsLimit ≠ 0) :
      Outcome answer s ({ s with rounds := s.rounds + 1, reachRunsLimit := true }.finish o)
  | passes (hphase : s.session.phase = .testing) (it it' : Iteration) (hit : s.scheduler = some it)
      (hnext : it.next fuel = .ok it') (hpopped : s.schedPrefix ≠ []) :
      Outcome answer s { s with scheduler := some it' }
  | tests (hphase : s.session.phase = .testing) (it it' : Iteration) (hit : s.scheduler = some it)
      (hnext : it.next fuel = .ok it')
      (hskips : s.session.stage = .stage1 → o.skips s.session.iterPeriod = false) :
      Outcome answer s (s.runTest o answer it')
  | pops (whileFlag built : Bool) (hphase : s.session.phase = .popping whileFlag)
      (schedPrefix : Schedule) (scheduler : Option Iteration)
      (hempty : (s.session.heap s.session.waited).popFirst = none → whileFlag = false →
        schedPrefix = []) :
      Outcome answer s { s.turn o (.pop built) with schedPrefix, scheduler }

theorem startDepth_outcome {answer : Answer} {s : Testing} (hphase : s.session.phase = .ended)
    (hlimit : s.reachRunsLimit = false) (hdepth : s.session.iterPeriod < o.bugDepth + 1) :
    Outcome o fuel answer s (s.startDepth o fuel) := by
  unfold startDepth
  split
  · next hinit =>
    refine Outcome.raises _ (fun _ => ⟨hdepth, hinit⟩) (fun h => ?_) fun whileFlag h => ?_
    · exact absurd (hphase.symm.trans h) nofun
    · exact absurd (hphase.symm.trans h) nofun
  · next e hne hinit =>
    exact Outcome.enters hphase hlimit hdepth (.error e) hinit fun h => hne (by cases h; rfl)
  · next scheduler hinit => exact Outcome.enters hphase hlimit hdepth (.ok scheduler) hinit nofun

theorem forTurn_outcome {answer : Answer} {s : Testing} {it : Iteration}
    (hphase : s.session.phase = .testing) (hit : s.scheduler = some it) :
    Outcome o fuel answer s (s.forTurn o fuel answer it) := by
  unfold forTurn
  split
  · next hnext => exact Outcome.finishes hphase (hit ▸ LoopEnds.stops it hnext)
  · next e hne hnext =>
    refine Outcome.raises e (fun h => ?_) (fun _ => ⟨it, hit, hnext, fun h => hne (h ▸ rfl)⟩)
      fun whileFlag h => ?_
    · exact absurd (hphase.symm.trans h) nofun
    · exact absurd (hphase.symm.trans h) nofun
  · next it' hnext =>
    split
    · next hskips => exact Outcome.finishes hphase (hit ▸ LoopEnds.skipped it hskips.1 hskips.2)
    · next hskips =>
      split
      · next hpopped => exact Outcome.passes hphase it it' hit hnext hpopped.1
      · split
        · next hlimit => exact Outcome.limits hphase it it' hit hnext hlimit.1
        · refine Outcome.tests hphase it it' hit hnext fun hstage => ?_
          exact Bool.eq_false_iff.mpr fun h => hskips ⟨hstage, h⟩

theorem popTurn_outcome {answer : Answer} {s : Testing} {whileFlag : Bool}
    (hphase : s.session.phase = .popping whileFlag) :
    Outcome o fuel answer s (s.popTurn o fuel whileFlag) := by
  unfold popTurn
  split
  · exact Outcome.pops whileFlag false hphase _ s.scheduler fun _ h => by rw [h]; rfl
  · next hpop =>
    have hsome : (s.session.heap s.session.waited).popFirst ≠ none := by
      rw [hpop]
      nofun
    split
    · refine Outcome.raises _ (fun h => ?_) (fun h => ?_) fun _ _ => hsome
      · exact absurd (hphase.symm.trans h) nofun
      · exact absurd (hphase.symm.trans h) nofun
    · exact Outcome.pops whileFlag false hphase _ none fun h => absurd h hsome
    · exact Outcome.pops whileFlag true hphase _ _ fun h => absurd h hsome

theorem step_outcome (answer : Answer) (s : Testing) : Outcome o fuel answer s (s.step o fuel answer) := by
  unfold step
  split
  · next h => exact Outcome.idle (Or.inl h)
  · split
    · next hphase =>
      split
      · next h => exact Outcome.idle (Or.inr ⟨hphase, h⟩)
      · next h =>
        rw [not_or, Bool.not_eq_true, Nat.not_le] at h
        exact startDepth_outcome o fuel hphase h.1 h.2
    · next hphase =>
      split
      · next hnone => exact Outcome.finishes hphase (hnone ▸ LoopEnds.noScheduler)
      · next it hit => exact forTurn_outcome o fuel hphase hit
    · next whileFlag hphase => exact popTurn_outcome o fuel hphase

end Outcomes

end Testing

end Period.Driver
