import Period.Driver.Session

/-!
# The baseline of a depth

`parentArrayCopy` is meant to bring back the counts of the default run. A test and a popped
entry assign the current `parentArray` to it, which in stage 2 is that of a prefix.
-/

namespace Period.Driver

open Runs
set_option autoImplicit false

section Baseline
variable (c : Setup)

/-- Where the event assigns to `parentArrayCopy`, `parentArray` is as after the default run. -/
def OnBaseline (e : Event) (s : Session) : Prop :=
  match e, s.phase with
  | .test t, .testing => (settle c t s).2.isSome → s.parentArray = c.parentArray
  | .pop _, .popping _ => (s.heap s.waited).popFirst.isSome → s.parentArray = c.parentArray
  | _, _ => True

variable {c} {s : Session}

theorem settle_parentArray (c : Setup) (t : Trial) (s : Session) :
    (settle c t s).1.parentArray = s.parentArray ∧
      (settle c t s).1.parentArrayCopy = s.parentArrayCopy := by
  unfold settle
  split
  · exact ⟨rfl, rfl⟩
  · split
    · exact ⟨rfl, rfl⟩
    · exact ⟨rfl, rfl⟩

theorem conclude_parentArrayCopy (t : Trial) (r : Reading) (s : Session) :
    (conclude c t r s).parentArrayCopy = s.parentArray := by
  unfold conclude
  dsimp only
  split
  · rfl
  · split
    · rfl
    · rfl

theorem runTest_parentArrayCopy {t : Trial} (h : s.parentArrayCopy = c.parentArray)
    (hbase : (settle c t s).2.isSome → s.parentArray = c.parentArray) :
    (runTest c t s).parentArrayCopy = c.parentArray := by
  obtain ⟨hparent, hcopy⟩ := settle_parentArray c t s
  unfold runTest
  rcases hs : settle c t s with ⟨s', _ | r⟩
  · rw [hs] at hcopy
    exact hcopy.trans h
  · rw [hs] at hparent hbase
    rw [conclude_parentArrayCopy]
    exact hparent.trans (hbase rfl)

theorem endStage2_parentArrayCopy (c : Setup) (s : Session) :
    (endStage2 c s).parentArrayCopy = s.parentArrayCopy := by
  unfold endStage2
  split <;> rfl

theorem endScheduler_parentArrayCopy (c : Setup) (s : Session) :
    (endScheduler c s).parentArrayCopy = s.parentArrayCopy := by
  have hout := endScheduler_outcome c s
  generalize endScheduler c s = s' at hout
  cases hout with
  | copies _ _ => exact endStage2_parentArrayCopy c _
  | goesOn _ _ _ => rfl
  | shares _ _ _ => exact endStage2_parentArrayCopy c _
  | stage2 _ => exact endStage2_parentArrayCopy c s

theorem popItem_parentArrayCopy {built whileFlag : Bool} (h : s.parentArrayCopy = c.parentArray)
    (hbase : (s.heap s.waited).popFirst.isSome → s.parentArray = c.parentArray) :
    (popItem built whileFlag s).parentArrayCopy = c.parentArray := by
  have hout := popItem_outcome built whileFlag s
  generalize popItem built whileFlag s = s' at hout
  cases hout with
  | again _ _ => exact h
  | ends _ _ => exact h
  | pops _ _ _ hpop =>
    apply hbase
    rw [hpop]
    rfl

theorem parentArrayCopy_step (e : Event) (s : Session) (h : s.parentArrayCopy = c.parentArray)
    (he : OnBaseline c e s) : (step c e s).parentArrayCopy = c.parentArray := by
  unfold OnBaseline at he
  have hout := step_outcome c e s
  generalize step c e s = s' at hout
  cases hout with
  | idle _ => exact h
  | enters left _ => exact h
  | tests t hphase =>
    rw [hphase] at he
    exact runTest_parentArrayCopy h he
  | finishes _ =>
    rw [endScheduler_parentArrayCopy]
    exact h
  | pops built whileFlag hphase =>
    rw [hphase] at he
    exact popItem_parentArrayCopy h he

theorem step_depth (c : Setup) (s : Session) :
    step c .depth s = if s.phase = .ended then nextDepth c s else s := by
  unfold step
  cases s.phase with
  | testing => rfl
  | popping whileFlag => rfl
  | ended => rfl

theorem depth_parentArray (hdepth : (step c .depth s).iterPeriod ≠ s.iterPeriod) :
    (step c .depth s).parentArray = s.parentArrayCopy := by
  rw [step_depth] at hdepth ⊢
  split at hdepth
  · next hended =>
    rw [if_pos hended]
    unfold nextDepth at hdepth ⊢
    split
    · rfl
    · next hselected =>
      rw [if_neg hselected] at hdepth
      split
      · next hnone =>
        rw [if_pos hnone] at hdepth
        exact absurd rfl hdepth
      · rfl
  · exact absurd rfl hdepth

end Baseline

/-- While every test and every popped entry finds the baseline in `parentArray`, every depth
starts with it. -/
theorem baseline_restored (c : Setup) {es : List Event}
    (h : Meets (step c) (OnBaseline c) es (start c))
    (hdepth : (step c .depth (run (step c) es (start c))).iterPeriod ≠
      (run (step c) es (start c)).iterPeriod) :
    (step c .depth (run (step c) es (start c))).parentArray = c.parentArray := by
  rw [depth_parentArray hdepth]
  exact @run_of_inv _ _ (step c) _ (fun s => s.parentArrayCopy = c.parentArray)
    (fun e s => parentArrayCopy_step e s) _ _ rfl h

/-! Two threads with a key point each. With two periods the test of `[[1], [0]]` shows a second key
point of the second thread. With three there is no schedule, but stage 2 tests `[[1], [0], [1]]`. -/

def asDefault : Reading where
  A := 2
  B := 1
  kpNumArray := fun i => [1, 1].getD i 0
  kpLocArray := fun i => [5, 5].getD i 0

def asPopped : Reading where
  A := 2
  B := 2
  kpNumArray := fun i => [1, 2].getD i 0
  kpLocArray := fun i => [5, 0, 5, 5].getD i 0

def prefixSetup : Setup where
  varModeFlag := 0
  noPrefixRun := false
  zeroInKP := 0
  defaultCoverageHashID := calculateCoverageHashID asDefault.kpLocArray 2 asDefault.kpNumArray 2
  directInterNum := 0
  N := 2
  M := 1
  parentArray := fun i => [1, 1].getD i 0

def beforePrefix : List Event :=
  [.depth, .test ⟨[0, 1], [[0], [1]], [[0]], some asDefault, []⟩,
    .test ⟨[1, 0], [[1], [0]], [[1]], some asPopped, [asPopped]⟩, .finish]

def prefixTrial (first : Option Reading) : Trial := ⟨[1, 0, 1], [[1, 0], [0, 2]], [[1]], first, []⟩

/-- And the one test with three, which pops the prefix and finds no further one. -/
def throughStage2 (first : Option Reading) : List Event :=
  beforePrefix ++ [.depth, .finish, .pop true, .test (prefixTrial first), .finish, .pop false]

theorem baseline_restored_first :
    (step prefixSetup .depth (run (step prefixSetup) (throughStage2 none) (start prefixSetup))).parentArray =
      prefixSetup.parentArray :=
  baseline_restored prefixSetup ⟨trivial, fun _ => rfl, fun _ => rfl, trivial, trivial, trivial, fun _ => rfl,
    fun h => absurd h Bool.noConfusion, trivial, fun h => absurd h (by decide), trivial⟩ (by decide)

/-- The depth with four periods starts with the counts of the prefix. -/
theorem baseline_lost :
    let s := run (step prefixSetup) (throughStage2 (some asPopped)) (start prefixSetup)
    s.phase = .ended ∧ s.stage = .stage1 ∧ s.iterPeriod = 3 ∧ (step prefixSetup .depth s).iterPeriod = 4 ∧
      prefixSetup.parentArray 1 = 1 ∧ (step prefixSetup .depth s).parentArray 1 = 2 := by
  refine ⟨?_, ?_, ?_, ?_, ?_, ?_⟩
  · decide
  · decide
  · decide
  · decide
  · decide
  · decide

end Period.Driver
