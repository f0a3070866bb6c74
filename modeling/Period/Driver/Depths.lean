import Period.Driver.Testing

/-!
# The first stage of every depth

Whatever the tests find, the tests of stage 1 at a depth are the schedules that the scheduler of
the depth goes through, in their order. Only the limit of runs cuts them off.
-/

namespace Period.Driver

open Runs Enumeration
open Period.Scheduler
set_option autoImplicit false

section Control
variable {c : Setup}

theorem step_depth_all (hmode : c.varModeFlag = 0) {s : Session} (hphase : s.phase = .ended) :
    step c .depth s = nextDepth.enter s s.directInterLeft := by
  unfold step
  rw [hphase]
  exact if_pos (Or.inl hmode)

theorem conclude_control (t : Trial) (r : Reading) (s : Session) :
    (conclude c t r s).iterPeriod = s.iterPeriod ∧ (conclude c t r s).stage = s.stage ∧
      (conclude c t r s).phase = s.phase := by
  unfold conclude
  dsimp only
  split
  · exact ⟨rfl, rfl, rfl⟩
  · split
    · exact ⟨rfl, rfl, rfl⟩
    · exact ⟨rfl, rfl, rfl⟩

theorem settle_control (t : Trial) (s : Session) :
    (settle c t s).1.iterPeriod = s.iterPeriod ∧ (settle c t s).1.stage = s.stage ∧
      (settle c t s).1.phase = s.phase := by
  unfold settle
  split
  · exact ⟨rfl, rfl, rfl⟩
  · split
    · exact ⟨rfl, rfl, rfl⟩
    · exact ⟨rfl, rfl, rfl⟩

theorem step_test_control (t : Trial) {s : Session} (hphase : s.phase = .testing) :
    (step c (.test t) s).iterPeriod = s.iterPeriod ∧ (step c (.test t) s).stage = s.stage ∧
      (step c (.test t) s).phase = .testing := by
  have hstep : step c (.test t) s = runTest c t s := by
    unfold step
    rw [hphase]
  obtain ⟨hperiod, hstage, hphase'⟩ := settle_control (c := c) t s
  rw [hstep, runTest]
  rcases hs : settle c t s with ⟨s', _ | r⟩
  · rw [hs] at hperiod hstage hphase'
    exact ⟨hperiod, hstage, hphase'.trans hphase⟩
  · rw [hs] at hperiod hstage hphase'
    obtain ⟨hperiod'', hstage'', hphase''⟩ := conclude_control (c := c) t r s'
    exact ⟨hperiod''.trans hperiod, hstage''.trans hstage, hphase''.trans (hphase'.trans hphase)⟩

def HasStage2 (c : Setup) (s : Session) : Prop := s.iterPeriod ≠ 2 ∧ c.noPrefixRun = false

theorem endStage2_control (s : Session) :
    (endStage2 c s).iterPeriod = s.iterPeriod ∧
      (¬ HasStage2 c s ∧ (endStage2 c s).stage = .stage1 ∧ (endStage2 c s).phase = .ended ∨
        HasStage2 c s ∧ (endStage2 c s).stage = s.stage ∧ (endStage2 c s).phase = .popping false) := by
  unfold endStage2
  split
  · next h =>
    refine ⟨rfl, Or.inl ⟨fun hhas => ?_, rfl, rfl⟩⟩
    rcases h with h | h
    · exact hhas.1 h
    · exact absurd h (Bool.eq_false_iff.mp hhas.2)
  · next h =>
    rw [not_or, Bool.not_eq_true] at h
    exact ⟨rfl, Or.inr ⟨h, rfl, rfl⟩⟩

theorem step_finish_control (hmode : c.varModeFlag = 0) {s : Session} (hphase : s.phase = .testing) :
    (step c .finish s).iterPeriod = s.iterPeriod ∧
      (¬ HasStage2 c s ∧ (step c .finish s).stage = .stage1 ∧ (step c .finish s).phase = .ended ∨
        HasStage2 c s ∧ (step c .finish s).stage = .stage2 ∧
          (step c .finish s).phase = .popping false) := by
  have hstep : step c .finish s = endScheduler c s := by
    unfold step
    rw [hphase]
  rw [hstep, endScheduler]
  cases hstage : s.stage with
  | stage1 =>
    simp only [hmode, true_or, if_true]
    exact endStage2_control _
  | stage2 =>
    have hout := endStage2_control (c := c) s
    rwa [hstage] at hout

theorem step_pop_control (built : Bool) {s : Session} {whileFlag : Bool}
    (hphase : s.phase = .popping whileFlag) :
    (step c (.pop built) s).iterPeriod = s.iterPeriod ∧
      ((step c (.pop built) s).stage = s.stage ∧ (step c (.pop built) s).phase ≠ .ended ∨
        (s.heap s.waited).popFirst = none ∧ whileFlag = false ∧
          (step c (.pop built) s).stage = .stage1 ∧ (step c (.pop built) s).phase = .ended) := by
  have hstep : step c (.pop built) s = popItem built whileFlag s := by
    unfold step
    rw [hphase]
  have hout := popItem_outcome built whileFlag s
  rw [hstep]
  generalize popItem built whileFlag s = s' at hout
  cases hout with
  | again _ _ => exact ⟨rfl, Or.inl ⟨rfl, nofun⟩⟩
  | ends hempty hwhile => exact ⟨rfl, Or.inr ⟨hempty, hwhile, rfl, rfl⟩⟩
  | pops _ _ _ _ =>
    refine ⟨rfl, Or.inl ⟨rfl, ?_⟩⟩
    cases built <;> nofun

end Control

/-! ## The schedules of a depth -/

namespace Options
variable (o : Options) (fuel : Nat)

/-- The states of `for inter in SBPMESched(n, kps, p)`, which ends; there are none if the constructor
raises. -/
def Visits (p : Nat) (out : List SBPMESched) : Prop :=
  match SBPMESched.init fuel o.threadNum o.mList p [] false with
  | .ok scheduler => ∃ k, exhaust (SBPMESched.nextIter fuel) .stopIteration k scheduler = some out
  | .error e => e ≠ .outOfFuel ∧ out = []

theorem exists_visits (p : Nat) : ∃ F, ∀ fuel, F ≤ fuel → ∃ out, o.Visits fuel p out := by
  have hsingle : ∀ period ∈ ([] : Schedule), SingleThread period := nofun
  cases hbase : Sched.initHelper o.threadNum o.mList p [] with
  | error e =>
    refine ⟨0, fun fuel _ => ⟨[], ?_⟩⟩
    have hinit : SBPMESched.init fuel o.threadNum o.mList p [] false = .error e := by
      unfold SBPMESched.init
      rw [hbase]
      rfl
    rw [Visits, hinit]
    exact ⟨padKps_error (Sched.initHelper_error hbase), rfl⟩
  | ok base =>
    obtain ⟨F, hF⟩ := base.frame.exists_enough
    refine ⟨F, fun fuel hle => ?_⟩
    have hfuel := hF fuel hle
    unfold Visits
    cases hinit : SBPMESched.init fuel o.threadNum o.mList p [] false with
    | error e =>
      refine ⟨[], fun h => ?_, rfl⟩
      exact SBPMESched.init_ends hbase hsingle rfl hfuel (hinit.trans (congrArg _ h))
    | ok scheduler =>
      obtain ⟨_, out, hout, _⟩ := SBPMESched.exhausts_frame hbase hsingle rfl hinit (Nat.le_refl fuel)
        hfuel (Nat.le_refl _)
      exact ⟨out, _, hout⟩

theorem exists_fuel : ∃ F, ∀ fuel, F ≤ fuel → ∃ out : Nat → List SBPMESched,
    ∀ p, p ≤ o.bugDepth + 1 → o.Visits fuel p (out p) := by
  choose F hF using o.exists_visits
  refine ⟨(Finset.range (o.bugDepth + 2)).sup F, fun fuel hle => ?_⟩
  have hall : ∀ p, ∃ out, p ≤ o.bugDepth + 1 → o.Visits fuel p out := by
    intro p
    by_cases hp : p ≤ o.bugDepth + 1
    · have hmem : p ∈ Finset.range (o.bugDepth + 2) := Finset.mem_range.mpr (Nat.lt_succ_of_le hp)
      obtain ⟨out, hout⟩ := hF p fuel (Nat.le_trans (Finset.le_sup hmem) hle)
      exact ⟨out, fun _ => hout⟩
    · exact ⟨[], fun h => absurd h hp⟩
  choose out hout using hall
  exact ⟨out, hout⟩

end Options

namespace Testing

/-- The schedulers as they were at the tests of stage 1 with `p` periods. -/
def stage1 (p : Nat) (s : Testing) : List SBPMESched :=
  (s.log.filter fun t => t.stage = .stage1 ∧ t.iterPeriod = p).map Test.scheduler

def Over (p : Nat) (s : Testing) : Prop :=
  p < s.session.iterPeriod ∨
    p = s.session.iterPeriod ∧ ¬ (s.session.phase = .testing ∧ s.session.stage = .stage1)

section Stage1
variable {o : Options} {fuel : Nat} {out : Nat → List SBPMESched}

structure Exact (o : Options) (out : List SBPMESched) (p : Nat) (s : Testing) : Prop where
  isPrefix : s.stage1 p <+: out
  complete : s.reachRunsLimit = false → o.skips p = false → s.stage1 p = out
  skipped : o.skips p = true → s.stage1 p = []

/-- The scheduler of a depth has gone through the schedules that were tested. -/
structure Running (o : Options) (fuel : Nat) (out : List SBPMESched) (p : Nat) (s : Testing) : Prop where
  unlimited : s.reachRunsLimit = false
  scheduler : match s.scheduler with
    | none => s.stage1 p = [] ∧ out = []
    | some it => ∃ rest, out = s.stage1 p ++ rest ∧ it.Gives fuel rest
  skipped : o.skips p = true → s.stage1 p = []

structure Along (o : Options) (fuel : Nat) (out : Nat → List SBPMESched) (s : Testing) : Prop where
  pos : 1 ≤ s.session.iterPeriod
  le : s.session.iterPeriod ≤ o.bugDepth + 1
  ended : s.session.phase = .ended → s.session.stage = .stage1
  popping : ∀ whileFlag, s.session.phase = .popping whileFlag → s.session.stage = .stage2
  noPrefix : s.session.stage = .stage1 → s.schedPrefix = []
  hasStage2 : s.session.stage = .stage2 → HasStage2 o.setup s.session
  later : ∀ p, s.session.iterPeriod < p → s.stage1 p = []
  exact : ∀ p, 2 ≤ p → s.Over p → Exact o (out p) p s
  running : s.session.phase = .testing → s.session.stage = .stage1 →
    2 ≤ s.session.iterPeriod ∧ Running o fuel (out s.session.iterPeriod) s.session.iterPeriod s

theorem along_start : Along o fuel out (start o) := by
  refine ⟨Nat.le_refl 1, by simp [start, Driver.start], fun _ => rfl, nofun, fun _ => rfl, nofun,
    fun _ _ => rfl, fun p hp hover => ?_, nofun⟩
  have hperiod : (start o).session.iterPeriod = 1 := rfl
  rcases hover with hlt | ⟨heq, _⟩ <;> omega

/-! ### One step -/

theorem mem_stage1 {s : Testing} {p : Nat} {x : SBPMESched} :
    x ∈ s.stage1 p ↔ ∃ t ∈ s.log, t.stage = .stage1 ∧ t.iterPeriod = p ∧ t.scheduler = x := by
  simp only [stage1, List.mem_map, List.mem_filter, decide_eq_true_eq, and_assoc]

theorem stage1_congr {s s' : Testing} (hlog : s'.log = s.log) (p : Nat) : s'.stage1 p = s.stage1 p := by
  rw [stage1, hlog, stage1]

theorem stage1_runTest (answer : Answer) (it : Iteration) (s : Testing) (p : Nat) :
    (s.runTest o answer it).stage1 p =
      s.stage1 p ++ if s.session.stage = .stage1 ∧ s.session.iterPeriod = p then [it.scheduler] else [] := by
  have hlog : (s.runTest o answer it).log = s.log ++ [s.testNow it] := rfl
  rw [stage1, hlog, List.filter_append, List.map_append]
  congr 1
  by_cases hp : s.session.stage = .stage1 ∧ s.session.iterPeriod = p
  · simp [testNow, hp]
  · simp [testNow, hp]

theorem Exact.congr {s s' : Testing} {l : List SBPMESched} {p : Nat} (h : Exact o l p s)
    (hlog : s'.log = s.log) (hlimit : s'.reachRunsLimit = false → s.reachRunsLimit = false) :
    Exact o l p s' := by
  have hsame := stage1_congr hlog p
  exact ⟨hsame ▸ h.isPrefix, fun hnot => hsame ▸ h.complete (hlimit hnot), fun hs => hsame ▸ h.skipped hs⟩

theorem over_of_not_running {s : Testing} (h : ¬ (s.session.phase = .testing ∧ s.session.stage = .stage1))
    {p : Nat} (hp : p ≤ s.session.iterPeriod) : s.Over p := by
  rcases Nat.lt_or_eq_of_le hp with hlt | heq
  · exact Or.inl hlt
  · exact Or.inr ⟨heq, h⟩

theorem Over.le {s : Testing} {p : Nat} (h : s.Over p) : p ≤ s.session.iterPeriod := by
  rcases h with hlt | ⟨heq, _⟩
  · exact Nat.le_of_lt hlt
  · exact Nat.le_of_eq heq

theorem Along.enters (hvisits : ∀ p, p ≤ o.bugDepth + 1 → o.Visits fuel p (out p)) {s : Testing}
    (h : Along o fuel out s) (hphase : s.session.phase = .ended) (hlimit : s.reachRunsLimit = false)
    (hdepth : s.session.iterPeriod < o.bugDepth + 1) {made : Except Halt SBPMESched}
    (hmade : SBPMESched.init fuel o.threadNum o.mList (s.session.iterPeriod + 1) [] false = made) :
    Along o fuel out { s.turn o .depth with
      scheduler := made.toOption.map fun scheduler => { scheduler, first := true } } := by
  have hsession : (s.turn o .depth).session = nextDepth.enter s.session s.session.directInterLeft :=
    step_depth_all rfl hphase
  have hstage := h.ended hphase
  have hempty : s.stage1 (s.session.iterPeriod + 1) = [] := h.later _ (Nat.lt_succ_self _)
  have hvisit := hvisits (s.session.iterPeriod + 1) hdepth
  refine ⟨?_, ?_, fun hp => ?_, fun whileFlag hp => ?_, fun _ => h.noPrefix hstage, fun hs => ?_,
    fun p hp => ?_, fun p hp hover => ?_, fun _ _ => ?_⟩
  · rw [hsession]
    exact Nat.le_add_left 1 _
  · rw [hsession]
    exact hdepth
  · rw [hsession] at hp
    cases hp
  · rw [hsession] at hp
    cases hp
  · rw [hsession] at hs
    exact absurd (hstage.symm.trans hs) nofun
  · rw [hsession] at hp
    exact h.later p (Nat.lt_of_succ_lt hp)
  · have hle : p ≤ s.session.iterPeriod := by
      rw [Over, hsession] at hover
      rcases hover with hlt | ⟨_, hnot⟩
      · exact Nat.le_of_lt_succ hlt
      · exact absurd ⟨rfl, hstage⟩ hnot
    have hold : s.Over p := over_of_not_running (fun hr => by rw [hphase] at hr; cases hr.1) hle
    exact (h.exact p hp hold).congr rfl fun hnot => hnot
  · rw [hsession]
    refine ⟨Nat.succ_le_succ h.pos, hlimit, ?_, fun _ => hempty⟩
    rw [Options.Visits, hmade] at hvisit
    cases made with
    | error e => exact ⟨hempty, hvisit.2⟩
    | ok scheduler =>
      obtain ⟨k, hk⟩ := hvisit
      refine ⟨_, ?_, gives_from_start hk⟩
      exact (congrArg (· ++ out (s.session.iterPeriod + 1)) hempty).symm

theorem Along.finishes {s t : Testing} (h : Along o fuel out s) (hphase : s.session.phase = .testing)
    (hsession : t.session = s.session) (hlog : t.log = s.log) (hpopped : t.schedPrefix = s.schedPrefix)
    (hlimit : t.reachRunsLimit = false → s.reachRunsLimit = false)
    (hexact : s.session.stage = .stage1 → Exact o (out s.session.iterPeriod) s.session.iterPeriod t) :
    Along o fuel out (t.finish o) := by
  have hfin : (t.finish o).session = Driver.step o.setup .finish s.session := by
    rw [finish, turn, hsession]
  obtain ⟨hperiod, hcontrol⟩ := @step_finish_control o.setup rfl s.session hphase
  have hnot : ¬ ((t.finish o).session.phase = .testing ∧ (t.finish o).session.stage = .stage1) := by
    rintro ⟨hp, _⟩
    rw [hfin] at hp
    rcases hcontrol with ⟨_, _, hended⟩ | ⟨_, _, hpop⟩
    · rw [hended] at hp
      cases hp
    · rw [hpop] at hp
      cases hp
  refine ⟨?_, ?_, fun hp => ?_, fun whileFlag hp => ?_, fun hs => ?_, fun hs => ?_, fun p hp => ?_,
    fun p hp hover => ?_, fun hp hs => absurd ⟨hp, hs⟩ hnot⟩
  · rw [hfin, hperiod]
    exact h.pos
  · rw [hfin, hperiod]
    exact h.le
  · rw [hfin] at hp ⊢
    rcases hcontrol with ⟨_, hstage, _⟩ | ⟨_, _, hpop⟩
    · exact hstage
    · rw [hpop] at hp
      cases hp
  · rw [hfin] at hp ⊢
    rcases hcontrol with ⟨_, _, hended⟩ | ⟨_, hstage, _⟩
    · rw [hended] at hp
      cases hp
    · exact hstage
  · rw [hfin] at hs
    have hpre : (t.finish o).schedPrefix = s.schedPrefix := hpopped
    rw [hpre]
    rcases hcontrol with ⟨hno, _, _⟩ | ⟨_, hstage, _⟩
    · cases hold : s.session.stage with
      | stage1 => exact h.noPrefix hold
      | stage2 => exact absurd (h.hasStage2 hold) hno
    · rw [hstage] at hs
      cases hs
  · rw [hfin] at hs ⊢
    rcases hcontrol with ⟨_, hstage, _⟩ | ⟨hhas, _, _⟩
    · rw [hstage] at hs
      cases hs
    · exact ⟨hperiod ▸ hhas.1, hhas.2⟩
  · rw [hfin, hperiod] at hp
    exact (stage1_congr hlog p).trans (h.later p hp)
  · have hle := hover.le
    rw [hfin, hperiod] at hle
    by_cases hrunning : p = s.session.iterPeriod ∧ s.session.stage = .stage1
    · rw [hrunning.1]
      exact (hexact hrunning.2).congr rfl fun hnot => hnot
    · have hold : s.Over p := by
        rcases Nat.lt_or_eq_of_le hle with hlt | heq
        · exact Or.inl hlt
        · exact Or.inr ⟨heq, fun hr => hrunning ⟨heq, hr.2⟩⟩
      exact (h.exact p hp hold).congr hlog hlimit

theorem exact_of_ends {s : Testing} {l : List SBPMESched} {p : Nat} (h : Running o fuel l p s)
    (hp : p = s.session.iterPeriod) (hends : LoopEnds o fuel s s.scheduler) : Exact o l p s := by
  have hrest := h.scheduler
  cases hends' : s.scheduler with
  | none =>
    rw [hends'] at hrest
    have hall : s.stage1 p = l := hrest.1.trans hrest.2.symm
    exact ⟨hall ▸ List.prefix_refl _, fun _ _ => hall, h.skipped⟩
  | some it =>
    rw [hends'] at hrest hends
    obtain ⟨rest, hl, hgives⟩ := hrest
    cases hends with
    | stops _ hnext =>
      cases rest with
      | nil =>
        have hall : s.stage1 p = l := by rw [hl, List.append_nil]
        exact ⟨hall ▸ List.prefix_refl _, fun _ _ => hall, h.skipped⟩
      | cons x rest =>
        rw [hgives.1] at hnext
        cases hnext
    | skipped _ _ hskips =>
      refine ⟨⟨rest, hl.symm⟩, fun _ hno => ?_, h.skipped⟩
      rw [hp, hskips] at hno
      cases hno

theorem Along.tests {answer : Answer} {s : Testing} {it it' : Iteration} (h : Along o fuel out s)
    (hphase : s.session.phase = .testing) (hit : s.scheduler = some it) (hnext : it.next fuel = .ok it')
    (hskips : s.session.stage = .stage1 → o.skips s.session.iterPeriod = false) :
    Along o fuel out (s.runTest o answer it') := by
  obtain ⟨hperiod, hstage, hphase'⟩ :=
    @step_test_control o.setup (trialOf answer (s.testNow it')) s.session hphase
  have hsession : (s.runTest o answer it').session =
      Driver.step o.setup (.test (trialOf answer (s.testNow it'))) s.session := rfl
  have hother : ∀ p, ¬ (s.session.stage = .stage1 ∧ s.session.iterPeriod = p) →
      (s.runTest o answer it').stage1 p = s.stage1 p := by
    intro p hp
    rw [stage1_runTest, if_neg hp, List.append_nil]
  refine ⟨?_, ?_, fun hp => ?_, fun whileFlag hp => ?_, fun hs => ?_, fun hs => ?_, fun p hp => ?_,
    fun p hp hover => ?_, fun _ hs => ?_⟩
  · rw [hsession, hperiod]
    exact h.pos
  · rw [hsession, hperiod]
    exact h.le
  · rw [hsession, hphase'] at hp
    cases hp
  · rw [hsession, hphase'] at hp
    cases hp
  · rw [hsession, hstage] at hs
    exact h.noPrefix hs
  · rw [hsession, hstage] at hs
    have hhas := h.hasStage2 hs
    exact ⟨fun htwo => hhas.1 (hperiod.symm.trans htwo), hhas.2⟩
  · rw [hsession, hperiod] at hp
    rw [hother p fun heq => by omega]
    exact h.later p hp
  · have hold : s.Over p := by
      rw [Over, hsession, hperiod, hphase', hstage] at hover
      rw [Over, hphase]
      exact hover
    have hsame := hother p fun heq => by
      rcases hold with hlt | ⟨_, hnot⟩
      · omega
      · exact hnot ⟨hphase, heq.1⟩
    have hexact := h.exact p hp hold
    exact ⟨hsame ▸ hexact.isPrefix, fun hl hno => hsame ▸ hexact.complete hl hno,
      fun hs => hsame ▸ hexact.skipped hs⟩
  · rw [hsession, hstage] at hs
    obtain ⟨htwo, hrun⟩ := h.running hphase hs
    rw [hsession, hperiod]
    have hmore : (s.runTest o answer it').stage1 s.session.iterPeriod =
        s.stage1 s.session.iterPeriod ++ [it'.scheduler] := by
      rw [stage1_runTest, if_pos ⟨hs, rfl⟩]
    have hrest := hrun.scheduler
    rw [hit] at hrest
    obtain ⟨rest, hl, hgives⟩ := hrest
    refine ⟨htwo, hrun.unlimited, ?_, fun hyes => ?_⟩
    · cases rest with
      | nil =>
        rw [Iteration.Gives, hnext] at hgives
        cases hgives
      | cons x rest =>
        have hx := hgives.1.symm.trans hnext
        cases hx
        refine ⟨rest, ?_, hgives.2⟩
        rw [hmore, hl, List.append_assoc]
        rfl
    · rw [hskips hs] at hyes
      cases hyes

theorem Along.pops {s : Testing} (h : Along o fuel out s) {whileFlag : Bool} (built : Bool)
    (hphase : s.session.phase = .popping whileFlag) {schedPrefix : Schedule}
    {scheduler : Option Iteration}
    (hempty : (s.session.heap s.session.waited).popFirst = none → whileFlag = false →
      schedPrefix = []) :
    Along o fuel out { s.turn o (.pop built) with schedPrefix, scheduler } := by
  obtain ⟨hperiod, hcontrol⟩ := @step_pop_control o.setup built s.session whileFlag hphase
  have hstage := h.popping whileFlag hphase
  rw [hstage] at hcontrol
  have hold : ∀ p, p ≤ s.session.iterPeriod → s.Over p := fun p hp =>
    over_of_not_running (fun hr => by rw [hphase] at hr; cases hr.1) hp
  refine ⟨hperiod ▸ h.pos, hperiod ▸ h.le, fun hp => ?_, fun flag hp => ?_, fun hs => ?_,
    fun hs => ?_, fun p hp => ?_, fun p hp hover => ?_, fun hp hs => ?_⟩
  · rcases hcontrol with ⟨_, hne⟩ | ⟨_, _, hstage', _⟩
    · exact absurd hp hne
    · exact hstage'
  · rcases hcontrol with ⟨hstage', _⟩ | ⟨_, _, _, hended⟩
    · exact hstage'
    · exact absurd (hended.symm.trans hp) nofun
  · rcases hcontrol with ⟨hstage', _⟩ | ⟨hnone, hflag, _, _⟩
    · exact absurd (hstage'.symm.trans hs) nofun
    · exact hempty hnone hflag
  · have hhas := h.hasStage2 hstage
    exact ⟨fun htwo => hhas.1 (hperiod.symm.trans htwo), hhas.2⟩
  · exact h.later p (hperiod ▸ hp)
  · exact (h.exact p hp (hold p (hperiod ▸ hover.le))).congr rfl fun hnot => hnot
  · rcases hcontrol with ⟨hstage', _⟩ | ⟨_, _, _, hended⟩
    · exact absurd (hstage'.symm.trans hs) nofun
    · exact absurd (hended.symm.trans hp) nofun

theorem along_step (hvisits : ∀ p, p ≤ o.bugDepth + 1 → o.Visits fuel p (out p)) (answer : Answer)
    {s : Testing} (h : Along o fuel out s) : Along o fuel out (s.step o fuel answer) := by
  have hout := step_outcome o fuel answer s
  generalize s.step o fuel answer = s' at hout
  cases hout with
  | idle _ => exact h
  | raises e _ _ _ =>
    exact ⟨h.pos, h.le, h.ended, h.popping, h.noPrefix, h.hasStage2, h.later, fun p hp hover =>
      (h.exact p hp hover).congr rfl fun hnot => hnot, fun hp hs => ⟨(h.running hp hs).1,
      (h.running hp hs).2.unlimited, (h.running hp hs).2.scheduler, (h.running hp hs).2.skipped⟩⟩
  | enters hphase hlimit hdepth made hmade _ => exact h.enters hvisits hphase hlimit hdepth hmade
  | finishes hphase hends =>
    refine h.finishes hphase rfl rfl rfl (fun hnot => hnot) fun hs => ?_
    exact exact_of_ends (h.running hphase hs).2 rfl hends
  | limits hphase it it' hit hnext _ =>
    refine h.finishes hphase rfl rfl rfl nofun fun hs => ?_
    obtain ⟨_, hrun⟩ := h.running hphase hs
    have hrest := hrun.scheduler
    rw [hit] at hrest
    obtain ⟨rest, hl, _⟩ := hrest
    exact ⟨⟨rest, hl.symm⟩, nofun, hrun.skipped⟩
  | passes hphase it it' _ _ hpopped =>
    refine ⟨h.pos, h.le, h.ended, h.popping, h.noPrefix, h.hasStage2, h.later, fun p hp hover =>
      (h.exact p hp hover).congr rfl fun hnot => hnot, fun _ hs => absurd (h.noPrefix hs) hpopped⟩
  | tests hphase it it' hit hnext hskips => exact h.tests hphase hit hnext hskips
  | pops whileFlag built hphase _ _ hempty => exact h.pops built hphase hempty

end Stage1

/-- In every run of the loop the tests of stage 1 with `p` periods are the schedules of
`SBPMESched(n, kps, p)` from the first one on, and all of them when the stage is over, unless the
limit of runs was reached or the bug is deep. -/
theorem stage1_exact (o : Options) : ∃ F, ∀ fuel, F ≤ fuel → ∃ out : Nat → List SBPMESched,
    (∀ p, p ≤ o.bugDepth + 1 → o.Visits fuel p (out p)) ∧
    ∀ answers : List Answer, ∀ p, 2 ≤ p → p ≤ o.bugDepth + 1 →
      (run (step o fuel) answers (start o)).stage1 p <+: out p ∧
      ((run (step o fuel) answers (start o)).Over p →
        (run (step o fuel) answers (start o)).reachRunsLimit = false → o.skips p = false →
        (run (step o fuel) answers (start o)).stage1 p = out p) ∧
      (o.skips p = true → (run (step o fuel) answers (start o)).stage1 p = []) := by
  obtain ⟨F, hF⟩ := o.exists_fuel
  refine ⟨F, fun fuel hfuel => ?_⟩
  obtain ⟨out, hvisits⟩ := hF fuel hfuel
  refine ⟨out, hvisits, fun answers p htwo _ => ?_⟩
  have h : Along o fuel out (run (step o fuel) answers (start o)) :=
    run_of_inv (fun answer s hs _ => along_step hvisits answer hs) along_start
      (meets_true answers (start o))
  generalize run (step o fuel) answers (start o) = s at h
  by_cases hover : s.Over p
  · have hexact := h.exact p htwo hover
    exact ⟨hexact.isPrefix, fun _ => hexact.complete, hexact.skipped⟩
  · rcases Nat.lt_trichotomy s.session.iterPeriod p with hlt | rfl | hgt
    · rw [h.later p hlt]
      exact ⟨List.nil_prefix, fun h => absurd h hover, fun _ => rfl⟩
    · have hnow : s.session.phase = .testing ∧ s.session.stage = .stage1 := by
        by_contra hnot
        exact hover (Or.inr ⟨rfl, hnot⟩)
      obtain ⟨_, hrun⟩ := h.running hnow.1 hnow.2
      refine ⟨?_, fun h => absurd h hover, hrun.skipped⟩
      have hrest := hrun.scheduler
      cases hit : s.scheduler with
      | none =>
        rw [hit] at hrest
        rw [hrest.1]
        exact List.nil_prefix
      | some it =>
        rw [hit] at hrest
        obtain ⟨rest, hl, _⟩ := hrest
        exact ⟨rest, hl.symm⟩
    · exact absurd (Or.inl hgt) hover

end Testing

end Period.Driver
