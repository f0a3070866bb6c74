import Period.Driver.Depths
import Period.Driver.Enforced

/-!
# What the whole loop guarantees

The target may be scheduled as it likes, but no run of it has more threads or key points than the
default run. Then the loop ends after the first stage of its last depth, and what it has tested
is known beforehand.
-/

namespace Period.Driver

open Runs Enumeration
open Period.Runtime Period.Scheduler
set_option autoImplicit false

namespace Options
variable {o : Options}

theorem length_mList : o.mList.length = o.threadNum := by rw [mList, List.length_map, List.length_range]

theorem padKps_mList : padKps (max o.threadNum o.mList.length) o.mList = .ok o.mList := by
  rw [padKps, length_mList, Nat.max_self, if_neg (Nat.lt_irrefl _)]

/-- The loop goes through what `for inter in SBPMESched(n, kps, p)` yields. -/
theorem yields_iff {fuel p : Nat} {out : List SBPMESched} (hp : 0 < p) (hvisits : o.Visits fuel p out)
    (sched : Schedule) :
    SBPMESched.Yields o.threadNum o.mList p sched ↔ sched ∈ out.map (·.sched) := by
  have hmore := fun {fuel fuel' k : Nat} {s : SBPMESched} {out : List SBPMESched}
      (hle : max fuel k ≤ fuel')
      (h : exhaust (SBPMESched.nextIter fuel) .stopIteration k s = some out) =>
    exhaust_mono (Nat.le_trans (Nat.le_max_right fuel k) hle) (exhaust_of_agrees
      (fun s r h => SBPMESched.nextIter_mono (Nat.le_trans (Nat.le_max_left fuel k) hle) (by simp) h)
      (fun s h => SBPMESched.nextIter_mono (Nat.le_trans (Nat.le_max_left fuel k) hle) (by simp) h) h)
  cases hinit : SBPMESched.init fuel o.threadNum o.mList p [] false with
  | error e =>
    rw [Visits, hinit] at hvisits
    obtain ⟨hfuel, rfl⟩ := hvisits
    refine ⟨fun h => ?_, fun h => absurd h List.not_mem_nil⟩
    obtain ⟨fuel', s, out, hinit', _, _⟩ := h
    rw [SBPMESched.init_nil hp padKps_mList] at hinit
    have hok := SBPMESched.init_mono hp padKps_mList (Nat.le_max_right fuel fuel') hinit'
    rw [SBPMESched.init_nil hp padKps_mList] at hok
    cases hloop : initLoop (max o.threadNum o.mList.length) p o.mList none fuel [] with
    | ok v =>
      rw [hloop] at hinit
      cases hinit
    | error e' =>
      rw [hloop] at hinit
      cases hinit
      rw [initLoop_mono (Nat.le_max_left fuel fuel') (fun h => hfuel (by cases h; rfl)) hloop] at hok
      cases hok
  | ok s =>
    rw [Visits, hinit] at hvisits
    obtain ⟨k, hout⟩ := hvisits
    constructor
    · intro h
      obtain ⟨fuel', s', out', hinit', hout', hmem⟩ := h
      have hle : max fuel k ≤ max (max fuel k) fuel' := Nat.le_max_left _ _
      have hle' : max fuel' fuel' ≤ max (max fuel k) fuel' := by omega
      have hsame := SBPMESched.init_mono hp padKps_mList
        (Nat.le_trans (Nat.le_max_left fuel k) hle) hinit
      rw [SBPMESched.init_mono hp padKps_mList (Nat.le_max_right _ fuel') hinit'] at hsame
      cases hsame
      have hequal := hmore hle hout
      rw [hmore hle' hout'] at hequal
      cases hequal
      exact hmem
    · intro hmem
      exact ⟨max fuel k, s, out, SBPMESched.init_mono hp padKps_mList (Nat.le_max_left _ _) hinit,
        hmore (Nat.le_refl _) hout, hmem⟩

/-- The states of the loop are those of a scheduler without a given prefix. -/
theorem produced_of_visits {fuel p : Nat} {out : List SBPMESched} (hvisits : o.Visits fuel p out)
    {s : SBPMESched} (hs : s ∈ out) : s.n = o.threadNum ∧ s.kps = o.mList := by
  rw [Visits] at hvisits
  cases hinit : SBPMESched.init fuel o.threadNum o.mList p [] false with
  | error e =>
    rw [hinit] at hvisits
    rw [hvisits.2] at hs
    exact absurd hs List.not_mem_nil
  | ok start =>
    rw [hinit] at hvisits
    obtain ⟨k, hout⟩ := hvisits
    obtain ⟨kps', hpad, hsound⟩ :=
      SBPMESched.Produced.sound ⟨fuel, start, hinit, (mem_exhaust_iff hout s).mp hs⟩
    rw [padKps_mList] at hpad
    cases hpad
    refine ⟨hsound.n_eq.trans ?_, hsound.kps_eq⟩
    rw [length_mList, Nat.max_self]

end Options

/-! ## Quiet sessions -/

/-- The run had no more threads, and no more key points of a thread, than the default run. -/
def Options.Calm (o : Options) (answer : Answer) : Prop :=
  ∀ r, answer.first = some r → r.A ≤ o.N ∧ r.B ≤ o.M ∧
    ∀ i, i < o.threadNum → r.kpNumArray i ≤ o.parentArray i

/-- Nothing was found that would be worth a second stage. -/
structure QuietSession (o : Options) (s : Session) : Prop where
  N : s.N = o.N
  M : s.M = o.M
  parentArray : s.parentArray = o.parentArray
  parentArrayCopy : s.parentArrayCopy = o.parentArray
  heap : ∀ ref, (s.heap ref).popFirst = none

section Quiet
variable {o : Options} {s : Session}

theorem retest_fits {N M : Nat} {r : Reading} (hA : r.A ≤ N) (hB : r.B ≤ M) (rs : List Reading) :
    retest N M r rs = (N, M, some r) := by
  have hfits : ¬ (r.A > N ∨ r.B > M) := by omega
  cases rs with
  | nil => exact if_neg hfits
  | cons r' rs => exact if_neg hfits

theorem newCoverage_calm (h : QuietSession o s) {r : Reading}
    (hle : ∀ i, i < o.threadNum → r.kpNumArray i ≤ o.parentArray i) : newCoverage o.setup r s = none := by
  have hold : (newMaxKpNumArray r.kpNumArray s.parentArray (s.N + o.setup.zeroInKP)).1 = false := by
    rw [newMaxKpNumArray, List.any_eq_false]
    intro i hi
    rw [List.mem_range, h.N] at hi
    have := hle i hi
    rw [h.parentArray, decide_eq_true_eq]
    omega
  unfold newCoverage
  dsimp only
  split
  · rfl
  · split
    · rfl
    · rw [hold]
      rfl

theorem step_test_calm (h : QuietSession o s) {t : Trial}
    (hcalm : ∀ r, t.first = some r → r.A ≤ o.N ∧ r.B ≤ o.M ∧
      ∀ i, i < o.threadNum → r.kpNumArray i ≤ o.parentArray i) (hphase : s.phase = .testing) :
    step o.setup (.test t) s = s := by
  have hstep : step o.setup (.test t) s = runTest o.setup t s := by
    unfold step
    rw [hphase]
  have hcopy : { s with parentArrayCopy := s.parentArray } = s := by
    have hsame := h.parentArray.trans h.parentArrayCopy.symm
    cases s
    simp only at hsame
    rw [hsame]
  rw [hstep, runTest, settle]
  cases hfirst : t.first with
  | none => rfl
  | some r =>
    obtain ⟨hA, hB, hle⟩ := hcalm r hfirst
    by_cases hmany : s.N + o.setup.zeroInKP > SHARE_THREAD_NUM
    · simp only [if_pos hmany]
    · simp only [if_neg hmany, retest_fits (h.N.symm ▸ hA) (h.M.symm ▸ hB), conclude, hcopy,
        newCoverage_calm h hle]

theorem QuietSession.depth (h : QuietSession o s) (left : Nat) :
    QuietSession o (nextDepth.enter s left) :=
  ⟨h.N, h.M, h.parentArrayCopy, h.parentArrayCopy, h.heap⟩

theorem QuietSession.endStage2 (h : QuietSession o s) : QuietSession o (endStage2 o.setup s) := by
  unfold Driver.endStage2
  split
  · exact ⟨h.N, h.M, h.parentArray, h.parentArrayCopy, h.heap⟩
  · exact ⟨h.N, h.M, h.parentArray, h.parentArrayCopy, h.heap⟩

theorem QuietSession.finish (h : QuietSession o s) (hphase : s.phase = .testing) :
    QuietSession o (step o.setup .finish s) := by
  have hstep : step o.setup .finish s = endScheduler o.setup s := by
    unfold step
    rw [hphase]
  rw [hstep]
  have hout := endScheduler_outcome o.setup s
  generalize endScheduler o.setup s = s' at hout
  cases hout with
  | copies _ _ =>
    apply QuietSession.endStage2
    refine ⟨h.N, h.M, h.parentArray, h.parentArrayCopy, fun ref => ?_⟩
    show (Function.update s.heap s.fresh (s.heap s.waited) ref).popFirst = none
    by_cases href : ref = s.fresh
    · rw [href, Function.update_self]
      exact h.heap s.waited
    · rw [Function.update_of_ne href]
      exact h.heap ref
  | goesOn _ hmode _ => exact absurd (Or.inl rfl) hmode
  | shares _ hmode _ => exact absurd (Or.inl rfl) hmode
  | stage2 _ => exact h.endStage2

theorem QuietSession.pop (h : QuietSession o s) (built : Bool) {whileFlag : Bool}
    (hphase : s.phase = .popping whileFlag) :
    QuietSession o (step o.setup (.pop built) s) ∧
      (step o.setup (.pop built) s).iterPeriod = s.iterPeriod ∧
      (step o.setup (.pop built) s).phase = if whileFlag then .popping false else .ended := by
  have hstep : step o.setup (.pop built) s = popItem built whileFlag s := by
    unfold step
    rw [hphase]
  have hout := popItem_outcome built whileFlag s
  rw [hstep]
  generalize popItem built whileFlag s = s' at hout
  cases hout with
  | again _ hwhile =>
    rw [if_pos hwhile]
    exact ⟨⟨h.N, h.M, h.parentArray, h.parentArrayCopy, h.heap⟩, rfl, rfl⟩
  | ends _ hwhile =>
    rw [hwhile]
    exact ⟨⟨h.N, h.M, h.parentArray, h.parentArrayCopy, h.heap⟩, rfl, rfl⟩
  | pops coverageHashID tempL rest hpop =>
    rw [h.heap s.waited] at hpop
    cases hpop

end Quiet

namespace Testing

section Calm
variable {o : Options} {fuel : Nat} {out : Nat → List SBPMESched}

structure Quiet (o : Options) (s : Testing) : Prop where
  session : QuietSession o s.session
  raised : s.raised = none
  unlimited : s.reachRunsLimit = false
  stage : s.session.phase = .testing → s.session.stage = .stage1
  log : ∀ t ∈ s.log, t.stage = .stage1 ∧ t.N = o.N ∧ t.M = o.M

def Done (o : Options) (s : Testing) : Prop :=
  s.session.phase = .ended ∧ o.bugDepth + 1 ≤ s.session.iterPeriod

def turnsLeft (o : Options) (out : Nat → List SBPMESched) (s : Testing) : Nat :=
  (match s.session.phase with
    | .ended => 0
    | .testing => (out s.session.iterPeriod).length - (s.stage1 s.session.iterPeriod).length + 3
    | .popping whileFlag => if whileFlag then 2 else 1) +
  ((List.range' (s.session.iterPeriod + 1) (o.bugDepth + 1 - s.session.iterPeriod)).map
    fun p => (out p).length + 4).sum

theorem quiet_start : Quiet o (start o) := ⟨⟨rfl, rfl, rfl, rfl, fun _ => rfl⟩, rfl, rfl, nofun, nofun⟩

theorem not_raises (hvisits : ∀ p, p ≤ o.bugDepth + 1 → o.Visits fuel p (out p)) {s : Testing}
    (h : Along o fuel out s) (hq : Quiet o s) {e : Halt}
    (hinit : s.session.phase = .ended → s.session.iterPeriod < o.bugDepth + 1 ∧
      SBPMESched.init fuel o.threadNum o.mList (s.session.iterPeriod + 1) [] false = .error .outOfFuel)
    (hnext : s.session.phase = .testing → ∃ it, s.scheduler = some it ∧
      it.next fuel = .error e ∧ e ≠ .stopIteration)
    (hpop : ∀ whileFlag, s.session.phase = .popping whileFlag →
      (s.session.heap s.session.waited).popFirst ≠ none) : False := by
  cases hphase : s.session.phase with
  | ended =>
    obtain ⟨hlt, herror⟩ := hinit hphase
    have hvisit := hvisits _ hlt
    rw [Options.Visits, herror] at hvisit
    exact hvisit.1 rfl
  | popping whileFlag => exact hpop whileFlag hphase (hq.session.heap _)
  | testing =>
    obtain ⟨it, hit, herror, hne⟩ := hnext hphase
    have hrest := (h.running hphase (hq.stage hphase)).2.scheduler
    rw [hit] at hrest
    obtain ⟨rest, _, hgives⟩ := hrest
    cases rest with
    | nil =>
      rw [Iteration.Gives, herror] at hgives
      exact hne (by cases hgives; rfl)
    | cons x rest =>
      rw [Iteration.Gives, herror] at hgives
      cases hgives.1

theorem quiet_step (hlimit : o.runsLimit = 0)
    (hvisits : ∀ p, p ≤ o.bugDepth + 1 → o.Visits fuel p (out p)) {answer : Answer}
    (hcalm : o.Calm answer) {s : Testing} (h : Along o fuel out s) (hq : Quiet o s) :
    Quiet o (s.step o fuel answer) ∧
      (Done o s ∨ turnsLeft o out (s.step o fuel answer) < turnsLeft o out s) := by
  have hout := step_outcome o fuel answer s
  generalize s.step o fuel answer = s' at hout
  cases hout with
  | idle hdone =>
    refine ⟨hq, Or.inl ?_⟩
    rcases hdone with hraised | ⟨hphase, hlimit | hdepth⟩
    · rw [hq.raised] at hraised
      cases hraised
    · rw [hq.unlimited] at hlimit
      cases hlimit
    · exact ⟨hphase, hdepth⟩
  | raises e hinit hnext hpop => exact absurd (not_raises hvisits h hq hinit hnext hpop) not_false
  | enters hphase _ hdepth made hmade _ =>
    have hsession : (s.turn o .depth).session = nextDepth.enter s.session s.session.directInterLeft :=
      step_depth_all rfl hphase
    refine ⟨⟨hsession ▸ hq.session.depth _, hq.raised, hq.unlimited, fun _ => ?_, hq.log⟩, Or.inr ?_⟩
    · rw [hsession]
      exact h.ended hphase
    · have hempty : s.stage1 (s.session.iterPeriod + 1) = [] := h.later _ (Nat.lt_succ_self _)
      have hrange : o.bugDepth + 1 - s.session.iterPeriod =
          o.bugDepth + 1 - (s.session.iterPeriod + 1) + 1 := by omega
      have hsame : stage1 (s.session.iterPeriod + 1) { s.turn o .depth with
          scheduler := made.toOption.map fun scheduler => { scheduler, first := true } } = [] := hempty
      rw [turnsLeft, turnsLeft, hphase, hsession, nextDepth.enter]
      dsimp only
      rw [hsame, hrange, List.range'_succ, List.map_cons, List.sum_cons, List.length_nil]
      omega
  | finishes hphase hends =>
    obtain ⟨hperiod, hcontrol⟩ := @step_finish_control o.setup rfl s.session hphase
    have hsession : (s.finish o).session = Driver.step o.setup .finish s.session := rfl
    refine ⟨⟨hq.session.finish hphase, hq.raised, hq.unlimited, fun hp => ?_, hq.log⟩, Or.inr ?_⟩
    · rw [hsession] at hp
      rcases hcontrol with ⟨_, _, hended⟩ | ⟨_, _, hpop⟩
      · exact absurd (hended.symm.trans hp) nofun
      · exact absurd (hpop.symm.trans hp) nofun
    · rw [turnsLeft, turnsLeft, hsession, hphase, hperiod]
      rcases hcontrol with ⟨_, _, hended⟩ | ⟨_, _, hpop⟩
      · simp only [hended]
        omega
      · simp only [hpop, Bool.false_eq_true, if_false]
        omega
  | limits hphase it it' hit hnext hno => exact absurd hlimit hno
  | passes hphase it it' _ _ hprefix => exact absurd (h.noPrefix (hq.stage hphase)) hprefix
  | tests hphase it it' hit hnext hskips =>
    have hstage := hq.stage hphase
    have hsession : (s.runTest o answer it').session = s.session := step_test_calm hq.session hcalm hphase
    have hlog : (s.runTest o answer it').log = s.log ++ [s.testNow it'] := rfl
    refine ⟨⟨hsession ▸ hq.session, hq.raised, hq.unlimited, fun _ => hsession ▸ hstage, fun t ht => ?_⟩,
      Or.inr ?_⟩
    · rw [hlog] at ht
      rcases List.mem_append.mp ht with ht | ht
      · exact hq.log t ht
      · rw [List.mem_singleton.mp ht]
        exact ⟨hstage, hq.session.N, hq.session.M⟩
    · -- the scheduler had one more schedule
      have hrest := (h.running hphase hstage).2.scheduler
      rw [hit] at hrest
      obtain ⟨rest, hl, hgives⟩ := hrest
      have hlen := congrArg List.length hl
      rw [turnsLeft, turnsLeft, hsession, hphase, stage1_runTest, if_pos ⟨hstage, rfl⟩]
      simp only [List.length_append, List.length_singleton] at hlen ⊢
      cases rest with
      | nil =>
        rw [Iteration.Gives, hnext] at hgives
        cases hgives
      | cons x rest =>
        rw [List.length_cons] at hlen
        omega
  | pops whileFlag built hphase schedPrefix scheduler _ =>
    obtain ⟨hsession, hperiod, hphase'⟩ := hq.session.pop built hphase
    refine ⟨⟨hsession, hq.raised, hq.unlimited, fun hp => ?_, hq.log⟩, Or.inr ?_⟩
    · have hstill := hphase'.symm.trans hp
      cases whileFlag with
      | false => cases hstill
      | true => cases hstill
    · rw [turnsLeft, turnsLeft, hphase]
      simp only [turn, hperiod, hphase']
      cases whileFlag <;> simp

theorem done_of_calm (hlimit : o.runsLimit = 0)
    (hvisits : ∀ p, p ≤ o.bugDepth + 1 → o.Visits fuel p (out p)) {answers : List Answer}
    (hcalm : ∀ answer ∈ answers, o.Calm answer)
    (hlen : turnsLeft o out (start o) ≤ answers.length) :
    Along o fuel out (run (step o fuel) answers (start o)) ∧
      Quiet o (run (step o fuel) answers (start o)) ∧ Done o (run (step o fuel) answers (start o)) := by
  have hstep : ∀ answer s, Along o fuel out s ∧ Quiet o s → o.Calm answer →
      Along o fuel out (s.step o fuel answer) ∧ Quiet o (s.step o fuel answer) :=
    fun answer s h hc => ⟨along_step hvisits answer h.1, (quiet_step hlimit hvisits hc h.1 h.2).1⟩
  have hmeets : Meets (step o fuel) (fun answer _ => o.Calm answer) answers (start o) :=
    meets_of_forall hcalm (start o)
  obtain ⟨halong, hquiet⟩ := run_of_inv hstep ⟨along_start, quiet_start⟩ hmeets
  refine ⟨halong, hquiet, run_ends hstep ?_ ?_ ?_ ⟨along_start, quiet_start⟩ hmeets hlen⟩
  · intro answer s hdone
    have hidle : s.step o fuel answer = s := by
      unfold step
      split
      · rfl
      · rw [hdone.1]
        exact if_pos (Or.inr hdone.2)
    rw [hidle]
    exact hdone
  · intro s _ hzero
    rw [turnsLeft, Nat.add_eq_zero_iff] at hzero
    obtain ⟨hphase, hrest⟩ := hzero
    refine ⟨?_, ?_⟩
    · cases hp : s.session.phase with
      | ended => rfl
      | testing =>
        rw [hp] at hphase
        simp at hphase
      | popping whileFlag =>
        rw [hp] at hphase
        cases whileFlag <;> simp at hphase
    · by_contra hlt
      have hrange : o.bugDepth + 1 - s.session.iterPeriod =
          o.bugDepth + 1 - (s.session.iterPeriod + 1) + 1 := by omega
      rw [hrange, List.range'_succ, List.map_cons, List.sum_cons] at hrest
      omega
  · exact fun answer s h hc => (quiet_step hlimit hvisits hc h.1 h.2).2

end Calm

/-- The loop with bug depth `d` on a target that stays within the default run: it ends, and of the
chains of alternating key points of at most `d + 1` threads its tests force every timely run into
exactly those whose key points hug the ends of their threads. Chains of more than four key points
need `--full-deep-run`. -/
theorem chains_enforced_iff (o : Options) (hzero : o.zeroInKP = 0)
    (hpos : ∀ i, i < o.N → 0 < o.kpMaxNumArray i) (hM : ∀ i, i < o.N → o.kpMaxNumArray i ≤ o.M)
    (hroom : o.M * o.N ≤ shareArraySize) (hlimit : o.runsLimit = 0) (hdepth : o.bugDepth + 1 < 65536) :
    ∃ F, ∀ fuel, F ≤ fuel → ∃ L, ∀ answers : List Answer, (∀ answer ∈ answers, o.Calm answer) →
      L ≤ answers.length → Done o (run (step o fuel) answers (start o)) ∧
      ∀ (chain : List KeyPoint) (loopUnwindedNum : Nat) (m : Bytes.Mem), LegalChain o.mList chain →
        2 ≤ chain.length → chain.length ≤ o.bugDepth + 1 → chain.length ≤ 4 ∨ o.fullDeepRun = true →
        0 < loopUnwindedNum →
        ((∃ t ∈ (run (step o fuel) answers (start o)).log, t.iterPeriod = chain.length ∧
          Enforces o.N o.mList (.start (t.target loopUnwindedNum m)) chain) ↔
          Attainable o.mList chain) := by
  obtain ⟨F, hF⟩ := o.exists_fuel
  refine ⟨F, fun fuel hfuel => ?_⟩
  obtain ⟨out, hvisits⟩ := hF fuel hfuel
  refine ⟨turnsLeft o out (start o), fun answers hcalm hlen => ?_⟩
  obtain ⟨halong, hquiet, hdone⟩ := done_of_calm hlimit hvisits hcalm hlen
  generalize run (step o fuel) answers (start o) = s at *
  refine ⟨hdone, fun chain loopUnwindedNum m hchain htwo hle hdeep hnum => ?_⟩
  have hthreads : o.threadNum = o.N := by rw [Options.threadNum, hzero, Nat.add_zero]
  have hlength : o.mList.length = o.N := Options.length_mList.trans hthreads
  have hkps : ∀ k ∈ o.mList, 0 < k ∧ k ≤ o.M := by
    intro k hk
    obtain ⟨i, hi, rfl⟩ := List.mem_map.mp hk
    rw [List.mem_range, hthreads] at hi
    exact ⟨hpos i hi, hM i hi⟩
  have hne : chain ≠ [] := List.length_pos_iff.mp (by omega)
  have hover : s.Over chain.length := over_of_not_running
    (fun hr => absurd (hdone.1.symm.trans hr.1) nofun) (Nat.le_trans hle hdone.2)
  have hskips : o.skips chain.length = false := by
    apply decide_eq_false
    rintro ⟨hfour, hfull⟩
    rcases hdeep with hshort | hyes
    · omega
    · exact hfull hyes
  have hall := (halong.exact chain.length htwo hover).complete hquiet.unlimited hskips
  have hyields := Options.yields_iff (Nat.zero_lt_of_lt htwo) (hvisits chain.length hle)
  have hcovers := fun {sched : Schedule} => @enforces_iff_covers o.mList chain o.M loopUnwindedNum m
    (fun k hk => (hkps k hk).1) hne hchain (fun k hk => (hkps k hk).2) (hlength.symm ▸ hroom)
    (Nat.lt_of_le_of_lt hle hdepth) hnum sched
  have htarget : ∀ t ∈ s.log, t.scheduler ∈ out chain.length → t.target loopUnwindedNum m =
      testTarget o.N o.N o.M o.mList t.scheduler.sched loopUnwindedNum m := by
    intro t ht hmem
    obtain ⟨_, htN, htM⟩ := hquiet.log t ht
    obtain ⟨hn, hlist⟩ := Options.produced_of_visits (hvisits chain.length hle) hmem
    rw [Test.target, Test.pattern, htN, htM, hn, hlist, hthreads]
    rfl
  simp only [hthreads] at hyields
  simp only [hlength] at hcovers
  constructor
  · intro h
    obtain ⟨t, ht, hperiod, hforces⟩ := h
    have hmem : t.scheduler ∈ out chain.length :=
      hall ▸ mem_stage1.mpr ⟨t, ht, (hquiet.log t ht).1, hperiod, rfl⟩
    rw [htarget t ht hmem] at hforces
    have hyield := (hyields t.scheduler.sched).mpr (List.mem_map_of_mem hmem)
    refine attainable_of_yields (fun k hk => (hkps k hk).1) hne hchain ?_ ((hcovers hyield).mp hforces)
    exact hlength.symm ▸ hyield
  · intro h
    obtain ⟨sched, hyield, hcover⟩ := yields_of_attainable (fun k hk => (hkps k hk).1) hne hchain h
    rw [hlength] at hyield
    obtain ⟨scheduler, hmem, rfl⟩ := List.mem_map.mp ((hyields sched).mp hyield)
    obtain ⟨t, ht, _, hperiod, rfl⟩ := mem_stage1.mp (hall.symm ▸ hmem)
    exact ⟨t, ht, hperiod, htarget t ht hmem ▸ (hcovers hyield).mpr hcover⟩

def twoThreads : Options where
  bugDepth := 1
  fullDeepRun := false
  noPrefixRun := false
  runsLimit := 0
  zeroInKP := 0
  defaultCoverageHashID := 0
  N := 2
  M := 1
  kpMaxNumArray := fun _ => 1
  parentArray := fun _ => 1

theorem chains_enforced_iff_two :
    ∃ F, ∀ fuel, F ≤ fuel → ∃ L, ∀ answers : List Answer, (∀ answer ∈ answers, twoThreads.Calm answer) →
      L ≤ answers.length → Done twoThreads (run (step twoThreads fuel) answers (start twoThreads)) ∧
      ∀ (chain : List KeyPoint) (loopUnwindedNum : Nat) (m : Bytes.Mem), LegalChain [1, 1] chain →
        2 ≤ chain.length → chain.length ≤ 2 → chain.length ≤ 4 ∨ false = true → 0 < loopUnwindedNum →
        ((∃ t ∈ (run (step twoThreads fuel) answers (start twoThreads)).log,
          t.iterPeriod = chain.length ∧
          Enforces 2 [1, 1] (.start (t.target loopUnwindedNum m)) chain) ↔ Attainable [1, 1] chain) :=
  chains_enforced_iff twoThreads rfl (fun _ _ => Nat.one_pos) (fun _ _ => Nat.le_refl 1) (by decide) rfl
    (by decide)

end Testing

end Period.Driver
