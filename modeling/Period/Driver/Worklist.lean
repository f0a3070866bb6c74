import Mathlib.Data.Finset.Card
import Period.Driver.Session
import Period.Foundation.Runs

/-!
# Every coverage ID is popped once

An ID that was popped must not come back. In stage 2 an ID is new when
`waited_to_explore_save` does not have it: a copy keeps what was popped, the same object
does not.
-/

namespace Period.Driver

open Runs
set_option autoImplicit false

section Conditions
variable (c : Setup)

def addedID (t : Trial) (s : Session) : Option Nat :=
  match settle c t s with
  | (_, none) => none
  | (s, some r) => if s.N + c.zeroInKP > SHARE_THREAD_NUM then none else newCoverage c r s

/-- While the two dictionaries are one object, no test of stage 2 adds an ID that was popped. -/
def Unpopped (e : Event) (s : Session) : Prop :=
  match e with
  | .test t => s.phase = .testing → s.stage = .stage2 → s.waited = s.saved →
      ∀ a, addedID c t s = some a → a ∉ s.popped
  | _ => True

/-- The tests add IDs of `S` only. -/
def Reaches (S : Finset Nat) (e : Event) (s : Session) : Prop :=
  match e with
  | .test t => ∀ a, addedID c t s = some a → a ∈ S
  | _ => True

end Conditions

/-- One turn of stage 2: the loop pops an entry, and where it gets a scheduler from it,
runs its tests. -/
def roundEvents : Option (List Trial) → List Event
  | none => [.pop false]
  | some ts => .pop true :: (ts.map Event.test ++ [.finish])

theorem mem_keys_addToExploreDict {d : OrderedDict Nat Interesting} {k a : Nat}
    {x : Interesting} : a ∈ (addToExploreDict d k x).keys ↔ a = k ∨ a ∈ d.keys := by
  unfold addToExploreDict
  split
  · next saved hsaved =>
    have hk : k ∈ d.keys := by
      by_contra hk
      rw [OrderedDict.get?_eq_none.mpr hk] at hsaved
      cases hsaved
    split
    · exact OrderedDict.mem_keys_set
    · constructor
      · exact Or.inr
      · intro ha
        rcases ha with rfl | ha
        · exact hk
        · exact ha
  · exact OrderedDict.mem_keys_set

theorem mem_keys_add {s : Session} {ref ref' k a : Nat} {x : Interesting} :
    a ∈ ((s.add ref k x).heap ref').keys ↔ ref' = ref ∧ a = k ∨ a ∈ (s.heap ref').keys := by
  show a ∈ (Function.update s.heap ref _ ref').keys ↔ _
  by_cases href : ref' = ref
  · subst href
    rw [Function.update_self, mem_keys_addToExploreDict]
    simp only [true_and]
  · rw [Function.update_of_ne href]
    simp only [href, false_and, false_or]

structure Tested (added : Option Nat) (s s' : Session) : Prop where
  iterPeriod : s'.iterPeriod = s.iterPeriod
  stage : s'.stage = s.stage
  phase : s'.phase = s.phase
  fresh : s'.fresh = s.fresh
  waited : s'.waited = s.waited
  saved : s'.saved = s.saved
  popped : s'.popped = s.popped
  keys : ∀ ref a, a ∈ (s'.heap ref).keys ↔
    added = some a ∧ (ref = s.waited ∨ ref = s.saved) ∨ a ∈ (s.heap ref).keys

theorem Tested.nothing (s : Session) : Tested none s s where
  iterPeriod := rfl
  stage := rfl
  phase := rfl
  fresh := rfl
  waited := rfl
  saved := rfl
  popped := rfl
  keys := by
    intro ref a
    simp only [reduceCtorEq, false_and, false_or]

theorem tested_conclude (c : Setup) (t : Trial) (r : Reading) (s : Session) :
    Tested (if s.N + c.zeroInKP > SHARE_THREAD_NUM then none else newCoverage c r s) s
      (conclude c t r s) := by
  unfold conclude
  dsimp only
  have hcopy : newCoverage c r { s with parentArrayCopy := s.parentArray } = newCoverage c r s := rfl
  by_cases hn : s.N + c.zeroInKP > SHARE_THREAD_NUM
  · rw [if_pos hn, if_pos hn]
    exact { Tested.nothing s with }
  · rw [if_neg hn, if_neg hn, hcopy]
    split
    · next hnone =>
      rw [hnone]
      exact { Tested.nothing s with }
    · next k hk =>
      rw [hk]
      refine { Tested.nothing s with keys := ?_ }
      intro ref a
      rw [mem_keys_add, mem_keys_add]
      show ref = s.saved ∧ a = k ∨ ref = s.waited ∧ a = k ∨ a ∈ (s.heap ref).keys ↔ _
      rw [Option.some.injEq, eq_comm (a := k)]
      tauto

theorem settle_worklist (c : Setup) (t : Trial) (s : Session) :
    Tested none s (settle c t s).1 ∧ (settle c t s).1.heap = s.heap := by
  unfold settle
  split
  · exact ⟨Tested.nothing s, rfl⟩
  · split
    · exact ⟨Tested.nothing s, rfl⟩
    · exact ⟨{ Tested.nothing s with }, rfl⟩

theorem tested_runTest (c : Setup) (t : Trial) (s : Session) :
    Tested (addedID c t s) s (runTest c t s) := by
  have hsettle := settle_worklist c t s
  unfold addedID runTest
  rcases hs : settle c t s with ⟨s', _ | r⟩
  · rw [hs] at hsettle
    exact hsettle.1
  · rw [hs] at hsettle
    obtain ⟨hsame, hheap⟩ := hsettle
    have h := tested_conclude c t r s'
    exact
      { iterPeriod := h.iterPeriod.trans hsame.iterPeriod
        stage := h.stage.trans hsame.stage
        phase := h.phase.trans hsame.phase
        fresh := h.fresh.trans hsame.fresh
        waited := h.waited.trans hsame.waited
        saved := h.saved.trans hsame.saved
        popped := h.popped.trans hsame.popped
        keys := by
          rw [← hheap, ← hsame.waited, ← hsame.saved]
          exact h.keys }

structure WorklistInv (s : Session) : Prop where
  waited_made : s.waited < s.fresh
  saved_made : s.saved < s.fresh
  nodup : s.popped.Nodup
  disjoint : ∀ a ∈ s.popped, a ∉ (s.heap s.waited).keys
  covered : s.stage = .stage2 → s.waited ≠ s.saved →
    ∀ a, a ∈ s.popped ∨ a ∈ (s.heap s.waited).keys → a ∈ (s.heap s.saved).keys
  aliased : s.stage = .stage1 → s.phase ≠ .ended → s.popped = [] ∧ s.waited = s.saved
  prefixed : ∀ w, s.phase = .popping w → s.stage = .stage2

theorem worklistInv_start (c : Setup) : WorklistInv (start c) where
  waited_made := Nat.zero_lt_two
  saved_made := Nat.one_lt_two
  nodup := List.nodup_nil
  disjoint := by
    intro a ha
    cases ha
  covered := by
    intro h
    cases h
  aliased := by
    intro _ h
    exact absurd rfl h
  prefixed := by
    intro w h
    cases h

theorem addedID_not_saved {c : Setup} {t : Trial} {s : Session} {a : Nat}
    (ha : addedID c t s = some a) (hstage : s.stage = .stage2) : a ∉ (s.heap s.saved).keys := by
  have hsettle := settle_worklist c t s
  unfold addedID at ha
  split at ha
  · cases ha
  · next s' r hs =>
    rw [hs] at hsettle
    obtain ⟨hsame, hheap⟩ := hsettle
    split at ha
    · cases ha
    · unfold newCoverage at ha
      dsimp only at ha
      split at ha
      · cases ha
      · next hin =>
        rw [hsame.stage, hsame.saved, hheap] at hin
        split at ha
        · cases ha
        · split at ha
          · cases ha
            exact fun hmem => hin ⟨hstage, hmem⟩
          · cases ha

section Steps
variable {c : Setup} {s : Session}

theorem WorklistInv.enter (h : WorklistInv s) (left : Nat) :
    WorklistInv (nextDepth.enter s left) where
  waited_made := h.saved_made
  saved_made := h.saved_made
  nodup := List.nodup_nil
  disjoint := by
    intro a ha
    cases ha
  covered := by
    intro _ hne
    exact absurd rfl hne
  aliased := fun _ _ => ⟨rfl, rfl⟩
  prefixed := by
    intro w hw
    cases hw

/-- In stage 1 nothing was popped yet, and an ID that the copy does not have was never popped. -/
theorem WorklistInv.added_unpopped (h : WorklistInv s) {t : Trial} (hphase : s.phase = .testing)
    (ht : Unpopped c (.test t) s) {a : Nat} (ha : addedID c t s = some a) : a ∉ s.popped := by
  cases hstage : s.stage with
  | stage1 =>
    have hover : s.phase ≠ .ended := by
      rw [hphase]
      exact nofun
    rw [(h.aliased hstage hover).1]
    exact List.not_mem_nil
  | stage2 =>
    by_cases halias : s.waited = s.saved
    · exact ht hphase hstage halias a ha
    · intro hpopped
      exact addedID_not_saved ha hstage (h.covered hstage halias a (Or.inl hpopped))

theorem WorklistInv.runTest (h : WorklistInv s) {t : Trial} (hphase : s.phase = .testing)
    (ht : Unpopped c (.test t) s) : WorklistInv (runTest c t s) := by
  have htest := tested_runTest c t s
  refine ⟨?_, ?_, ?_, ?_, ?_, ?_, ?_⟩
  · rw [htest.waited, htest.fresh]
    exact h.waited_made
  · rw [htest.saved, htest.fresh]
    exact h.saved_made
  · rw [htest.popped]
    exact h.nodup
  · intro a ha hkey
    rw [htest.popped] at ha
    rw [htest.waited] at hkey
    rcases (htest.keys _ _).mp hkey with ⟨hadded, _⟩ | hold
    · exact h.added_unpopped hphase ht hadded ha
    · exact h.disjoint a ha hold
  · intro hstage hne a ha
    rw [htest.stage] at hstage
    rw [htest.waited, htest.saved] at hne
    rw [htest.popped, htest.waited] at ha
    rw [htest.saved]
    apply (htest.keys _ _).mpr
    rcases ha with hpopped | hkey
    · exact Or.inr (h.covered hstage hne a (Or.inl hpopped))
    · rcases (htest.keys _ _).mp hkey with ⟨hadded, _⟩ | hold
      · exact Or.inl ⟨hadded, Or.inr rfl⟩
      · exact Or.inr (h.covered hstage hne a (Or.inr hold))
  · rw [htest.stage, htest.phase, htest.popped, htest.waited, htest.saved]
    exact h.aliased
  · rw [htest.stage, htest.phase]
    exact h.prefixed

theorem WorklistInv.endStage2 (h : WorklistInv s) (hstage : s.stage = .stage2) :
    WorklistInv (endStage2 c s) := by
  unfold Driver.endStage2
  split
  · exact
      { h with
        covered := nofun
        aliased := fun _ hover => absurd rfl hover
        prefixed := nofun }
  · exact
      { h with
        aliased := by
          intro h1
          rw [hstage] at h1
          cases h1
        prefixed := fun _ _ => hstage }

theorem WorklistInv.endScheduler (h : WorklistInv s) (hphase : s.phase = .testing) :
    WorklistInv (endScheduler c s) := by
  have hover : s.phase ≠ .ended := by
    rw [hphase]
    exact nofun
  have hout := endScheduler_outcome c s
  generalize Driver.endScheduler c s = s' at hout
  cases hout with
  | copies hstage _ =>
    obtain ⟨hnil, _⟩ := h.aliased hstage hover
    apply WorklistInv.endStage2 _ rfl
    have hwaited : Function.update s.heap s.fresh (s.heap s.waited) s.waited = s.heap s.waited :=
      Function.update_of_ne (Nat.ne_of_lt h.waited_made) _ _
    refine ⟨Nat.lt_succ_of_lt h.waited_made, Nat.lt_succ_self _, h.nodup, ?_, ?_, nofun, ?_⟩
    · show ∀ a ∈ s.popped, _
      rw [hnil]
      exact nofun
    · intro _ _ a ha
      show a ∈ (Function.update s.heap s.fresh (s.heap s.waited) s.fresh).keys
      rw [Function.update_self]
      rcases ha with ha | ha
      · replace ha : a ∈ s.popped := ha
        rw [hnil] at ha
        cases ha
      · replace ha : a ∈ (Function.update s.heap s.fresh (s.heap s.waited) s.waited).keys := ha
        rwa [hwaited] at ha
    · exact fun _ _ => rfl
  | goesOn _ _ _ => exact { h with }
  | shares hstage _ _ =>
    obtain ⟨_, halias⟩ := h.aliased hstage hover
    apply WorklistInv.endStage2 _ rfl
    exact
      { h with
        covered := fun _ hne => absurd halias hne
        aliased := nofun
        prefixed := fun _ _ => rfl }
  | stage2 hstage => exact h.endStage2 hstage

theorem WorklistInv.popItem (h : WorklistInv s) {w : Bool} (hphase : s.phase = .popping w)
    (built : Bool) : WorklistInv (popItem built w s) := by
  have hstage := h.prefixed w hphase
  have hout := popItem_outcome built w s
  generalize Driver.popItem built w s = s' at hout
  cases hout with
  | again _ _ =>
    exact
      { h with
        aliased := by
          intro h1
          rw [hstage] at h1
          cases h1
        prefixed := fun _ _ => hstage }
  | ends _ _ =>
    exact
      { h with
        covered := nofun
        aliased := fun _ hover => absurd rfl hover
        prefixed := nofun }
  | pops k _ rest hpop =>
    have hkeys : (s.heap s.waited).keys = k :: rest.keys := OrderedDict.keys_of_popFirst hpop
    have hnodup : (k :: rest.keys).Nodup := hkeys ▸ (s.heap s.waited).nodup
    have hk : k ∉ s.popped := by
      intro hmem
      apply h.disjoint k hmem
      rw [hkeys]
      exact List.mem_cons_self
    have hwaited : Function.update s.heap s.waited rest s.waited = rest := Function.update_self _ _ _
    refine ⟨h.waited_made, h.saved_made, ?_, ?_, ?_, ?_, fun _ _ => hstage⟩
    · exact List.nodup_append.mpr ⟨h.nodup, List.nodup_singleton k,
        fun a ha b hb hab => hk (List.mem_singleton.mp hb ▸ hab ▸ ha)⟩
    · intro a ha hkey
      replace hkey : a ∈ (Function.update s.heap s.waited rest s.waited).keys := hkey
      rw [hwaited] at hkey
      rcases List.mem_append.mp ha with ha | ha
      · apply h.disjoint a ha
        rw [hkeys]
        exact List.mem_cons_of_mem k hkey
      · rw [List.mem_singleton.mp ha] at hkey
        exact (List.nodup_cons.mp hnodup).1 hkey
    · intro _ hne a ha
      replace hne : s.waited ≠ s.saved := hne
      show a ∈ (Function.update s.heap s.waited rest s.saved).keys
      rw [Function.update_of_ne hne.symm]
      apply h.covered hstage hne a
      rw [hkeys, List.mem_cons]
      rcases ha with ha | ha
      · rcases List.mem_append.mp ha with ha | ha
        · exact Or.inl ha
        · exact Or.inr (Or.inl (List.mem_singleton.mp ha))
      · replace ha : a ∈ (Function.update s.heap s.waited rest s.waited).keys := ha
        rw [hwaited] at ha
        exact Or.inr (Or.inr ha)
    · intro h1
      replace h1 : s.stage = .stage1 := h1
      rw [hstage] at h1
      cases h1

theorem worklistInv_step (e : Event) (s : Session) (h : WorklistInv s) (he : Unpopped c e s) :
    WorklistInv (step c e s) := by
  have hout := step_outcome c e s
  generalize step c e s = s' at hout
  cases hout with
  | idle _ => exact h
  | enters left _ => exact h.enter left
  | tests t hphase => exact h.runTest hphase he
  | finishes hphase => exact h.endScheduler hphase
  | pops built w hphase => exact h.popItem hphase built

end Steps

/-! ## Two objects -/

/-- Over all variables stage 2 starts with a copy. -/
structure Copied (s : Session) : Prop where
  waited_made : s.waited < s.fresh
  saved_made : s.saved < s.fresh
  apart : s.stage = .stage2 → s.waited ≠ s.saved
  ended : s.phase = .ended → s.stage = .stage1

theorem copied_step {c : Setup} (hc : c.varModeFlag = 0) (e : Event) (s : Session) (h : Copied s) :
    Copied (step c e s) := by
  have hend : ∀ s : Session, s.waited < s.fresh → s.saved < s.fresh →
      (s.stage = .stage2 → s.waited ≠ s.saved) → s.phase ≠ .ended → Copied (endStage2 c s) := by
    intro s hw hs hne hover
    unfold endStage2
    split
    · exact ⟨hw, hs, nofun, fun _ => rfl⟩
    · exact ⟨hw, hs, hne, nofun⟩
  have hout := step_outcome c e s
  generalize step c e s = s' at hout
  cases hout with
  | idle _ => exact h
  | enters left hphase =>
    refine ⟨h.saved_made, h.saved_made, ?_, nofun⟩
    intro hstage
    replace hstage : s.stage = .stage2 := hstage
    rw [h.ended hphase] at hstage
    cases hstage
  | tests t _ =>
    have htest := tested_runTest c t s
    refine ⟨?_, ?_, ?_, ?_⟩
    · rw [htest.waited, htest.fresh]
      exact h.waited_made
    · rw [htest.saved, htest.fresh]
      exact h.saved_made
    · rw [htest.stage, htest.waited, htest.saved]
      exact h.apart
    · rw [htest.phase, htest.stage]
      exact h.ended
  | finishes hphase =>
    have hover : s.phase ≠ .ended := by
      rw [hphase]
      exact nofun
    have hout := endScheduler_outcome c s
    generalize endScheduler c s = s' at hout
    cases hout with
    | copies _ _ =>
      exact hend _ (Nat.lt_succ_of_lt h.waited_made) (Nat.lt_succ_self _)
        (fun _ => Nat.ne_of_lt h.waited_made) hover
    | goesOn _ _ _ => exact { h with }
    | shares _ hmode _ => exact absurd (Or.inl hc) hmode
    | stage2 _ => exact hend s h.waited_made h.saved_made h.apart hover
  | pops built w hphase =>
    have hout := popItem_outcome built w s
    generalize popItem built w s = s' at hout
    cases hout with
    | again _ _ => exact { h with ended := nofun }
    | ends _ _ => exact { h with apart := nofun, ended := fun _ => rfl }
    | pops _ _ _ _ =>
      refine ⟨h.waited_made, h.saved_made, h.apart, ?_⟩
      intro hover
      cases built <;> cases hover

theorem unpopped_of_all_variables {c : Setup} (hc : c.varModeFlag = 0) (es : List Event) :
    Meets (step c) (Unpopped c) es (start c) := by
  have hstart : Copied (start c) := ⟨Nat.zero_lt_two, Nat.one_lt_two, nofun, fun _ => rfl⟩
  apply meets_of_inv _ (fun e s h _ => copied_step hc e s h) hstart (meets_true es (start c))
  intro e s h _
  unfold Unpopped
  split
  · exact fun _ hstage halias => absurd halias (h.apart hstage)
  · trivial

/-! ## Stage 2 ends -/

section Ends
variable {c : Setup} {S : Finset Nat} {s : Session}

structure Within (S : Finset Nat) (s : Session) : Prop where
  keys : ∀ ref, ∀ a ∈ (s.heap ref).keys, a ∈ S
  popped : ∀ a ∈ s.popped, a ∈ S

theorem within_start (c : Setup) (S : Finset Nat) : Within S (start c) := ⟨nofun, nofun⟩

theorem within_endStage2 (h : Within S s) : Within S (endStage2 c s) := by
  unfold endStage2
  split
  · exact ⟨h.keys, h.popped⟩
  · exact ⟨h.keys, h.popped⟩

theorem within_endScheduler (h : Within S s) : Within S (endScheduler c s) := by
  have hout := endScheduler_outcome c s
  generalize endScheduler c s = s' at hout
  cases hout with
  | copies _ _ =>
    apply within_endStage2
    refine ⟨?_, h.popped⟩
    intro ref a ha
    replace ha : a ∈ (Function.update s.heap s.fresh (s.heap s.waited) ref).keys := ha
    by_cases href : ref = s.fresh
    · rw [href, Function.update_self] at ha
      exact h.keys _ a ha
    · rw [Function.update_of_ne href] at ha
      exact h.keys ref a ha
  | goesOn _ _ _ => exact ⟨h.keys, h.popped⟩
  | shares _ _ _ => exact within_endStage2 ⟨h.keys, h.popped⟩
  | stage2 _ => exact within_endStage2 h

theorem within_popItem (h : Within S s) (built w : Bool) : Within S (popItem built w s) := by
  have hout := popItem_outcome built w s
  generalize popItem built w s = s' at hout
  cases hout with
  | again _ _ => exact ⟨h.keys, h.popped⟩
  | ends _ _ => exact ⟨h.keys, h.popped⟩
  | pops k _ rest hpop =>
    have hkeys : (s.heap s.waited).keys = k :: rest.keys := OrderedDict.keys_of_popFirst hpop
    have hin := h.keys s.waited
    rw [hkeys] at hin
    constructor
    · intro ref a ha
      replace ha : a ∈ (Function.update s.heap s.waited rest ref).keys := ha
      by_cases href : ref = s.waited
      · rw [href, Function.update_self] at ha
        exact hin a (List.mem_cons_of_mem k ha)
      · rw [Function.update_of_ne href] at ha
        exact h.keys ref a ha
    · intro a ha
      rcases List.mem_append.mp ha with ha | ha
      · exact h.popped a ha
      · rw [List.mem_singleton.mp ha]
        exact hin k List.mem_cons_self

theorem within_step (e : Event) (s : Session) (h : Within S s) (he : Reaches c S e s) :
    Within S (step c e s) := by
  have hout := step_outcome c e s
  generalize step c e s = s' at hout
  cases hout with
  | idle _ => exact h
  | enters left _ => exact ⟨h.keys, nofun⟩
  | tests t _ =>
    have htest := tested_runTest c t s
    constructor
    · intro ref a ha
      rcases (htest.keys ref a).mp ha with ⟨hadded, _⟩ | hold
      · exact he a hadded
      · exact h.keys ref a hold
    · rw [htest.popped]
      exact h.popped
  | finishes _ => exact within_endScheduler h
  | pops built w _ => exact within_popItem h built w

theorem keeps_step (e : Event) (s : Session) (h : WorklistInv s ∧ Within S s)
    (he : Unpopped c e s ∧ Reaches c S e s) :
    WorklistInv (step c e s) ∧ Within S (step c e s) :=
  ⟨worklistInv_step e s h.1 he.1, within_step e s h.2 he.2⟩

/-- How many further turns of stage 2 there can be. A turn that finds the dictionary empty
after others is followed by a last one. -/
def turnsLeft (S : Finset Nat) (s : Session) : Nat :=
  match s.phase with
  | .popping true => 2 * (S.card - s.popped.length) + 2
  | .popping false => 2 * (S.card - s.popped.length) + 1
  | _ => 0

theorem run_tests_idle (hphase : s.phase ≠ .testing) (ts : List Trial) :
    run (step c) (ts.map Event.test ++ [.finish]) s = s := by
  induction ts with
  | nil =>
    show step c .finish s = s
    have hout := step_outcome c .finish s
    generalize step c .finish s = s' at hout ⊢
    cases hout with
    | idle _ => rfl
    | finishes htesting => exact absurd htesting hphase
  | cons t ts ih =>
    have hstep : step c (.test t) s = s := by
      have hout := step_outcome c (.test t) s
      generalize step c (.test t) s = s' at hout ⊢
      cases hout with
      | idle _ => rfl
      | tests _ htesting => exact absurd htesting hphase
    show run (step c) (ts.map Event.test ++ [.finish]) (step c (.test t) s) = s
    rw [hstep]
    exact ih

theorem run_tests (hphase : s.phase = .testing) (hstage : s.stage = .stage2) (ts : List Trial) :
    (run (step c) (ts.map Event.test ++ [.finish]) s).popped = s.popped ∧
      ((run (step c) (ts.map Event.test ++ [.finish]) s).phase = .ended ∨
        (run (step c) (ts.map Event.test ++ [.finish]) s).phase = .popping false) := by
  induction ts generalizing s with
  | nil =>
    have hfinish : step c .finish s = endStage2 c s := by
      unfold step
      rw [hphase]
      dsimp only
      unfold endScheduler
      rw [hstage]
    show (step c .finish s).popped = s.popped ∧
      ((step c .finish s).phase = .ended ∨ (step c .finish s).phase = .popping false)
    rw [hfinish]
    unfold endStage2
    split
    · exact ⟨rfl, Or.inl rfl⟩
    · exact ⟨rfl, Or.inr rfl⟩
  | cons t ts ih =>
    have htest := tested_runTest c t s
    have hstep : step c (.test t) s = runTest c t s := by
      unfold step
      rw [hphase]
    have hrest := ih (htest.phase.trans hphase) (htest.stage.trans hstage)
    rw [htest.popped, ← hstep] at hrest
    exact hrest

theorem popped_length_le (hI : WorklistInv s) (hW : Within S s) : s.popped.length ≤ S.card := by
  rw [← List.toFinset_card_of_nodup hI.nodup]
  apply Finset.card_le_card
  intro a ha
  exact hW.popped a (List.mem_toFinset.mp ha)

theorem popItem_cases (built w : Bool) (s : Session) :
    ((popItem built w s).popped = s.popped ∧
      (popItem built w s).phase = if w then .popping false else .ended) ∨
    (popItem built w s).popped.length = s.popped.length + 1 ∧
      (popItem built w s).stage = s.stage ∧
      (popItem built w s).phase = if built then .testing else .popping true := by
  have hout := popItem_outcome built w s
  generalize popItem built w s = s' at hout
  cases hout with
  | again _ hwhile => exact Or.inl ⟨rfl, (if_pos hwhile).symm⟩
  | ends _ hwhile => exact Or.inl ⟨rfl, (if_neg (Bool.eq_false_iff.mp hwhile)).symm⟩
  | pops _ _ _ _ => exact Or.inr ⟨List.length_append, rfl, rfl⟩

theorem turnsLeft_of_empty {s' : Session} {w : Bool} (hphase : s.phase = .popping w)
    (hpopped : s'.popped = s.popped)
    (hphase' : s'.phase = if w then .popping false else .ended) :
    s'.phase ≠ .testing ∧ turnsLeft S s' < turnsLeft S s := by
  unfold turnsLeft
  rw [hphase, hphase', hpopped]
  cases w
  · exact ⟨nofun, Nat.succ_pos _⟩
  · exact ⟨nofun, Nat.lt_succ_self _⟩

theorem turnsLeft_of_popped {s' : Session} {w : Bool} (hphase : s.phase = .popping w)
    (hpopped : s'.popped.length = s.popped.length + 1) (hcard : s'.popped.length ≤ S.card)
    (hphase' : s'.phase = .ended ∨ ∃ w', s'.phase = .popping w') :
    s'.phase ≠ .testing ∧ turnsLeft S s' < turnsLeft S s := by
  have hleft : 2 * (S.card - s.popped.length) + 1 ≤ turnsLeft S s := by
    unfold turnsLeft
    rw [hphase]
    cases w
    · exact Nat.le_refl _
    · exact Nat.le_succ _
  rcases hphase' with hover | ⟨w', hpopping⟩
  · have hzero : turnsLeft S s' = 0 := by
      unfold turnsLeft
      rw [hover]
    rw [hover, hzero]
    exact ⟨nofun, by omega⟩
  · have hle : turnsLeft S s' ≤ 2 * (S.card - s'.popped.length) + 2 := by
      unfold turnsLeft
      rw [hpopping]
      cases w'
      · exact Nat.le_succ _
      · exact Nat.le_refl _
    rw [hpopping]
    exact ⟨nofun, by omega⟩

theorem turnsLeft_round (hI : WorklistInv s) {w : Bool} (hphase : s.phase = .popping w)
    (r : Option (List Trial))
    (hcard : ∀ built, (step c (.pop built) s).popped.length ≤ S.card) :
    (run (step c) (roundEvents r) s).phase ≠ .testing ∧
      turnsLeft S (run (step c) (roundEvents r) s) < turnsLeft S s := by
  have hstep : ∀ built, step c (.pop built) s = popItem built w s := by
    intro built
    unfold step
    rw [hphase]
  cases r with
  | none =>
    have hcard' := hcard false
    show (step c (.pop false) s).phase ≠ _ ∧ turnsLeft S (step c (.pop false) s) < _
    rw [hstep] at hcard' ⊢
    rcases popItem_cases false w s with ⟨hpopped, hafter⟩ | ⟨hpopped, _, hafter⟩
    · exact turnsLeft_of_empty hphase hpopped hafter
    · exact turnsLeft_of_popped hphase hpopped hcard' (Or.inr ⟨true, hafter⟩)
  | some ts =>
    have hcard' := hcard true
    show (run (step c) (ts.map Event.test ++ [.finish]) (step c (.pop true) s)).phase ≠ _ ∧
      turnsLeft S (run (step c) (ts.map Event.test ++ [.finish]) (step c (.pop true) s)) < _
    rw [hstep] at hcard' ⊢
    rcases popItem_cases true w s with ⟨hpopped, hafter⟩ | ⟨hpopped, hstage, hafter⟩
    · have hempty := turnsLeft_of_empty (S := S) hphase hpopped hafter
      rw [run_tests_idle hempty.1]
      exact hempty
    · obtain ⟨hsame, hend⟩ := run_tests hafter (hstage.trans (hI.prefixed w hphase)) ts (c := c)
      apply turnsLeft_of_popped hphase
      · rw [hsame]
        exact hpopped
      · rw [hsame]
        exact hcard'
      · exact hend.imp_right fun h => ⟨false, h⟩

theorem run_round_over (hphase : s.phase = .ended) (r : Option (List Trial)) :
    run (step c) (roundEvents r) s = s := by
  have hstep : ∀ built, step c (.pop built) s = s := by
    intro built
    unfold step
    rw [hphase]
  cases r with
  | none => exact hstep false
  | some ts =>
    show run (step c) (ts.map Event.test ++ [.finish]) (step c (.pop true) s) = s
    rw [hstep]
    apply run_tests_idle
    rw [hphase]
    exact nofun

theorem over_of_turns {rs : List (Option (List Trial))} (hI : WorklistInv s) (hW : Within S s)
    (hmeets : Meets (step c) (fun e s => Unpopped c e s ∧ Reaches c S e s)
      (rs.flatMap roundEvents) s)
    (hphase : s.phase ≠ .testing) (hlen : turnsLeft S s ≤ rs.length) :
    (run (step c) (rs.flatMap roundEvents) s).phase = .ended := by
  induction rs generalizing s with
  | nil =>
    have hzero : turnsLeft S s = 0 := Nat.le_zero.mp hlen
    unfold turnsLeft at hzero
    show s.phase = .ended
    cases hp : s.phase with
    | testing => exact absurd hp hphase
    | ended => rfl
    | popping w =>
      rw [hp] at hzero
      cases w <;> cases hzero
  | cons r rs ih =>
    rw [List.flatMap_cons] at hmeets ⊢
    rw [run_append]
    obtain ⟨hround, hrest⟩ := meets_append.mp hmeets
    obtain ⟨hI', hW'⟩ := run_of_inv keeps_step ⟨hI, hW⟩ hround
    cases hp : s.phase with
    | testing => exact absurd hp hphase
    | ended =>
      have hzero : turnsLeft S s = 0 := by
        unfold turnsLeft
        rw [hp]
      rw [run_round_over hp] at hrest ⊢
      apply ih hI hW hrest hphase
      rw [hzero]
      exact Nat.zero_le _
    | popping w =>
      have hcard : ∀ built, (step c (.pop built) s).popped.length ≤ S.card := fun built =>
        popped_length_le (worklistInv_step (c := c) (.pop built) s hI trivial)
          (within_step (c := c) (.pop built) s hW trivial)
      obtain ⟨hphase', hless⟩ := turnsLeft_round hI hp r hcard
      apply ih hI' hW' hrest hphase'
      rw [List.length_cons] at hlen
      omega

end Ends

/-- Within one depth no ID is popped twice, and stage 2 ends when only finitely many IDs
can be added, if no ID that was popped is added while the two dictionaries are one object.
Over all variables they never are. -/
theorem popped_once_of_unpopped (c : Setup) :
    (∀ es, Meets (step c) (Unpopped c) es (start c) →
      Throughout (step c) (fun s => s.popped.Nodup) es (start c) ∧
      ∀ (S : Finset Nat) before (rounds : List (Option (List Trial))),
        es = before ++ rounds.flatMap roundEvents →
        Meets (step c) (Reaches c S) es (start c) →
        (∃ w, (run (step c) before (start c)).phase = .popping w) →
        2 * S.card + 2 ≤ rounds.length → (run (step c) es (start c)).phase = .ended) ∧
    (c.varModeFlag = 0 → ∀ es, Meets (step c) (Unpopped c) es (start c)) := by
  refine ⟨?_, fun hc es => unpopped_of_all_variables hc es⟩
  intro es h
  constructor
  · exact throughout_of_inv (fun _ hI => hI.nodup) worklistInv_step (worklistInv_start c) h
  · rintro S before rounds rfl hreach ⟨w, hphase⟩ hlen
    obtain ⟨hbefore, hrounds⟩ := meets_append.mp (h.and hreach)
    obtain ⟨hI, hW⟩ := run_of_inv keeps_step ⟨worklistInv_start c, within_start c S⟩ hbefore
    rw [run_append]
    apply over_of_turns hI hW hrounds
    · rw [hphase]
      exact nofun
    · apply Nat.le_trans _ hlen
      unfold turnsLeft
      rw [hphase]
      cases w
      · show 2 * (S.card - _) + 1 ≤ _
        omega
      · show 2 * (S.card - _) + 2 ≤ _
        omega

/-! Two threads that reach seven and eight key points, or eight and seven. -/

def selectedSetup : Setup where
  varModeFlag := 1
  noPrefixRun := false
  zeroInKP := 0
  defaultCoverageHashID := 71
  directInterNum := 1
  N := 2
  M := 8
  parentArray := fun i => [8, 7].getD i 0

/-- The slot after the last key point of the shorter thread is empty. -/
def crossedTrial (kpNumList : List Nat) (empty : Nat) : Trial where
  inter := []
  pattern := []
  schedPrefix := []
  first := some
    { A := 2
      B := 8
      kpNumArray := fun i => kpNumList.getD i 0
      kpLocArray := fun i => if i = empty then 0 else 2 }
  retests := []

def beforeStage2 : List Event := [.depth, .finish, .depth, .test (crossedTrial [7, 8] 7), .finish]

theorem popped_once_of_unpopped_selected :
    (run (step selectedSetup) beforeStage2 (start selectedSetup)).phase = .popping false ∧
    Throughout (step selectedSetup) (fun s => s.popped.Nodup)
      (beforeStage2 ++ [some [], none, none, none].flatMap roundEvents) (start selectedSetup) ∧
    (run (step selectedSetup) (beforeStage2 ++ [some [], none, none, none].flatMap roundEvents)
      (start selectedSetup)).phase = .ended := by
  have hphase : (run (step selectedSetup) beforeStage2 (start selectedSetup)).phase =
      .popping false := by decide
  have hadded : addedID selectedSetup (crossedTrial [7, 8] 7)
      (run (step selectedSetup) [.depth, .finish, .depth] (start selectedSetup)) = some 86 := by
    decide
  have hunpopped : Meets (step selectedSetup) (Unpopped selectedSetup)
      (beforeStage2 ++ [some [], none, none, none].flatMap roundEvents) (start selectedSetup) :=
    ⟨trivial, trivial, trivial, (fun _ hstage => by cases hstage), trivial, trivial, trivial,
      trivial, trivial, trivial, trivial⟩
  have hreaches : Meets (step selectedSetup) (Reaches selectedSetup {86})
      (beforeStage2 ++ [some [], none, none, none].flatMap roundEvents) (start selectedSetup) :=
    ⟨trivial, trivial, trivial, (fun a ha => by cases hadded.symm.trans ha; decide), trivial,
      trivial, trivial, trivial, trivial, trivial, trivial⟩
  obtain ⟨honce, hends⟩ := (popped_once_of_unpopped selectedSetup).1 _ hunpopped
  exact ⟨hphase, honce, hends {86} beforeStage2 [some [], none, none, none] rfl hreaches
    ⟨false, hphase⟩ (by decide)⟩

theorem popped_twice : ¬ Throughout (step selectedSetup) (fun s => s.popped.Nodup)
    (beforeStage2 ++ roundEvents (some [crossedTrial [8, 7] 15]) ++ [.pop true])
    (start selectedSetup) := by
  have htwice : (run (step selectedSetup)
      (beforeStage2 ++ roundEvents (some [crossedTrial [8, 7] 15]) ++ [.pop true])
      (start selectedSetup)).popped = [86, 86] := by decide
  intro h
  have hnodup := h.last
  rw [htwice] at hnodup
  revert hnodup
  decide

end Period.Driver
