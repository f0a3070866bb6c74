import Mathlib.Algebra.BigOperators.Group.List.Basic
import Period.Runtime.Atomicity

/-!
# The period of a key point

A child passes its next key point in the period given by all its yields so far, the ones
before this key point included, unless it was still awake when a period ended.
-/

namespace Period.Runtime

open Aligned Runs RowMajor
set_option autoImplicit false

theorem getElem?_concat {α : Type} {l : List α} {a b : α} {k : Nat} (h : (l ++ [a])[k]? = some b) :
    k < l.length ∧ l[k]? = some b ∨ k = l.length ∧ b = a := by
  rcases Nat.lt_trichotomy k l.length with hlt | heq | hgt
  · rw [List.getElem?_append_left hlt] at h
    exact Or.inl ⟨hlt, h⟩
  · subst heq
    rw [List.getElem?_concat_length, Option.some.injEq] at h
    exact Or.inr ⟨rfl, h.symm⟩
  · rw [List.getElem?_eq_none (by simp; omega)] at h
    cases h

def passedBy (t : Nat) (log : List Hit) : List Hit := log.filter fun hit => hit.access.schedTid = t

theorem passedBy_append (t : Nat) (log : List Hit) (hit : Hit) :
    passedBy t (log ++ [hit]) = if hit.access.schedTid = t then passedBy t log ++ [hit] else passedBy t log := by
  unfold passedBy
  rw [List.filter_append]
  by_cases h : hit.access.schedTid = t <;> simp [h]

theorem mem_passedBy {t : Nat} {log : List Hit} {hit : Hit} :
    hit ∈ passedBy t log ↔ hit ∈ log ∧ hit.access.schedTid = t := by
  simp [passedBy]

/-- How often a child has yielded for the key point it is at. -/
def Point.rounds : Point → Nat
  | .outside => 0
  | .draining _ yields => yields
  | .yielding _ yields => yields + 1

/-- How often a child has yielded for the key points it has passed. -/
def yielded (t : Nat) (log : List Hit) : Nat := ((passedBy t log).map (·.access.yields)).sum

theorem yielded_append (t : Nat) (log : List Hit) (hit : Hit) :
    yielded t (log ++ [hit]) =
      yielded t log + if hit.access.schedTid = t then hit.access.yields else 0 := by
  unfold yielded
  rw [passedBy_append]
  split
  · rw [List.map_append, List.sum_append, List.map_singleton, List.sum_singleton]
  · rfl

/-- The yields of a child are its naps, and they say when it was where. -/
structure Paced (s : Execution) : Prop where
  even : s.clock.Even
  asleep : ∀ t, s.clock.asleep t = true → ∃ intHash yields, s.point t = .yielding intHash yields
  naps : ∀ t, s.clock.naps t = yielded t s.log + (s.point t).rounds
  sorted : s.log.Pairwise fun a b => a.period ≤ b.period
  past : ∀ hit ∈ s.log, hit.period ≤ s.clock.now
  placed : ∀ t k hit, (passedBy t s.log)[k]? = some hit →
    hit.period = (((passedBy t s.log).take (k + 1)).map (·.access.yields)).sum + hit.missed

theorem paced_start (a : Target) : Paced (Execution.start a) where
  even := Clock.even_start
  asleep _ h := nomatch h
  naps _ := rfl
  sorted := List.Pairwise.nil
  past _ h := nomatch h
  placed _ _ _ h := nomatch h

section Steps
variable {s : Execution}

theorem Paced.awake (h : Paced s) {t intHash yields : Nat} (hp : s.point t = .draining intHash yields) :
    s.clock.asleep t = false := by
  cases hasleep : s.clock.asleep t with
  | false => rfl
  | true =>
    obtain ⟨intHash', yields', hp'⟩ := h.asleep t hasleep
    rw [hp] at hp'
    cases hp'

theorem paced_target (h : Paced s) (a : Target) : Paced { s with target := a } :=
  ⟨h.even, h.asleep, h.naps, h.sorted, h.past, h.placed⟩

theorem paced_goto {s' : Execution} (h : Paced s) {t : Nat} {p : Point} (hclock : s'.clock = s.clock)
    (hlog : s'.log = s.log) (hpoint : s'.point = Function.update s.point t p)
    (hawake : s.clock.asleep t = false) (hrounds : p.rounds = (s.point t).rounds) : Paced s' := by
  refine ⟨hclock ▸ h.even, fun u hu => ?_, fun u => ?_, hlog ▸ h.sorted, ?_, hlog ▸ h.placed⟩
  · rw [hclock] at hu
    have hut : u ≠ t := by
      rintro rfl
      exact Bool.noConfusion (hawake.symm.trans hu)
    rw [hpoint, Function.update_of_ne hut]
    exact h.asleep u hu
  · rw [hclock, hlog, h.naps u, hpoint]
    by_cases hut : u = t
    · subst hut
      rw [Function.update_self, hrounds]
    · rw [Function.update_of_ne hut]
  · rw [hclock, hlog]
    exact h.past

theorem paced_sleeps (h : Paced s) {t intHash yields : Nat} (hp : s.point t = .draining intHash yields) :
    Paced { s.goto t (.yielding intHash yields) with clock := s.clock.yield t } := by
  refine ⟨h.even.yield (h.awake hp), fun u hu => ?_, fun u => ?_, h.sorted, h.past, h.placed⟩
  · by_cases hut : u = t
    · subst hut
      exact ⟨intHash, yields, s.goto_self u _⟩
    · have hasleep : s.clock.asleep u = true := by
        rwa [← Function.update_of_ne hut true s.clock.asleep]
      obtain ⟨intHash', yields', hp'⟩ := h.asleep u hasleep
      exact ⟨intHash', yields', (s.goto_other _ hut).trans hp'⟩
  · show Function.update s.clock.naps t (s.clock.naps t + 1) u = yielded u s.log + _
    by_cases hut : u = t
    · subst hut
      rw [Function.update_self, s.goto_self u, h.naps u, hp]
      rfl
    · rw [Function.update_of_ne hut, s.goto_other _ hut, h.naps u]

theorem paced_ticks (h : Paced s) : Paced { s with clock := s.clock.tick } where
  even := h.even.tick
  asleep _ hu := nomatch hu
  naps := h.naps
  sorted := h.sorted
  past hit hmem := Nat.le_succ_of_le (h.past hit hmem)
  placed := h.placed

theorem paced_records (h : Paced s) {t intHash yields : Nat}
    (hp : s.point t = .draining intHash yields) : Paced (s.leave t intHash yields) := by
  have hawake := h.awake hp
  have hnow : s.clock.now = yielded t s.log + yields + s.clock.missed t := by
    rw [h.even.now_eq hawake, h.naps t, hp]
    rfl
  have hyielded : ∀ u, yielded u (s.leave t intHash yields).log =
      yielded u s.log + if t = u then yields else 0 := fun u => yielded_append u s.log _
  refine ⟨h.even, fun u hu => ?_, fun u => ?_, ?_, fun hit hmem => ?_, fun u k hit hk => ?_⟩
  · have hut : u ≠ t := by
      rintro rfl
      exact Bool.noConfusion (hawake.symm.trans hu)
    obtain ⟨intHash', yields', hp'⟩ := h.asleep u hu
    exact ⟨intHash', yields', (s.goto_other _ hut).trans hp'⟩
  · show s.clock.naps u = _ + ((s.goto t .outside).point u).rounds
    rw [hyielded, h.naps u]
    by_cases hut : u = t
    · subst hut
      rw [s.goto_self u, hp, if_pos rfl]
      rfl
    · rw [s.goto_other _ hut, if_neg (Ne.symm hut), Nat.add_zero]
  · refine List.pairwise_append.mpr ⟨h.sorted, List.pairwise_singleton _ _, fun a ha b hb => ?_⟩
    rw [List.mem_singleton.mp hb]
    exact h.past a ha
  · rcases List.mem_append.mp hmem with hmem | hmem
    · exact h.past hit hmem
    · rw [List.mem_singleton.mp hmem]
      exact Nat.le_refl _
  · have hlog : passedBy u (s.leave t intHash yields).log =
        if t = u then passedBy u s.log ++ [s.hit t intHash yields] else passedBy u s.log :=
      passedBy_append u s.log _
    rw [hlog] at hk ⊢
    by_cases htu : t = u
    · subst htu
      rw [if_pos rfl] at hk ⊢
      rcases getElem?_concat hk with ⟨hlt, hk⟩ | ⟨hlast, hlog⟩
      · rw [List.take_append_of_le_length (Nat.succ_le_of_lt hlt)]
        exact h.placed t k hit hk
      · subst hlast hlog
        rw [List.take_of_length_le (by simp), List.map_append, List.sum_append, List.map_singleton,
          List.sum_singleton]
        exact hnow
    · rw [if_neg htu] at hk ⊢
      exact h.placed u k hit hk

/-- Whatever happens, the yields of the children keep pace with the periods. -/
theorem paced_step {act : Act} {calls : List Call} {s' : Execution} (hout : s.StepOutcome act calls s')
    (h : Paced s) : Paced s' := by
  cases hout with
  | idle _ => exact h
  | creates t => exact paced_target h _
  | skips _ _ _ => exact h
  | counts _ _ _ => exact paced_target h _
  | enters t intHash _ hzero _ =>
    refine paced_goto (t := t) (p := .draining intHash 0) h rfl rfl rfl ?_ (by rw [hzero]; rfl)
    cases hasleep : s.clock.asleep t with
    | false => rfl
    | true =>
      obtain ⟨intHash', yields', hp'⟩ := h.asleep t hasleep
      rw [hzero] at hp'
      cases hp'
  | sleeps t intHash yields hpoint _ => exact paced_sleeps h hpoint
  | wakes t intHash yields hpoint hawake =>
    exact paced_goto h rfl rfl rfl hawake (by rw [hpoint]; rfl)
  | records t intHash yields hpoint _ => exact paced_records h hpoint
  | ticks => exact paced_ticks h

end Steps

theorem paced_run (acts : List Act) (a : Target) : Paced (run Execution.step acts (.start a)) :=
  run_of_inv (fun act s h _ => paced_step (s.step_outcome act) h) (paced_start a)
    (meets_true acts _)

/-! ## The rows of the children -/

/-- What child `t` does at its key point number `k`, reading the rows of the table. -/
def rowAccess (numKp : Nat) (table : Nat → Nat) (t k : Nat) : Access :=
  ⟨t, (t - 1) * numKp + k, table ((t - 1) * numKp + k)⟩

def AlongRows (numKp : Nat) (table : Nat → Nat) (s : Execution) (a : Target) : Prop :=
  (∀ hit ∈ s.log, hit.access.schedTid ≠ 0) ∧
  ∀ t, t ≠ 0 → (passedBy t s.log).map (·.access) = (List.range (a.mapTid t)).map (rowAccess numKp table t)

section Rows
variable {numTd numKp : Nat} {table : Nat → Nat} {s : Execution} {a : Target}

theorem alongRows_congr {s' : Execution} {a' : Target} (h : AlongRows numKp table s a)
    (hlog : s'.log = s.log) (hmapTid : ∀ t, t ≠ 0 → a'.mapTid t = a.mapTid t) :
    AlongRows numKp table s' a' := by
  refine ⟨fun hit hmem => h.1 hit (hlog ▸ hmem), fun t ht => ?_⟩
  rw [hlog, hmapTid t ht, h.2 t ht]

theorem alongRows_records (hsim : Sim numKp table s a) (h : AlongRows numKp table s a)
    {t intHash yields : Nat} (hp : s.point t = .draining intHash yields)
    (hdrained : s.target.kpYield (s.slot t) = 0) :
    AlongRows numKp table (s.leave t intHash yields) (a.hit t intHash) := by
  have hin := hsim.inside t intHash yields (by rw [hp]; rfl)
  obtain ⟨_, _, hidx⟩ := hsim.untouched.registered t hin.registered
  have hslot : s.slot t = (t - 1) * numKp + a.mapTid t := (hsim.slot_eq t).trans hidx
  have hyields : yields = table ((t - 1) * numKp + a.mapTid t) := by
    rw [← hsim.untouched.rows t _ hin.pos (Nat.le_refl _) hin.room, ← hidx, hin.drained,
      ← hsim.slot_eq, hdrained, Nat.zero_add]
  have haccess : (s.hit t intHash yields).access = rowAccess numKp table t (a.mapTid t) := by
    show (⟨t, s.slot t, yields⟩ : Access) = _
    rw [hslot, hyields]
    rfl
  refine ⟨fun hit hmem => ?_, fun u hu => ?_⟩
  · rcases List.mem_append.mp hmem with hmem | hmem
    · exact h.1 hit hmem
    · rw [List.mem_singleton.mp hmem, haccess]
      exact hin.pos
  · have hlog : passedBy u (s.leave t intHash yields).log =
        if t = u then passedBy u s.log ++ [s.hit t intHash yields] else passedBy u s.log :=
      passedBy_append u s.log _
    rw [hlog, Target.hit_mapTid]
    by_cases htu : t = u
    · subst htu
      rw [if_pos rfl, Function.update_self, List.map_append, h.2 t hu, List.map_singleton, haccess,
        List.range_succ, List.map_append, List.map_singleton]
    · rw [if_neg htu, Function.update_of_ne (Ne.symm htu), h.2 u hu]

theorem alongRows_step {act : Act} {calls : List Call} {s' : Execution}
    (hout : s.StepOutcome act calls s') (hsim : Sim numKp table s a) (h : AlongRows numKp table s a) :
    AlongRows numKp table s' (performAll calls a).1 := by
  cases hout with
  | idle _ => exact h
  | creates t =>
    rw [performAll_singleton]
    refine alongRows_congr h rfl fun u _ => ?_
    show (instrPthreadCall t a).mapTid u = a.mapTid u
    unfold instrPthreadCall
    split <;> rfl
  | skips t intHash hcounted =>
    rw [performAll_singleton, Call.perform, instrLOCString,
      if_neg (by rw [← hsim.loopUnwinded_eq, hcounted]; decide)]
    exact h
  | counts intHash _ hcounted =>
    rw [performAll_singleton, Call.perform, instrLOCString,
      if_pos (by rw [← hsim.loopUnwinded_eq, hcounted]), if_pos rfl]
    exact alongRows_congr h rfl fun u hu => Function.update_of_ne hu _ _
  | enters _ _ _ _ _ => exact alongRows_congr h rfl fun _ _ => rfl
  | sleeps _ _ _ _ _ => exact alongRows_congr h rfl fun _ _ => rfl
  | wakes _ _ _ _ _ => exact alongRows_congr h rfl fun _ _ => rfl
  | records t intHash yields hpoint hdrained =>
    have hin := hsim.inside t intHash yields (by rw [hpoint]; rfl)
    rw [performAll_singleton, perform_counted hin.pos hin.counted]
    exact alongRows_records hsim h hpoint hdrained
  | ticks => exact alongRows_congr h rfl fun _ _ => rfl

/-- The execution keeps to the rows, and its calls are those of a target whose calls are one
step each. -/
theorem alongRows_run {acts : List Act} (hacts : Meets Execution.step (Act.InRow numTd) acts s)
    (hsim : Sim numKp table s a) (h : AlongRows numKp table s a) :
    AlongRows numKp table (run Execution.step acts s) (performAll (s.linear acts) a).1 := by
  induction acts generalizing s a with
  | nil => exact h
  | cons act acts ih =>
    obtain ⟨hact, hacts⟩ := hacts
    have hout := Execution.step_outcome act s
    rw [Execution.linear, performAll_append]
    exact ih hacts (sim_step hout hact hsim).2.1 (alongRows_step hout hsim h)

end Rows

structure Fresh (a : Target) : Prop where
  untouched : Untouched a.numKp a.kpYield a
  mapTid_eq : ∀ t, a.mapTid t = 0
  next : a.curSyncOrder = 1
  empty : ∀ i, a.kpOrder i = 0 ∧ a.kpLoc i = 0

theorem fresh_traceBegin (siN siM loopUnwindedNum : Nat) (kp : Nat → Nat) :
    Fresh (traceBegin siN siM loopUnwindedNum kp) :=
  ⟨untouched_traceBegin siN siM loopUnwindedNum kp, fun _ => rfl, rfl, fun _ => ⟨rfl, rfl⟩⟩

theorem Fresh.sim {a : Target} (h : Fresh a) : Sim a.numKp a.kpYield (.start a) a :=
  sim_start h.untouched fun t _ => by
    rw [h.mapTid_eq]
    exact Nat.zero_le _

theorem Fresh.alongRows {a : Target} (h : Fresh a) : AlongRows a.numKp a.kpYield (.start a) a := by
  refine ⟨fun _ hmem => (nomatch hmem), fun t _ => ?_⟩
  rw [h.mapTid_eq]
  rfl

section Placed
variable {numTd : Nat} {a : Target} {acts : List Act} {s : Execution}
  (hfresh : Fresh a) (hs : s = .start a) (hacts : Meets Execution.step (Act.InRow numTd) acts s)
include hfresh hs hacts

theorem alongRows_of_inRow :
    AlongRows a.numKp a.kpYield (run Execution.step acts s) (performAll (s.linear acts) a).1 := by
  subst hs
  exact alongRows_run hacts hfresh.sim hfresh.alongRows

theorem passed_by_child {hit : Hit} (hhit : hit ∈ (run Execution.step acts s).log) :
    hit.access.schedTid ≠ 0 :=
  (alongRows_of_inRow hfresh hs hacts).1 hit hhit

/-- The accesses of a child are those of its row up to some key point. -/
theorem accesses_of_child {t : Nat} (ht : t ≠ 0) :
    (passedBy t (run Execution.step acts s).log).map (·.access) =
      (List.range (passedBy t (run Execution.step acts s).log).length).map
        (rowAccess a.numKp a.kpYield t) := by
  have hrows := (alongRows_of_inRow hfresh hs hacts).2 t ht
  have hlen := congrArg List.length hrows
  rw [List.length_map, List.length_map, List.length_range] at hlen
  rw [hrows, hlen]

theorem access_of_child {t k : Nat} {hit : Hit} (ht : t ≠ 0)
    (hhit : (passedBy t (run Execution.step acts s).log)[k]? = some hit) :
    hit.access = rowAccess a.numKp a.kpYield t k := by
  have hrows := congrArg (·[k]?) (accesses_of_child hfresh hs hacts ht)
  have hlt := (List.getElem?_eq_some_iff.mp hhit).1
  simpa only [List.getElem?_map, hhit, List.getElem?_range hlt, Option.map_some,
    Option.some.injEq] using hrows

/-- The yields of the row up to the key point, and the period ends the child has missed. -/
theorem period_of_child {t k : Nat} {hit : Hit} (ht : t ≠ 0)
    (hhit : (passedBy t (run Execution.step acts s).log)[k]? = some hit) :
    hit.period = ((List.range (k + 1)).map fun i =>
      a.kpYield ((t - 1) * a.numKp + i)).sum + hit.missed := by
  have hpaced : Paced (run Execution.step acts s) := hs ▸ paced_run acts _
  have hyields : (passedBy t (run Execution.step acts s).log).map (·.access.yields) =
      (List.range (passedBy t (run Execution.step acts s).log).length).map fun i =>
        a.kpYield ((t - 1) * a.numKp + i) := by
    have hrows := congrArg (List.map (·.yields)) (accesses_of_child hfresh hs hacts ht)
    rwa [List.map_map, List.map_map] at hrows
  rw [hpaced.placed t k hit hhit, List.map_take, hyields, ← List.map_take, List.take_range,
    Nat.min_eq_left (List.getElem?_eq_some_iff.mp hhit).1]

end Placed

end Period.Runtime
