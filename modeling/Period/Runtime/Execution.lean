import Period.Foundation.Aligned
import Period.Foundation.Runs
import Period.Runtime.Target

/-!
# The target under deadline scheduling

The children are deadline-driven tasks with periods that begin together. `instr_LOC_string`
drains the count of its key point, one `sched_yield()` a round, and each `sched_yield()` lasts
until the next period begins. Between two accesses of one child the others may do anything;
a step is one access, or the end of a period. How long a period is, is left open: one may
end while children are still awake.
-/

namespace Period.Runtime

open Aligned Runs
set_option autoImplicit false

/-- Where a thread stands in `instr_LOC_string`. -/
inductive Point where
  | outside
  /-- `while(1)`, after so many rounds -/
  | draining (intHash yields : Nat)
  /-- `sched_yield()` of the next round -/
  | yielding (intHash yields : Nat)
  deriving DecidableEq, Repr

/-- A key point that a child has passed: the access, and when it was. -/
structure Hit where
  access : Access
  intHash : Nat
  period : Nat
  /-- How many period ends the child had missed. -/
  missed : Nat
  deriving DecidableEq, Repr

structure Execution where
  target : Target
  point : Nat → Point
  clock : Clock Nat
  log : List Hit

def Execution.start (s : Target) : Execution where
  target := s
  point := fun _ => .outside
  clock := Clock.start
  log := []

inductive Act where
  /-- `instr_PthreadCall` -/
  | create (t : Nat)
  /-- `instr_LOC_string` up to the loop -/
  | call (t intHash : Nat)
  | yield (t : Nat)
  /-- `kpYield[idx_kpMap[thisTid]]--` -/
  | wake (t : Nat)
  /-- `instr_LOC_string` from the end of the loop -/
  | record (t : Nat)
  /-- A period ends. -/
  | tick
  deriving DecidableEq, Repr

namespace Execution

def goto (s : Execution) (t : Nat) (p : Point) : Execution :=
  { s with point := Function.update s.point t p }

theorem goto_self (s : Execution) (t : Nat) (p : Point) : (s.goto t p).point t = p :=
  Function.update_self ..

theorem goto_other (s : Execution) (p : Point) {t u : Nat} (hut : u ≠ t) :
    (s.goto t p).point u = s.point u :=
  Function.update_of_ne hut ..

def slot (s : Execution) (t : Nat) : Nat := s.target.idxKpMap t

def count (s : Execution) (t : Nat) : Execution :=
  { s with target := { s.target with
    mapTid := Function.update s.target.mapTid t (s.target.mapTid t + 1) } }

/-- `kpYield[idx_kpMap[thisTid]]--`. -/
def drain (s : Execution) (t : Nat) : Execution :=
  { s with target := { s.target with
    kpYield := Function.update s.target.kpYield (s.slot t) (s.target.kpYield (s.slot t) - 1) } }

def hit (s : Execution) (t intHash yields : Nat) : Hit where
  access := ⟨t, s.slot t, yields⟩
  intHash := intHash
  period := s.clock.now
  missed := s.clock.missed t

def leave (s : Execution) (t intHash yields : Nat) : Execution :=
  { s.goto t .outside with
    target := { s.target with
      kpLoc := Function.update s.target.kpLoc (s.slot t) intHash
      kpOrder := Function.update s.target.kpOrder (s.slot t) s.target.curSyncOrder
      curSyncOrder := (s.target.curSyncOrder + 1) % 65536
      idxKpMap := Function.update s.target.idxKpMap t (advance s.target t) }
    log := s.log ++ [s.hit t intHash yields] }

/-- An act that cannot happen now changes nothing. -/
def step (a : Act) (s : Execution) : Execution :=
  match a with
  | .create t => { s with target := instrPthreadCall t s.target }
  | .call t intHash =>
    match s.point t with
    | .outside =>
      if loopUnwinded s.target t intHash then
        if t = 0 then s.count t else (s.count t).goto t (.draining intHash 0)
      else s
    | _ => s
  | .yield t =>
    match s.point t with
    | .draining intHash yields =>
      if 0 < s.target.kpYield (s.slot t) then
        { s.goto t (.yielding intHash yields) with clock := s.clock.yield t }
      else s
    | _ => s
  | .wake t =>
    match s.point t with
    | .yielding intHash yields =>
      if s.clock.asleep t then s else (s.drain t).goto t (.draining intHash (yields + 1))
    | _ => s
  | .record t =>
    match s.point t with
    | .draining intHash yields =>
      if s.target.kpYield (s.slot t) = 0 then s.leave t intHash yields else s
    | _ => s
  | .tick => { s with clock := s.clock.tick }

end Execution

/-- Children have numbers from `1` to `num_td`, register before their first key point and
count no more key points than their rows have slots. -/
def Act.InRow (numTd : Nat) : Act → Execution → Prop
  | .create t, _ => 1 ≤ t ∧ t ≤ numTd
  | .call t intHash, s =>
    t = 0 ∨ s.target.myTidMap t = true ∧
      (s.point t = .outside → loopUnwinded s.target t intHash = true →
        s.target.mapTid t < s.target.numKp)
  | _, _ => True

instance (numTd : Nat) : ∀ (a : Act) (s : Execution), Decidable (a.InRow numTd s)
  | .create _, _ => inferInstanceAs (Decidable (_ ∧ _))
  | .call _ _, _ => inferInstanceAs (Decidable (_ ∨ _))
  | .yield _, _ => isTrue trivial
  | .wake _, _ => isTrue trivial
  | .record _, _ => isTrue trivial
  | .tick, _ => isTrue trivial

/-- The calls that take effect with an act, seen as one step each. -/
def Execution.commits (a : Act) (s : Execution) : List Call :=
  match a with
  | .create t => [.pthreadCall t]
  | .call t intHash =>
    if s.point t = .outside ∧ (t = 0 ∨ loopUnwinded s.target t intHash = false) then
      [.locString t intHash]
    else []
  | .record t =>
    match s.point t with
    | .draining intHash _ =>
      if s.target.kpYield (s.slot t) = 0 then [.locString t intHash] else []
    | _ => []
  | _ => []

/-- The calls of an execution in the order in which they take effect. -/
def Execution.linear (s : Execution) : List Act → List Call
  | [] => []
  | a :: acts => s.commits a ++ (step a s).linear acts

namespace Execution

/-- The three kinds of acts: nothing happens, a call takes effect, or a child goes on in the loop. -/
inductive StepOutcome (s : Execution) : Act → List Call → Execution → Prop where
  | idle (a : Act) : StepOutcome s a [] s
  | creates (t : Nat) :
      StepOutcome s (.create t) [.pthreadCall t] { s with target := instrPthreadCall t s.target }
  | skips (t intHash : Nat) (hcounted : loopUnwinded s.target t intHash = false) :
      StepOutcome s (.call t intHash) [.locString t intHash] s
  | counts (intHash : Nat) (hout : s.point 0 = .outside)
      (hcounted : loopUnwinded s.target 0 intHash = true) :
      StepOutcome s (.call 0 intHash) [.locString 0 intHash] (s.count 0)
  | enters (t intHash : Nat) (hpos : t ≠ 0) (hout : s.point t = .outside)
      (hcounted : loopUnwinded s.target t intHash = true) :
      StepOutcome s (.call t intHash) [] ((s.count t).goto t (.draining intHash 0))
  | sleeps (t intHash yields : Nat) (hpoint : s.point t = .draining intHash yields)
      (hleft : 0 < s.target.kpYield (s.slot t)) :
      StepOutcome s (.yield t) []
        { s.goto t (.yielding intHash yields) with clock := s.clock.yield t }
  | wakes (t intHash yields : Nat) (hpoint : s.point t = .yielding intHash yields)
      (hawake : s.clock.asleep t = false) :
      StepOutcome s (.wake t) [] ((s.drain t).goto t (.draining intHash (yields + 1)))
  | records (t intHash yields : Nat) (hpoint : s.point t = .draining intHash yields)
      (hdrained : s.target.kpYield (s.slot t) = 0) :
      StepOutcome s (.record t) [.locString t intHash] (s.leave t intHash yields)
  | ticks : StepOutcome s .tick [] { s with clock := s.clock.tick }

theorem step_outcome (a : Act) (s : Execution) : StepOutcome s a (s.commits a) (s.step a) := by
  cases a with
  | create t => exact StepOutcome.creates t
  | tick => exact StepOutcome.ticks
  | call t intHash =>
    cases hpoint : s.point t with
    | outside =>
      simp only [step, commits, hpoint, true_and]
      cases hcounted : loopUnwinded s.target t intHash with
      | false =>
        rw [if_pos (Or.inr rfl), if_neg Bool.false_ne_true]
        exact StepOutcome.skips t intHash hcounted
      | true =>
        rw [if_pos rfl]
        by_cases ht : t = 0
        · subst ht
          rw [if_pos rfl, if_pos (Or.inl rfl)]
          exact StepOutcome.counts intHash hpoint hcounted
        · rw [if_neg ht, if_neg (by simp [ht])]
          exact StepOutcome.enters t intHash ht hpoint hcounted
    | draining _ _ =>
      simp only [step, commits, hpoint]
      exact StepOutcome.idle _
    | yielding _ _ =>
      simp only [step, commits, hpoint]
      exact StepOutcome.idle _
  | yield t =>
    simp only [step, commits]
    split
    · next intHash yields hpoint =>
      split
      · next hleft => exact StepOutcome.sleeps t intHash yields hpoint hleft
      · exact StepOutcome.idle _
    · exact StepOutcome.idle _
  | wake t =>
    simp only [step, commits]
    split
    · next intHash yields hpoint =>
      cases hasleep : s.clock.asleep t with
      | true =>
        rw [if_pos rfl]
        exact StepOutcome.idle _
      | false =>
        rw [if_neg (by decide)]
        exact StepOutcome.wakes t intHash yields hpoint hasleep
    · exact StepOutcome.idle _
  | record t =>
    simp only [step, commits]
    split
    · next intHash yields hpoint =>
      split
      · next hdrained => exact StepOutcome.records t intHash yields hpoint hdrained
      · exact StepOutcome.idle _
    · exact StepOutcome.idle _

end Execution

end Period.Runtime
