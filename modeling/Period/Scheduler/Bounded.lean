import Period.Foundation.SortedParts
import Period.Scheduler.Serial

/-!
# The bounded-period scheduler

`BPSched` goes through the sizes of the periods and, for each list of sizes, through the
schedules with these sizes. The pool holds the key points that no period has taken; the recursion
of `_next_sched` shares it.
-/

namespace Period.Scheduler

open Enumeration Parts Rearrangement SortedParts
set_option autoImplicit false

structure BPSched extends Sched where
  pattern : List Nat
  deriving DecidableEq, Repr

namespace BPSched

def initPattern (nkp np : Nat) : List Nat := List.replicate (np - 1) 1 ++ [nkp + 1 - np]

/-- `BPSched._next_pattern`. A pattern is never empty. -/
def nextPattern : List Nat → Option (List Nat)
  | [] => none
  | [_] => none
  | k :: l :: pattern =>
    match nextPattern (l :: pattern) with
    | some subPattern => some (k :: subPattern)
    | none =>
      let nkp := (l :: pattern).sum
      if nkp = (l :: pattern).length then none
      else some ((k + 1) :: initPattern (nkp - 1) (l :: pattern).length)

/-- `while kp_pool[n] <= 0: n += 1`. -/
def nextThread (kpPool : List Nat) (n : Nat) : Except Halt Nat :=
  ((List.range' n (kpPool.length - n)).find? fun i => 0 < kpsOf kpPool i).elim (throw .indexError) pure

/-- `while len(rlt[-1]) < pattern[p]`: the period, with `n` and the pool after it. -/
def fillPeriod : Nat → Nat → List Nat → Except Halt (List Nat × Nat × List Nat)
  | 0, n, kpPool => return ([], n, kpPool)
  | left + 1, n, kpPool => do
    let n ← nextThread kpPool n
    let (period, m, kpPool) ← fillPeriod left n (useUp kpPool n)
    return (n :: period, m, kpPool)

/-- The outer loop of `BPSched._init_sched`. -/
def initSchedFrom : List Nat → Nat → List Nat → Except Halt (Schedule × List Nat)
  | [], _, kpPool => return ([], kpPool)
  | p :: pattern, n, kpPool => do
    let (period, n, kpPool) ← fillPeriod p n kpPool
    let (sched, kpPool) ← initSchedFrom pattern n kpPool
    return (period :: sched, kpPool)

/-- `BPSched._init_sched`, with the pool it leaves. -/
def initSched (pattern kpPool : List Nat) : Except Halt (Schedule × List Nat) :=
  initSchedFrom pattern 0 kpPool

def giveBack (kpPool : List Nat) (i : Nat) : List Nat := kpPool.modify i (· + 1)

/-- The loop `for i in range(pattern[0] - 1, -1, -1)`: the period and the pool after the exchange. -/
def exchangeLast (n : Nat) (period kpPool : List Nat) : Nat → Except Halt (Option (List Nat × List Nat))
  | 0 => return none
  | i + 1 =>
    match period[i]? with
    | none => throw .indexError
    | some a =>
      match (List.range' (a + 1) (n - (a + 1))).find? fun b => 0 < kpsOf kpPool b with
      | some b => return some (period.set i b, useUp (giveBack kpPool a) b)
      | none => exchangeLast n period kpPool i

/-- `BPSched._next_sched`, with the pool it leaves. -/
def nextSched (n : Nat) : Schedule → List Nat → List Nat → Except Halt (Option Schedule × List Nat)
  | _, [], kpPool => return (none, kpPool)
  | _, [_], kpPool => return (none, kpPool)
  | period :: period' :: sched, p :: q :: pattern, kpPool => do
    let (subSched, kpPool) ← nextSched n (period' :: sched) (q :: pattern) kpPool
    match subSched with
    | some subSched => return (some (period :: subSched), kpPool)
    | none =>
      let kpPool := period'.foldl giveBack kpPool
      match ← exchangeLast n period kpPool p with
      | none => return (none, kpPool)
      | some (period, kpPool) =>
        let (rest, kpPool) ← initSched (q :: pattern) kpPool
        return (some (period :: rest), kpPool)
  | _, _, _ => throw .indexError

def init (n : Nat) (kps : List Nat) (p : Nat) (sched : Schedule) : Except Halt BPSched := do
  let base ← Sched.initHelper n kps p sched
  if base.sched.any (·.isEmpty) then throw (.valueError "Invalid period(s) in the given sched!")
  if base.sched.length ≥ base.p ∧ base.kpPool.sum ≠ 0 then
    throw (.valueError "The given sched can't host all key points!")
  let given := base.sched.map List.length
  if base.sched ≠ [] ∧ base.kpPool.sum = 0 then
    return { base with sched := normSched base.sched, pattern := given }
  let subPattern := initPattern base.kpPool.sum (base.p - base.sched.length)
  let (subSched, kpPool) ← initSched subPattern base.kpPool
  return { base with
    sched := normSched (base.sched ++ subSched)
    pattern := given ++ subPattern
    kpPool := kpPool }

def nextIter (s : BPSched) : Except Halt BPSched := do
  let (sched, kpPool) ← nextSched s.n s.sched s.pattern s.kpPool
  match sched with
  | some sched => return { s with sched := sched, kpPool := kpPool }
  | none =>
    match nextPattern s.pattern with
    | none => throw .stopIteration
    | some pattern =>
      let (sched, kpPool) ← initSched pattern s.kps
      return { s with sched := sched, pattern := pattern, kpPool := kpPool }

end BPSched

end Period.Scheduler
