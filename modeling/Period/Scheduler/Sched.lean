import Mathlib.Algebra.GroupWithZero.Nat
import Mathlib.Data.Finset.Sort
import Mathlib.Data.Finset.Range

/-!
# The state shared by all scheduling methods

`Sched._init_helper` and the yield pattern of `BPSched`. A schedule is a list of
periods, a period a list of thread numbers, one for each key point it holds.
Counts are naturals: every subtraction of the source is either guarded by a
test or used only where a negative result acts like zero.
-/

namespace Period.Scheduler

set_option autoImplicit false

/-- Why a call does not return normally. All but the last are exceptions of the source;
`outOfFuel` says that a loop of the model was given too few rounds. -/
inductive Halt where
  | valueError (msg : String)
  | indexError
  | attributeError
  | stopIteration
  | outOfFuel
  deriving DecidableEq, Repr

abbrev Schedule := List (List Nat)

/-- Key point `k` of thread `t` is passed in period `j`. -/
def LiesIn (sched : Schedule) (t k j : Nat) : Prop :=
  (sched.take j).flatten.count t ≤ k ∧ k < (sched.take (j + 1)).flatten.count t

/-- The class variables set up by `Sched._init_helper`. -/
structure Sched where
  n : Nat
  kps : List Nat
  p : Nat
  sched : Schedule
  kpPool : List Nat
  deriving DecidableEq, Repr

/-- `kps[i]`. -/
def kpsOf (kps : List Nat) (i : Nat) : Nat := kps.getD i 0

theorem kpsOf_pos_lt {kps : List Nat} {i : Nat} (h : 0 < kpsOf kps i) : i < kps.length := by
  by_contra hge
  rw [kpsOf, List.getD_eq_getElem?_getD, List.getElem?_eq_none (by omega)] at h
  exact Nat.lt_irrefl 0 h

/-- One more key point of thread `i` is used up. -/
def useUp (kps : List Nat) (i : Nat) : List Nat := kps.modify i (· - 1)

/-- `while len(kps) < n: kps.append(kps[-1])`. -/
def padKps (n : Nat) (kps : List Nat) : Except Halt (List Nat) :=
  if kps.length < n then
    match kps.getLast? with
    | none => .error .indexError
    | some k => .ok (kps ++ List.replicate (n - kps.length) k)
  else .ok kps

theorem padKps_length {n : Nat} {kps kps' : List Nat} (hlen : kps.length ≤ n)
    (h : padKps n kps = .ok kps') : kps'.length = n := by
  unfold padKps at h
  split at h
  · split at h
    · cases h
    · cases h
      simp
      omega
  · cases h
    omega

def Sched.initHelper (n : Nat) (kps : List Nat) (p : Nat) (sched : Schedule) :
    Except Halt Sched := do
  let n := max n kps.length
  let n := if sched.isEmpty then n else max n ((sched.flatten.foldl max 0) + 1)
  let p := max p sched.length
  let kps ← padKps n kps
  let pool : List Int := sched.flatten.foldl (fun pool j => pool.modify j (· - 1)) (kps.map Int.ofNat)
  -- a thread the given periods use more often than `kps` says gets that many key points
  let kps' := (kps.zip pool).map fun (k, q) => if q < 0 then ((k : Int) - q).toNat else k
  return { n, kps := kps', p, sched, kpPool := pool.map Int.toNat }

def normSched (sched : Schedule) : Schedule := sched.map fun period => period.mergeSort (· ≤ ·)

/-- One period of `get_yield_pattern`: the key points of the period are passed, then the
next key point of every thread has to wait one period longer. Threads that are
done have no next entry: `List.modify` leaves their row alone, as the swallowed
`IndexError` does. -/
def yieldPeriod (n : Nat) : List Nat × List (List Nat) → List Nat → List Nat × List (List Nat)
  | (idx, pattern), period =>
    let idx := period.foldl (fun idx t => idx.modify t (· + 1)) idx
    (idx, (List.range n).foldl
      (fun pattern i => pattern.modify i fun row => row.modify (idx.getD i 0) (· + 1)) pattern)

def getYieldPattern (n : Nat) (kps : List Nat) (sched : Schedule) : List (List Nat) :=
  (sched.foldl (yieldPeriod n)
    (List.replicate n 0, (List.range n).map fun i => List.replicate (kpsOf kps i) 0)).2

end Period.Scheduler
