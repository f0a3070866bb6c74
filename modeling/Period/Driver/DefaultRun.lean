import Mathlib.Order.Bounds.Basic
import Period.Driver.AsanError
import Period.Driver.Testing
import Period.Driver.ZeroNum

/-!
# Before the tests

The dry run and the default runs say what the main loop starts with. A default run that shows
more threads or key points than were known is repeated; the third one has to settle.
-/

namespace Period.Driver

open Period.Scheduler
set_option autoImplicit false

inductive Exit where
  | aborted
  | undecodable
  | tooManyThreads
  | tooManySchedulingPoints
  | tooManyKeyPoints
  | defaultSchedule
  | raised (e : Halt)
  deriving DecidableEq, Repr

structure Arguments where
  bugDepth : Nat
  fullDeepRun : Bool
  noPrefixRun : Bool
  runsLimit : Nat

/-- The variables of the script, with the pattern that is in the segment. -/
structure Preparation where
  N : Nat
  M : Nat
  zeroInKP : Nat
  kpMaxNumArray : Nat → Nat
  zeroPattern : List (List Nat)

structure DefaultRun where
  returncode : Int
  reading : Reading

structure DryRun extends DefaultRun where
  errdata : ByteArray

def DefaultRun.isNormal (run : DefaultRun) : Bool :=
  run.returncode = 0 ∨ run.returncode = 1 ∨ run.returncode = 6 ∨ run.returncode = -11

def Reading.counts (r : Reading) : List Nat := (List.range SHARE_THREAD_NUM).map r.kpNumArray

/-- A loop over the first `n` entries of arrays with an entry for each thread. -/
def overThreads {α : Type} (n : Nat) (x : α) : Except Halt α :=
  if SHARE_THREAD_NUM < n then .error .indexError else .ok x

/-- `check_and_update_kpNumMaxArray`, which has the body of `new_max_kpNumArray`. -/
def checkAndUpdateKpNumMaxArray (kpNumArray kpMaxNumArray : Nat → Nat) (n : Nat) :
    Except Halt (Bool × (Nat → Nat)) :=
  overThreads n (newMaxKpNumArray kpNumArray kpMaxNumArray n)

/-- The loop behind a default run. What the first one shows replaces what the dry run has shown. -/
def takeOver (returnNormal : Nat) (kpNumArray kpMaxNumArray : Nat → Nat) (n : Nat) : Except Halt (Nat → Nat) :=
  overThreads n fun i =>
    if i < n ∧ (returnNormal = 0 ∧ 1 ≤ kpNumArray i ∨ kpNumArray i > kpMaxNumArray i) then kpNumArray i
    else kpMaxNumArray i

def zeroPattern (N M zeroInKP : Nat) : List (List Nat) :=
  if N ≤ 20 then
    (List.range (N + zeroInKP)).map fun row => (List.range M).map fun i => if 1 ≤ i then 0 else row
  else List.replicate (N + zeroInKP) (List.replicate M 0)

/-- What a dry run without an error leaves in the segment. -/
def checkDryRun (dry : DryRun) : Except Exit Reading :=
  match dry.errdata.utf8Decode? with
  | none => .error .undecodable
  | some context =>
    if dry.isNormal = false then .error .aborted
    else if dry.returncode = 1 ∧ contains context.toList ": command not found" = true then .error .aborted
    else .ok dry.reading

def readDryRun (dry : Reading) : Except Exit Preparation :=
  if SHARE_THREAD_NUM < dry.A then .error .tooManyThreads
  else if SHARE_ARRAY_SIZE < dry.B then .error .tooManySchedulingPoints
  else do
    let zeroInKP ← (zeroNum dry.counts (List.replicate SHARE_THREAD_NUM 0) dry.A).mapError .raised
    let (_, kpMaxNumArray) ←
      (checkAndUpdateKpNumMaxArray dry.kpNumArray (fun _ => 0) (dry.A + zeroInKP)).mapError .raised
    if SHARE_ARRAY_SIZE < dry.B * (dry.A + zeroInKP) then .error .tooManyKeyPoints
    else return ⟨dry.A, dry.B, zeroInKP, kpMaxNumArray, zeroPattern dry.A dry.B zeroInKP⟩

def defaultTurn (returnNormal : Nat) (run : DefaultRun) (p : Preparation) : Except Halt (Nat × Preparation) := do
  let r := run.reading
  let kpMaxNumArray ← takeOver returnNormal r.kpNumArray p.kpMaxNumArray (p.N + p.zeroInKP)
  if run.isNormal then
    let (again, kpMaxNumArray) ←
      if r.A > p.N ∨ r.B > p.M then pure (true, kpMaxNumArray)
      else checkAndUpdateKpNumMaxArray r.kpNumArray kpMaxNumArray (p.N + p.zeroInKP)
    if again then
      let N := max p.N r.A
      let (_, kpMaxNumArray) ← checkAndUpdateKpNumMaxArray r.kpNumArray kpMaxNumArray (N + p.zeroInKP)
      return (returnNormal + 1, { p with N, M := max p.M r.B, kpMaxNumArray })
    else if p.N ≠ 0 ∧ p.N ≠ 1 then return (4, { p with kpMaxNumArray })
    else return (returnNormal + 1, { p with kpMaxNumArray })
  else if returnNormal + 1 = 2 then
    return (2, { p with kpMaxNumArray, zeroPattern := List.replicate p.N (List.replicate p.M 0) })
  else return (returnNormal + 1, { p with kpMaxNumArray })

/-- The loop, with the turns it has left. It gives the index of the last run. -/
def defaultRuns (runs : Nat → DefaultRun) : Nat → Nat → Preparation → Except Exit (Nat × Preparation)
  | 0, _, _ => .error .defaultSchedule
  | left + 1, returnNormal, p => do
    let (next, p) ← (defaultTurn returnNormal (runs returnNormal) p).mapError .raised
    if next = 4 then return (returnNormal, p) else defaultRuns runs left next p

/-- What the main loop starts with, when this is what the last run has left. -/
def Preparation.options (args : Arguments) (r : Reading) (p : Preparation) : Except Halt Options := do
  let n := r.A + p.zeroInKP
  let parentArray ← overThreads n fun i => if i < n then r.kpNumArray i else 0
  return {
    bugDepth := args.bugDepth
    fullDeepRun := args.fullDeepRun
    noPrefixRun := args.noPrefixRun
    runsLimit := args.runsLimit
    zeroInKP := p.zeroInKP
    defaultCoverageHashID :=
      calculateCoverageHashID r.kpLocArray (p.M * (p.N + p.zeroInKP)) r.kpNumArray p.N
    N := p.N
    M := p.M
    kpMaxNumArray := p.kpMaxNumArray
    parentArray }

def prepare (args : Arguments) (dry : DryRun) (runs : Nat → DefaultRun) : Except Exit Options := do
  let reading ← checkDryRun dry
  let p ← readDryRun reading
  let (last, p) ← defaultRuns runs 3 0 p
  (p.options args (runs last).reading).mapError .raised

/-! ## What the runs show -/

section Shown
variable (dry : Reading) (runs : Nat → DefaultRun)

/-- The most that the dry run and the normal ones of the first `k` default runs have shown. -/
def seen (get : Reading → Nat) : Nat → Nat
  | 0 => get dry
  | k + 1 =>
    if (runs k).isNormal then max (seen get k) (get (runs k).reading) else seen get k

def threadsSeen (k : Nat) : Nat := seen dry runs Reading.A k
def pointsSeen (k : Nat) : Nat := seen dry runs Reading.B k

structure Settles (k : Nat) : Prop where
  normal : (runs k).isNormal = true
  threads : (runs k).reading.A ≤ threadsSeen dry runs k
  points : (runs k).reading.B ≤ pointsSeen dry runs k
  parallel : 2 ≤ threadsSeen dry runs k

/-- One of the first `k` default runs has shown the count in thread `i`, or the dry run has and
the first default run has shown none. -/
def ShownIn (z k i c : Nat) : Prop :=
  c = 0 ∨ (∃ j < k, i < threadsSeen dry runs (j + 1) + z ∧ (runs j).reading.kpNumArray i = c) ∨
    (k = 0 ∨ (runs 0).reading.kpNumArray i = 0) ∧ i < dry.A + z ∧ dry.kpNumArray i = c

def entryAfter (z k i m : Nat) : Nat :=
  let v := (runs k).reading.kpNumArray i
  if i < threadsSeen dry runs (k + 1) + z then if k = 0 ∧ 1 ≤ v then v else max m v else m

def patternOf (z k : Nat) : List (List Nat) :=
  if 2 ≤ k ∧ (runs 1).isNormal = false then
    List.replicate (threadsSeen dry runs 1) (List.replicate (pointsSeen dry runs 1) 0)
  else zeroPattern dry.A dry.B z

structure Preparation.Before (z k : Nat) (p : Preparation) : Prop where
  N : p.N = threadsSeen dry runs k
  M : p.M = pointsSeen dry runs k
  zeroInKP : p.zeroInKP = z
  kpMaxNumArray : ∀ i, IsGreatest {c | ShownIn dry runs z k i c} (p.kpMaxNumArray i)
  zeroPattern : p.zeroPattern = patternOf dry runs z k

end Shown

section Turn
variable {dry : Reading} {runs : Nat → DefaultRun} {z k : Nat} {p p' : Preparation}

theorem seen_mono (get : Reading → Nat) {j k : Nat} (h : j ≤ k) :
    seen dry runs get j ≤ seen dry runs get k := by
  induction h with
  | refl => exact Nat.le_refl _
  | step _ ih =>
    rw [seen]
    split
    · exact ih.trans (Nat.le_max_left _ _)
    · exact ih

theorem Settles.threadsSeen_succ (h : Settles dry runs k) : threadsSeen dry runs (k + 1) = threadsSeen dry runs k := by
  rw [threadsSeen, seen, if_pos h.normal]
  exact Nat.max_eq_left h.threads

theorem Settles.pointsSeen_succ (h : Settles dry runs k) : pointsSeen dry runs (k + 1) = pointsSeen dry runs k := by
  rw [pointsSeen, seen, if_pos h.normal]
  exact Nat.max_eq_left h.points

theorem Preparation.Before.unique (h : p.Before dry runs z k) (h' : p'.Before dry runs z k) : p = p' := by
  obtain ⟨N, M, zeroInKP, kpMax, pattern⟩ := p
  obtain ⟨N', M', zeroInKP', kpMax', pattern'⟩ := p'
  obtain rfl : N = N' := h.N.trans h'.N.symm
  obtain rfl : M = M' := h.M.trans h'.M.symm
  obtain rfl : zeroInKP = zeroInKP' := h.zeroInKP.trans h'.zeroInKP.symm
  obtain rfl : pattern = pattern' := h.zeroPattern.trans h'.zeroPattern.symm
  obtain rfl : kpMax = kpMax' := funext fun i => (h.kpMaxNumArray i).unique (h'.kpMaxNumArray i)
  rfl

/-- Run `k` adds its count, unless it is the first one and takes the place of the dry run. -/
theorem shownIn_succ {i : Nat} (h : ¬ (k = 0 ∧ 1 ≤ (runs k).reading.kpNumArray i)) :
    {c | ShownIn dry runs z (k + 1) i c} = {c | ShownIn dry runs z k i c} ∪
      {c | i < threadsSeen dry runs (k + 1) + z ∧ (runs k).reading.kpNumArray i = c} := by
  have hdry : (k + 1 = 0 ∨ (runs 0).reading.kpNumArray i = 0) ↔
      (k = 0 ∨ (runs 0).reading.kpNumArray i = 0) := by
    constructor
    · exact fun hc => Or.inr (hc.resolve_left (Nat.succ_ne_zero k))
    · rintro (rfl | hzero)
      · exact Or.inr (by omega)
      · exact Or.inr hzero
  ext c
  have hsplit : (∃ j < k + 1, i < threadsSeen dry runs (j + 1) + z ∧ (runs j).reading.kpNumArray i = c) ↔
      (∃ j < k, i < threadsSeen dry runs (j + 1) + z ∧ (runs j).reading.kpNumArray i = c) ∨
        i < threadsSeen dry runs (k + 1) + z ∧ (runs k).reading.kpNumArray i = c := by
    simp only [Nat.lt_succ_iff_lt_or_eq, or_and_right, exists_or, exists_eq_left]
  change ShownIn dry runs z (k + 1) i c ↔ ShownIn dry runs z k i c ∨ _
  rw [ShownIn, ShownIn, hdry, hsplit, or_assoc, or_assoc, or_assoc]
  exact or_congr_right (or_congr_right or_comm)

theorem shownIn_one {i c : Nat} (h : 1 ≤ (runs 0).reading.kpNumArray i) : ShownIn dry runs z 1 i c ↔
    c = 0 ∨ i < threadsSeen dry runs 1 + z ∧ (runs 0).reading.kpNumArray i = c := by
  have hdry : ¬ (1 = 0 ∨ (runs 0).reading.kpNumArray i = 0) := by omega
  simp only [ShownIn, hdry, false_and, or_false, Nat.lt_one_iff, exists_eq_left]

theorem entry_zero {i m : Nat} (h : IsGreatest {c | ShownIn dry runs z 0 i c} m) (hi : dry.A + z ≤ i) :
    m = 0 := by
  rcases h.1 with hm | ⟨j, hj, _⟩ | ⟨_, hlt, _⟩
  · exact hm
  · exact absurd hj (Nat.not_lt_zero j)
  · exact absurd hlt (Nat.not_lt.mpr hi)

theorem greatest_entryAfter {i m : Nat} (h : IsGreatest {c | ShownIn dry runs z k i c} m) :
    IsGreatest {c | ShownIn dry runs z (k + 1) i c} (entryAfter dry runs z k i m) := by
  unfold entryAfter
  dsimp only
  by_cases hfirst : k = 0 ∧ 1 ≤ (runs k).reading.kpNumArray i
  · obtain ⟨rfl, hpos⟩ := hfirst
    simp only [shownIn_one hpos, hpos, and_true, if_true]
    split
    · next hi =>
      refine ⟨Or.inr ⟨hi, rfl⟩, fun c hc => ?_⟩
      rcases hc with rfl | ⟨_, rfl⟩
      · exact Nat.zero_le _
      · exact Nat.le_refl _
    · next hi =>
      have hdry : threadsSeen dry runs 0 ≤ threadsSeen dry runs 1 := seen_mono _ (Nat.zero_le 1)
      have hbehind : dry.A + z ≤ i := (Nat.add_le_add_right hdry z).trans (Nat.not_lt.mp hi)
      refine ⟨Or.inl (entry_zero h hbehind), fun c hc => ?_⟩
      rcases hc with rfl | ⟨hi', _⟩
      · exact Nat.zero_le _
      · exact absurd hi' hi
  · rw [shownIn_succ hfirst, if_neg hfirst]
    split
    · next hi =>
      simp only [hi, true_and]
      exact h.union ⟨rfl, fun c hc => Nat.le_of_eq hc.symm⟩
    · next hi =>
      simp only [hi, false_and, Set.ofPred_false, Set.union_empty]
      exact h

theorem overThreads_ok {α : Type} {n : Nat} {x : α} (h : n ≤ SHARE_THREAD_NUM) : overThreads n x = .ok x :=
  if_neg (Nat.not_lt.mpr h)

theorem overThreads_error {α : Type} {n : Nat} {x : α} (h : SHARE_THREAD_NUM < n) :
    overThreads n x = .error .indexError := if_pos h

def entryTaken (dry : Reading) (runs : Nat → DefaultRun) (z k i m : Nat) : Nat :=
  let v := (runs k).reading.kpNumArray i
  if i < threadsSeen dry runs k + z ∧ (k = 0 ∧ 1 ≤ v ∨ v > m) then v else m

section Entries
variable {i m : Nat} (hzero : k = 0 → dry.A + z ≤ i → m = 0)
include hzero

/-- Once more over the array takes in the threads that are new. -/
theorem entryTaken_updated : (if i < threadsSeen dry runs (k + 1) + z ∧
      (runs k).reading.kpNumArray i > entryTaken dry runs z k i m then (runs k).reading.kpNumArray i
    else entryTaken dry runs z k i m) = entryAfter dry runs z k i m := by
  have hle : threadsSeen dry runs k ≤ threadsSeen dry runs (k + 1) := seen_mono _ (Nat.le_succ k)
  have hfirst : k = 0 → threadsSeen dry runs k = dry.A := by
    rintro rfl
    rfl
  unfold entryAfter entryTaken
  dsimp only
  generalize (runs k).reading.kpNumArray i = v
  split_ifs <;> omega

theorem entryTaken_settled (hsame : threadsSeen dry runs (k + 1) = threadsSeen dry runs k) :
    entryTaken dry runs z k i m = entryAfter dry runs z k i m ∧ (i < threadsSeen dry runs k + z →
      (runs k).reading.kpNumArray i ≤ entryTaken dry runs z k i m) := by
  have hfirst : k = 0 → threadsSeen dry runs k = dry.A := by
    rintro rfl
    rfl
  unfold entryAfter entryTaken
  dsimp only
  rw [hsame]
  generalize (runs k).reading.kpNumArray i = v
  split_ifs <;> omega

end Entries

theorem patternOf_succ : patternOf dry runs z (k + 1) =
    if (runs k).isNormal = false ∧ k = 1 then
      List.replicate (threadsSeen dry runs k) (List.replicate (pointsSeen dry runs k) 0)
    else patternOf dry runs z k := by
  unfold patternOf
  by_cases hk : k = 1
  · subst hk
    simp
  · have hsame : 2 ≤ k + 1 ↔ 2 ≤ k := by omega
    simp only [hk, hsame, and_false, if_false]

theorem seen_normal (get : Reading → Nat) (h : (runs k).isNormal = true) :
    seen dry runs get (k + 1) = max (seen dry runs get k) (get (runs k).reading) := if_pos h

theorem seen_abnormal (get : Reading → Nat) (h : ¬ (runs k).isNormal = true) :
    seen dry runs get (k + 1) = seen dry runs get k := if_neg h

section Kinds
variable (h : p.Before dry runs z k)
include h

theorem Preparation.Before.zero (i : Nat) (hk : k = 0) (hi : dry.A + z ≤ i) : p.kpMaxNumArray i = 0 := by
  subst hk
  exact entry_zero (h.kpMaxNumArray i) hi

theorem takeOver_ok (hroom : threadsSeen dry runs k + z ≤ SHARE_THREAD_NUM) :
    takeOver k (runs k).reading.kpNumArray p.kpMaxNumArray (p.N + p.zeroInKP) =
      .ok fun i => entryTaken dry runs z k i (p.kpMaxNumArray i) := by
  rw [h.N, h.zeroInKP, takeOver, overThreads_ok hroom]
  rfl

theorem greatest_taken (hsame : threadsSeen dry runs (k + 1) = threadsSeen dry runs k) (i : Nat) :
    IsGreatest {c | ShownIn dry runs z (k + 1) i c} (entryTaken dry runs z k i (p.kpMaxNumArray i)) := by
  rw [(entryTaken_settled (h.zero i) hsame).1]
  exact greatest_entryAfter (h.kpMaxNumArray i)

/-- A run that is not normal only has its counts taken over. -/
theorem turn_abnormal (hroom : threadsSeen dry runs k + z ≤ SHARE_THREAD_NUM)
    (habnormal : ¬ (runs k).isNormal = true) :
    ∃ p', defaultTurn k (runs k) p = .ok (k + 1, p') ∧ p'.Before dry runs z (k + 1) := by
  have htake := takeOver_ok h hroom
  have hthreads : threadsSeen dry runs (k + 1) = threadsSeen dry runs k := seen_abnormal _ habnormal
  have hpoints : pointsSeen dry runs (k + 1) = pointsSeen dry runs k := seen_abnormal _ habnormal
  have hpattern : patternOf dry runs z (k + 1) =
      if k + 1 = 2 then List.replicate p.N (List.replicate p.M 0) else p.zeroPattern := by
    rw [patternOf_succ, h.N, h.M, h.zeroPattern, Bool.eq_false_iff.mpr habnormal]
    simp
  have hN := h.N.trans hthreads.symm
  have hM := h.M.trans hpoints.symm
  by_cases hsecond : k + 1 = 2
  · rw [if_pos hsecond] at hpattern
    refine ⟨{ p with
        kpMaxNumArray := fun i => entryTaken dry runs z k i (p.kpMaxNumArray i)
        zeroPattern := List.replicate p.N (List.replicate p.M 0) }, ?_,
      ⟨hN, hM, h.zeroInKP, greatest_taken h hthreads, hpattern.symm⟩⟩
    simp only [defaultTurn, htake, if_neg habnormal, hsecond, if_true, bind, Except.bind, pure, Except.pure]
  · rw [if_neg hsecond] at hpattern
    refine ⟨{ p with kpMaxNumArray := fun i => entryTaken dry runs z k i (p.kpMaxNumArray i) }, ?_,
      ⟨hN, hM, h.zeroInKP, greatest_taken h hthreads, hpattern.symm⟩⟩
    simp only [defaultTurn, htake, if_neg habnormal, if_neg hsecond, bind, Except.bind, pure, Except.pure]

theorem Preparation.Before.pattern_normal (hnormal : (runs k).isNormal = true) :
    p.zeroPattern = patternOf dry runs z (k + 1) := by
  rw [patternOf_succ, if_neg, h.zeroPattern]
  intro hk
  rw [hk.1] at hnormal
  cases hnormal

theorem turn_grows (hroom : threadsSeen dry runs (k + 1) + z ≤ SHARE_THREAD_NUM)
    (hnormal : (runs k).isNormal = true)
    (hgrows : (runs k).reading.A > p.N ∨ (runs k).reading.B > p.M) :
    ∃ p', defaultTurn k (runs k) p = .ok (k + 1, p') ∧ p'.Before dry runs z (k + 1) := by
  have hle : threadsSeen dry runs k ≤ threadsSeen dry runs (k + 1) := seen_mono _ (Nat.le_succ k)
  have htake := takeOver_ok h (by omega)
  have hN : max p.N (runs k).reading.A = threadsSeen dry runs (k + 1) := by
    rw [h.N]
    exact (seen_normal _ hnormal).symm
  have hM : max p.M (runs k).reading.B = pointsSeen dry runs (k + 1) := by
    rw [h.M]
    exact (seen_normal _ hnormal).symm
  have hcheck : checkAndUpdateKpNumMaxArray (runs k).reading.kpNumArray
      (fun i => entryTaken dry runs z k i (p.kpMaxNumArray i)) (max p.N (runs k).reading.A + p.zeroInKP) =
      .ok (newMaxKpNumArray (runs k).reading.kpNumArray
        (fun i => entryTaken dry runs z k i (p.kpMaxNumArray i)) (threadsSeen dry runs (k + 1) + z)) := by
    rw [hN, h.zeroInKP]
    exact overThreads_ok hroom
  have hentries : (newMaxKpNumArray (runs k).reading.kpNumArray
      (fun i => entryTaken dry runs z k i (p.kpMaxNumArray i)) (threadsSeen dry runs (k + 1) + z)).2 =
      fun i => entryAfter dry runs z k i (p.kpMaxNumArray i) :=
    funext fun i => entryTaken_updated (h.zero i)
  refine ⟨{ p with
      N := max p.N (runs k).reading.A
      M := max p.M (runs k).reading.B
      kpMaxNumArray := fun i => entryAfter dry runs z k i (p.kpMaxNumArray i) }, ?_,
    ⟨hN, hM, h.zeroInKP, fun i => greatest_entryAfter (h.kpMaxNumArray i), h.pattern_normal hnormal⟩⟩
  simp only [defaultTurn, htake, hcheck, if_pos hnormal, if_pos hgrows, bind, Except.bind, pure, Except.pure,
    if_true, hentries]

/-- A normal run that shows nothing new ends the loop if there are two threads. -/
theorem turn_stays (hroom : threadsSeen dry runs k + z ≤ SHARE_THREAD_NUM)
    (hnormal : (runs k).isNormal = true)
    (hstays : ¬ ((runs k).reading.A > p.N ∨ (runs k).reading.B > p.M)) :
    ∃ p', defaultTurn k (runs k) p = .ok (if p.N ≠ 0 ∧ p.N ≠ 1 then 4 else k + 1, p') ∧
      p'.Before dry runs z (k + 1) := by
  have htake := takeOver_ok h hroom
  have hA : (runs k).reading.A ≤ threadsSeen dry runs k := by
    rw [← h.N]
    omega
  have hB : (runs k).reading.B ≤ pointsSeen dry runs k := by
    rw [← h.M]
    omega
  have hthreads : threadsSeen dry runs (k + 1) = threadsSeen dry runs k :=
    (seen_normal _ hnormal).trans (Nat.max_eq_left hA)
  have hpoints : pointsSeen dry runs (k + 1) = pointsSeen dry runs k :=
    (seen_normal _ hnormal).trans (Nat.max_eq_left hB)
  -- the counts have just been taken over
  have hnone : newMaxKpNumArray (runs k).reading.kpNumArray
      (fun i => entryTaken dry runs z k i (p.kpMaxNumArray i)) (threadsSeen dry runs k + z) =
      (false, fun i => entryTaken dry runs z k i (p.kpMaxNumArray i)) := by
    have hfits := fun i => (entryTaken_settled (h.zero i) hthreads).2
    refine Prod.ext ?_ (funext fun i => if_neg fun hi => absurd (hfits i hi.1) (Nat.not_le.mpr hi.2))
    refine List.any_eq_false.mpr fun i hi => ?_
    have hle := hfits i (List.mem_range.mp hi)
    simpa using hle
  have hcheck : checkAndUpdateKpNumMaxArray (runs k).reading.kpNumArray
      (fun i => entryTaken dry runs z k i (p.kpMaxNumArray i)) (p.N + p.zeroInKP) =
      .ok (false, fun i => entryTaken dry runs z k i (p.kpMaxNumArray i)) := by
    rw [checkAndUpdateKpNumMaxArray, h.N, h.zeroInKP, overThreads_ok hroom, hnone]
  refine ⟨{ p with kpMaxNumArray := fun i => entryTaken dry runs z k i (p.kpMaxNumArray i) }, ?_,
    ⟨h.N.trans hthreads.symm, h.M.trans hpoints.symm, h.zeroInKP, greatest_taken h hthreads,
      h.pattern_normal hnormal⟩⟩
  simp only [defaultTurn, htake, hcheck, if_pos hnormal, if_neg hstays, bind, Except.bind, pure, Except.pure,
    Bool.false_eq_true, if_false]
  split <;> rfl

theorem defaultTurn_ok (hroom : threadsSeen dry runs (k + 1) + z ≤ SHARE_THREAD_NUM) :
    ∃ next p', defaultTurn k (runs k) p = .ok (next, p') ∧ p'.Before dry runs z (k + 1) ∧
      (Settles dry runs k ∧ next = 4 ∨ ¬ Settles dry runs k ∧ next = k + 1) := by
  have hle : threadsSeen dry runs k ≤ threadsSeen dry runs (k + 1) := seen_mono _ (Nat.le_succ k)
  by_cases hnormal : (runs k).isNormal = true
  · by_cases hgrows : (runs k).reading.A > p.N ∨ (runs k).reading.B > p.M
    · obtain ⟨p', hturn, hbefore⟩ := turn_grows h hroom hnormal hgrows
      refine ⟨k + 1, p', hturn, hbefore, Or.inr ⟨fun hs => ?_, rfl⟩⟩
      have hA := hs.threads.trans_eq h.N.symm
      have hB := hs.points.trans_eq h.M.symm
      omega
    · obtain ⟨p', hturn, hbefore⟩ := turn_stays h (by omega) hnormal hgrows
      refine ⟨_, p', hturn, hbefore, ?_⟩
      by_cases hparallel : p.N ≠ 0 ∧ p.N ≠ 1
      · refine Or.inl ⟨⟨hnormal, ?_, ?_, ?_⟩, if_pos hparallel⟩
        · rw [← h.N]
          omega
        · rw [← h.M]
          omega
        · rw [← h.N]
          omega
      · refine Or.inr ⟨fun hs => ?_, if_neg hparallel⟩
        have htwo := hs.parallel.trans_eq h.N.symm
        omega
  · obtain ⟨p', hturn, hbefore⟩ := turn_abnormal h (by omega) hnormal
    exact ⟨k + 1, p', hturn, hbefore, Or.inr ⟨fun hs => hnormal hs.normal, rfl⟩⟩

theorem defaultTurn_error (hroom : SHARE_THREAD_NUM < threadsSeen dry runs (k + 1) + z) :
    defaultTurn k (runs k) p = .error .indexError := by
  by_cases hnow : SHARE_THREAD_NUM < threadsSeen dry runs k + z
  · have htake : takeOver k (runs k).reading.kpNumArray p.kpMaxNumArray (p.N + p.zeroInKP) =
        .error .indexError := by
      rw [h.N, h.zeroInKP, takeOver, overThreads_error hnow]
    simp only [defaultTurn, htake, bind, Except.bind]
  · have htake := takeOver_ok h (Nat.not_lt.mp hnow)
    have hnormal : (runs k).isNormal = true := by
      by_contra habnormal
      have hsame : threadsSeen dry runs (k + 1) = threadsSeen dry runs k := seen_abnormal _ habnormal
      omega
    have hN : threadsSeen dry runs (k + 1) = max p.N (runs k).reading.A := by
      rw [h.N]
      exact seen_normal _ hnormal
    have hgrows : (runs k).reading.A > p.N ∨ (runs k).reading.B > p.M := by
      rw [← h.N] at hnow
      omega
    have hcheck : checkAndUpdateKpNumMaxArray (runs k).reading.kpNumArray
        (fun i => entryTaken dry runs z k i (p.kpMaxNumArray i)) (max p.N (runs k).reading.A + p.zeroInKP) =
        .error .indexError := by
      rw [checkAndUpdateKpNumMaxArray, ← hN, h.zeroInKP, overThreads_error hroom]
    simp only [defaultTurn, htake, hcheck, if_pos hnormal, if_pos hgrows, bind, Except.bind, pure, Except.pure,
      if_true]

end Kinds

/-- The loop ends after the first run that settles, if the arrays have entries for all threads. -/
theorem defaultRuns_iff {left last : Nat} (h : p.Before dry runs z k) (hleft : left + k = 3) :
    defaultRuns runs left k p = .ok (last, p') ↔ k ≤ last ∧ last < 3 ∧ Settles dry runs last ∧
      (∀ j, k ≤ j → j < last → ¬ Settles dry runs j) ∧
      threadsSeen dry runs last + z ≤ SHARE_THREAD_NUM ∧ p'.Before dry runs z (last + 1) := by
  induction left generalizing k p with
  | zero =>
    constructor
    · intro hok
      cases hok
    · rintro ⟨hk, hlast, _⟩
      omega
  | succ left ih =>
    by_cases hroom : threadsSeen dry runs (k + 1) + z ≤ SHARE_THREAD_NUM
    · obtain ⟨next, q, hturn, hbefore, hnext⟩ := defaultTurn_ok h hroom
      rw [defaultRuns, hturn]
      simp only [Except.mapError, bind, Except.bind]
      rcases hnext with ⟨hs, rfl⟩ | ⟨hno, rfl⟩
      · rw [if_pos rfl]
        constructor
        · intro hok
          cases hok
          refine ⟨Nat.le_refl last, by omega, hs, fun j hj hlt => absurd hj (Nat.not_le.mpr hlt), ?_, hbefore⟩
          rwa [← hs.threadsSeen_succ]
        · rintro ⟨hk, _, _, hfirst, _, hbefore'⟩
          have hlast : k = last := by
            by_contra hne
            exact hfirst k (Nat.le_refl k) (by omega) hs
          subst hlast
          rw [hbefore.unique hbefore']
          rfl
      · rw [if_neg (by omega), ih hbefore (by omega)]
        constructor
        · rintro ⟨hk, hlast, hs, hfirst, hrest⟩
          refine ⟨by omega, hlast, hs, fun j hj hlt => ?_, hrest⟩
          rcases Nat.eq_or_lt_of_le hj with rfl | hj
          · exact hno
          · exact hfirst j hj hlt
        · rintro ⟨hk, hlast, hs, hfirst, hrest⟩
          have hne : k ≠ last := by
            rintro rfl
            exact hno hs
          exact ⟨by omega, hlast, hs, fun j hj => hfirst j (by omega), hrest⟩
    · rw [defaultRuns, defaultTurn_error h (Nat.not_le.mp hroom)]
      constructor
      · intro hok
        cases hok
      · rintro ⟨hk, _, hs, _, hfits, _⟩
        have hle : threadsSeen dry runs (k + 1) ≤ threadsSeen dry runs (last + 1) :=
          seen_mono _ (Nat.succ_le_succ hk)
        rw [hs.threadsSeen_succ] at hle
        omega

end Turn

/-! ## The tests start -/

structure DryRun.Succeeds (dry : DryRun) : Prop where
  normal : dry.isNormal = true
  decodes : ∃ context, dry.errdata.utf8Decode? = some context ∧
    (dry.returncode = 1 → contains context.toList ": command not found" = false)

structure Accepts (dry : Reading) (z : Nat) : Prop where
  zeros : zeroNum dry.counts (List.replicate SHARE_THREAD_NUM 0) dry.A = .ok z
  points : dry.B ≤ SHARE_ARRAY_SIZE
  threads : dry.A + z ≤ SHARE_THREAD_NUM
  room : dry.B * (dry.A + z) ≤ SHARE_ARRAY_SIZE

/-- What the main loop starts with when run `k` has ended the loop. -/
structure Prepared (args : Arguments) (dry : Reading) (runs : Nat → DefaultRun) (z k : Nat) (o : Options) :
    Prop where
  bugDepth : o.bugDepth = args.bugDepth
  fullDeepRun : o.fullDeepRun = args.fullDeepRun
  noPrefixRun : o.noPrefixRun = args.noPrefixRun
  runsLimit : o.runsLimit = args.runsLimit
  zeroInKP : o.zeroInKP = z
  defaultCoverageHashID : o.defaultCoverageHashID = calculateCoverageHashID (runs k).reading.kpLocArray
    (o.M * (o.N + z)) (runs k).reading.kpNumArray o.N
  N : o.N = threadsSeen dry runs k
  M : o.M = pointsSeen dry runs k
  kpMaxNumArray : ∀ i, IsGreatest {c | ShownIn dry runs z (k + 1) i c} (o.kpMaxNumArray i)
  parentArray : ∀ i, o.parentArray i =
    if i < (runs k).reading.A + z then (runs k).reading.kpNumArray i else 0

section Prepare
variable {args : Arguments} {dry : Reading} {runs : Nat → DefaultRun} {z : Nat} {p : Preparation} {o : Options}

theorem readDryRun_ok (runs : Nat → DefaultRun) (h : Accepts dry z) :
    ∃ p, readDryRun dry = .ok p ∧ p.Before dry runs z 0 := by
  have hA : ¬ SHARE_THREAD_NUM < dry.A := by
    have := h.threads
    omega
  have hcheck : checkAndUpdateKpNumMaxArray dry.kpNumArray (fun _ => 0) (dry.A + z) =
      .ok (newMaxKpNumArray dry.kpNumArray (fun _ => 0) (dry.A + z)) := overThreads_ok h.threads
  refine ⟨⟨dry.A, dry.B, z, (newMaxKpNumArray dry.kpNumArray (fun _ => 0) (dry.A + z)).2,
    zeroPattern dry.A dry.B z⟩, ?_, rfl, rfl, rfl, fun i => ?_, ?_⟩
  · rw [readDryRun, if_neg hA, if_neg (Nat.not_lt.mpr h.points), h.zeros]
    simp only [Except.mapError, bind, Except.bind, hcheck, if_neg (Nat.not_lt.mpr h.room), pure, Except.pure]
  · simp only [newMaxKpNumArray]
    split
    · next hi =>
      refine ⟨Or.inr (Or.inr ⟨Or.inl rfl, hi.1, rfl⟩), fun c hc => ?_⟩
      rcases hc with rfl | ⟨j, hj, _⟩ | ⟨_, _, rfl⟩
      · exact Nat.zero_le _
      · exact absurd hj (Nat.not_lt_zero j)
      · exact Nat.le_refl _
    · next hi =>
      refine ⟨Or.inl rfl, fun c hc => ?_⟩
      rcases hc with rfl | ⟨j, hj, _⟩ | ⟨_, hlt, rfl⟩
      · exact Nat.le_refl _
      · exact absurd hj (Nat.not_lt_zero j)
      · exact Nat.not_lt.mp fun hpos => hi ⟨hlt, hpos⟩
  · rw [patternOf, if_neg fun hk => absurd hk.1 (by decide)]

theorem accepts_of_readDryRun (h : readDryRun dry = .ok p) : ∃ z, Accepts dry z := by
  unfold readDryRun at h
  split at h
  · cases h
  · split at h
    · cases h
    · next hB =>
      cases hzeros : zeroNum dry.counts (List.replicate SHARE_THREAD_NUM 0) dry.A with
      | error e =>
        rw [hzeros] at h
        cases h
      | ok z =>
        rw [hzeros] at h
        simp only [Except.mapError, bind, Except.bind] at h
        by_cases hthreads : SHARE_THREAD_NUM < dry.A + z
        · rw [checkAndUpdateKpNumMaxArray, overThreads_error hthreads] at h
          cases h
        · rw [checkAndUpdateKpNumMaxArray, overThreads_ok (Nat.not_lt.mp hthreads)] at h
          dsimp only at h
          split at h
          · cases h
          · next hroom => exact ⟨z, hzeros, Nat.not_lt.mp hB, Nat.not_lt.mp hthreads, Nat.not_lt.mp hroom⟩

theorem Prepared.unique {k : Nat} {o' : Options} (h : Prepared args dry runs z k o)
    (h' : Prepared args dry runs z k o') : o = o' := by
  obtain ⟨bugDepth, fullDeepRun, noPrefixRun, runsLimit, zeroInKP, hash, N, M, kpMax, parent⟩ := o
  obtain ⟨bugDepth', fullDeepRun', noPrefixRun', runsLimit', zeroInKP', hash', N', M', kpMax', parent'⟩ := o'
  obtain rfl : bugDepth = bugDepth' := h.bugDepth.trans h'.bugDepth.symm
  obtain rfl : fullDeepRun = fullDeepRun' := h.fullDeepRun.trans h'.fullDeepRun.symm
  obtain rfl : noPrefixRun = noPrefixRun' := h.noPrefixRun.trans h'.noPrefixRun.symm
  obtain rfl : runsLimit = runsLimit' := h.runsLimit.trans h'.runsLimit.symm
  obtain rfl : zeroInKP = zeroInKP' := h.zeroInKP.trans h'.zeroInKP.symm
  obtain rfl : N = N' := h.N.trans h'.N.symm
  obtain rfl : M = M' := h.M.trans h'.M.symm
  obtain rfl : hash = hash' := h.defaultCoverageHashID.trans h'.defaultCoverageHashID.symm
  obtain rfl : kpMax = kpMax' := funext fun i => (h.kpMaxNumArray i).unique (h'.kpMaxNumArray i)
  obtain rfl : parent = parent' := funext fun i => (h.parentArray i).trans (h'.parentArray i).symm
  rfl

theorem options_iff {k : Nat} (h : p.Before dry runs z (k + 1)) (hs : Settles dry runs k)
    (hfits : threadsSeen dry runs k + z ≤ SHARE_THREAD_NUM) :
    p.options args (runs k).reading = .ok o ↔ Prepared args dry runs z k o := by
  have hroom : (runs k).reading.A + p.zeroInKP ≤ SHARE_THREAD_NUM := by
    rw [h.zeroInKP]
    exact (Nat.add_le_add_right hs.threads z).trans hfits
  have hprepared : ∀ o, p.options args (runs k).reading = .ok o → Prepared args dry runs z k o := by
    intro o ho
    rw [Preparation.options, overThreads_ok hroom] at ho
    cases ho
    refine ⟨rfl, rfl, rfl, rfl, h.zeroInKP, ?_, h.N.trans hs.threadsSeen_succ,
      h.M.trans hs.pointsSeen_succ, h.kpMaxNumArray, fun i => ?_⟩
    · dsimp only
      rw [h.zeroInKP]
    · dsimp only
      rw [h.zeroInKP]
  refine ⟨hprepared o, fun ho => ?_⟩
  cases hoptions : p.options args (runs k).reading with
  | error e =>
    rw [Preparation.options, overThreads_ok hroom] at hoptions
    cases hoptions
  | ok o' => rw [(hprepared o' hoptions).unique ho]

theorem exists_before (h : p.Before dry runs z 0) {k : Nat}
    (hfits : threadsSeen dry runs k + z ≤ SHARE_THREAD_NUM) :
    ∃ q : Preparation, q.Before dry runs z k := by
  induction k with
  | zero => exact ⟨p, h⟩
  | succ k ih =>
    have hle : threadsSeen dry runs k ≤ threadsSeen dry runs (k + 1) := seen_mono _ (Nat.le_succ k)
    obtain ⟨q, hq⟩ := ih (by omega)
    obtain ⟨_, q', _, hq', _⟩ := defaultTurn_ok hq hfits
    exact ⟨q', hq'⟩

theorem bind_eq_ok {ε α β : Type} {x : Except ε α} {f : α → Except ε β} {b : β} :
    x >>= f = .ok b ↔ ∃ a, x = .ok a ∧ f a = .ok b := by
  cases x <;> simp [bind, Except.bind]

theorem mapError_eq_ok {ε ε' α : Type} {x : Except ε α} {f : ε → ε'} {a : α} :
    x.mapError f = .ok a ↔ x = .ok a := by
  cases x <;> simp [Except.mapError]

theorem checkDryRun_eq_ok {run : DryRun} : checkDryRun run = .ok dry ↔ run.Succeeds ∧ run.reading = dry := by
  rw [checkDryRun]
  constructor
  · intro h
    split at h
    · cases h
    · next context hdecode =>
      split at h
      · cases h
      · next hnormal =>
        split at h
        · cases h
        · next hfound =>
          refine ⟨⟨Bool.not_eq_false _ ▸ hnormal, context, hdecode, fun hone => ?_⟩, Except.ok.inj h⟩
          exact Bool.eq_false_iff.mpr fun hin => hfound ⟨hone, hin⟩
  · rintro ⟨⟨hnormal, context, hdecode, hfound⟩, hreading⟩
    have hgood : ¬ (run.returncode = 1 ∧ contains context.toList ": command not found" = true) := fun hbad =>
      Bool.eq_false_iff.mp (hfound hbad.1) hbad.2
    rw [hdecode]
    dsimp only
    rw [if_neg (Bool.not_eq_false _ ▸ hnormal), if_neg hgood, hreading]

/-- The tests start after the first run that settles, with what the runs have shown. -/
theorem prepare_iff {run : DryRun} : prepare args run runs = .ok o ↔ run.Succeeds ∧ ∃ z k,
    Accepts run.reading z ∧ k < 3 ∧ Settles run.reading runs k ∧ (∀ j < k, ¬ Settles run.reading runs j) ∧
      threadsSeen run.reading runs k + z ≤ SHARE_THREAD_NUM ∧ Prepared args run.reading runs z k o := by
  have hbinds : prepare args run runs = .ok o ↔ run.Succeeds ∧ ∃ p, readDryRun run.reading = .ok p ∧
      ∃ q, defaultRuns runs 3 0 p = .ok q ∧ q.2.options args (runs q.1).reading = .ok o := by
    simp only [prepare, bind_eq_ok, mapError_eq_ok, checkDryRun_eq_ok, and_assoc, exists_and_left, exists_eq_left']
  rw [hbinds]
  refine and_congr_right fun _ => ?_
  generalize run.reading = dry
  constructor
  · rintro ⟨p, hread, ⟨k, p'⟩, hruns, hoptions⟩
    obtain ⟨z, hacc⟩ := accepts_of_readDryRun hread
    obtain ⟨_, hread', hbefore⟩ := readDryRun_ok runs hacc
    cases hread.symm.trans hread'
    obtain ⟨_, hk, hs, hfirst, hfits, hafter⟩ := (defaultRuns_iff hbefore rfl).mp hruns
    exact ⟨z, k, hacc, hk, hs, fun j => hfirst j (Nat.zero_le j), hfits,
      (options_iff hafter hs hfits).mp hoptions⟩
  · rintro ⟨z, k, hacc, hk, hs, hfirst, hfits, hprep⟩
    obtain ⟨p, hread, hbefore⟩ := readDryRun_ok runs hacc
    obtain ⟨p', hafter⟩ := exists_before hbefore (hs.threadsSeen_succ.symm ▸ hfits)
    have hruns : defaultRuns runs 3 0 p = .ok (k, p') := (defaultRuns_iff hbefore rfl).mpr
      ⟨Nat.zero_le k, hk, hs, fun j _ => hfirst j, hfits, hafter⟩
    exact ⟨p, hread, (k, p'), hruns, (options_iff hafter hs hfits).mpr hprep⟩

end Prepare

/-- Every child of the main thread has hit a key point, and `B` is a bound of the counts. -/
structure Reading.Dense (r : Reading) : Prop where
  pos : ∀ i, i < r.A → 0 < r.kpNumArray i
  le : ∀ i, r.kpNumArray i ≤ r.B

/-- All threads have key points, as many as there is room for. -/
structure Options.Ready (o : Options) : Prop where
  zero : o.zeroInKP = 0
  pos : ∀ i, i < o.N → 0 < o.kpMaxNumArray i
  le : ∀ i, i < o.N → o.kpMaxNumArray i ≤ o.M
  room : o.M * o.N ≤ SHARE_ARRAY_SIZE

section Ready
variable {dry : Reading} {runs : Nat → DefaultRun}

theorem zeroNum_dense (h : dry.Dense) (hA : dry.A ≤ SHARE_THREAD_NUM) :
    zeroNum dry.counts (List.replicate SHARE_THREAD_NUM 0) dry.A = .ok 0 := by
  have hlen : dry.counts.length = SHARE_THREAD_NUM := by rw [Reading.counts, List.length_map, List.length_range]
  have hbound : ∀ i ∈ List.range dry.A, i < dry.counts.length := by
    intro i hi
    rw [hlen]
    exact (List.mem_range.mp hi).trans_le hA
  rw [zeroNum, anyNonZero_eq hbound]
  cases (List.range dry.A).any fun i => dry.counts.getD i 0 ≠ 0 with
  | false => rfl
  | true =>
    have hnone : (dry.counts.take dry.A).count 0 = 0 := by
      rw [List.count_eq_zero, Reading.counts, ← List.map_take, List.take_range, Nat.min_eq_left hA]
      intro hin
      obtain ⟨i, hi, hzero⟩ := List.mem_map.mp hin
      exact Nat.ne_of_gt (h.pos i (List.mem_range.mp hi)) hzero
    have hzeros := @countZeros_eq dry.counts (List.replicate SHARE_THREAD_NUM 0) dry.A (hA.trans_eq hlen.symm)
      (hA.trans_eq List.length_replicate.symm)
    rw [hnone] at hzeros
    change zeroRounds dry.counts (List.replicate SHARE_THREAD_NUM 0) dry.A 3 (-1) 0 = .ok 0
    rw [zeroRounds, if_neg (by decide), Nat.add_zero, hzeros]
    simp only [bind, Except.bind, Nat.zero_le, if_true]
    rfl

section Counts
variable (hdry : dry.Dense) (hruns : ∀ j, (runs j).isNormal = true → (runs j).reading.Dense)
include hdry hruns

/-- Each thread that has been seen has been seen with a key point. -/
theorem exists_shown {m i : Nat} (hi : i < threadsSeen dry runs m) : ∃ c, 0 < c ∧ ShownIn dry runs 0 m i c := by
  induction m with
  | zero => exact ⟨dry.kpNumArray i, hdry.pos i hi, Or.inr (Or.inr ⟨Or.inl rfl, hi, rfl⟩)⟩
  | succ m ih =>
    by_cases hfirst : m = 0 ∧ 1 ≤ (runs m).reading.kpNumArray i
    · exact ⟨_, hfirst.2, Or.inr (Or.inl ⟨m, Nat.lt_succ_self m, hi, rfl⟩)⟩
    · by_cases hold : i < threadsSeen dry runs m
      · obtain ⟨c, hc, hshown⟩ := ih hold
        have hkept : c ∈ {c | ShownIn dry runs 0 (m + 1) i c} := by
          rw [shownIn_succ hfirst]
          exact Or.inl hshown
        exact ⟨c, hc, hkept⟩
      · have hnormal : (runs m).isNormal = true := by
          by_contra habnormal
          have hsame : threadsSeen dry runs (m + 1) = threadsSeen dry runs m := seen_abnormal _ habnormal
          exact hold (hsame ▸ hi)
        have hnew : i < (runs m).reading.A := by
          have hmax : threadsSeen dry runs (m + 1) = max (threadsSeen dry runs m) (runs m).reading.A :=
            seen_normal _ hnormal
          omega
        exact ⟨_, (hruns m hnormal).pos i hnew, Or.inr (Or.inl ⟨m, Nat.lt_succ_self m, hi, rfl⟩)⟩

/-- Only a run that is not normal shows more key points of a thread than are known. -/
theorem shown_le_iff {k : Nat} (hs : Settles dry runs k) :
    (∀ i c, i < threadsSeen dry runs k → ShownIn dry runs 0 (k + 1) i c → c ≤ pointsSeen dry runs k) ↔
      ∀ j < k, (runs j).isNormal = false → ∀ i < threadsSeen dry runs j,
        (runs j).reading.kpNumArray i ≤ pointsSeen dry runs k := by
  have hthreads : ∀ {j}, j ≤ k → threadsSeen dry runs j ≤ threadsSeen dry runs k := fun hj => seen_mono _ hj
  constructor
  · intro h j hj habnormal i hi
    have hsame : threadsSeen dry runs (j + 1) = threadsSeen dry runs j :=
      seen_abnormal _ (Bool.eq_false_iff.mp habnormal)
    exact h i _ (hi.trans_le (hthreads hj.le)) (Or.inr (Or.inl ⟨j, Nat.lt_succ_of_lt hj, hsame.symm ▸ hi, rfl⟩))
  · rintro h i c hi (rfl | ⟨j, hj, hlt, rfl⟩ | ⟨_, _, rfl⟩)
    · exact Nat.zero_le _
    · by_cases hnormal : (runs j).isNormal = true
      · have hpoints : pointsSeen dry runs (j + 1) = max (pointsSeen dry runs j) (runs j).reading.B :=
          seen_normal _ hnormal
        have hle : pointsSeen dry runs (j + 1) ≤ pointsSeen dry runs (k + 1) := seen_mono _ hj
        rw [hs.pointsSeen_succ] at hle
        exact ((hruns j hnormal).le i).trans (by omega)
      · have hne : j ≠ k := by
          rintro rfl
          exact hnormal hs.normal
        have hsame : threadsSeen dry runs (j + 1) = threadsSeen dry runs j := seen_abnormal _ hnormal
        exact h j (by omega) (Bool.eq_false_iff.mpr hnormal) i (hsame ▸ hlt)
    · exact (hdry.le i).trans (seen_mono Reading.B (Nat.zero_le k))

end Counts

/-- When every thread hits key points, the tests start with what they need exactly when there is
room for all threads, and no run before the last one has shown more and then failed. -/
theorem prepared_ready_iff {args : Arguments} {run : DryRun} {o : Options} (h : prepare args run runs = .ok o)
    (hdry : run.reading.Dense) (hruns : ∀ j, (runs j).isNormal = true → (runs j).reading.Dense) :
    ∃ k < 3, Settles run.reading runs k ∧ (∀ j < k, ¬ Settles run.reading runs j) ∧
      (o.Ready ↔ o.M * o.N ≤ SHARE_ARRAY_SIZE ∧ ∀ j < k, (runs j).isNormal = false →
        ∀ i < threadsSeen run.reading runs j, (runs j).reading.kpNumArray i ≤ o.M) := by
  obtain ⟨_, z, k, hacc, hk, hs, hfirst, _, hprep⟩ := prepare_iff.mp h
  have hzero : z = 0 := by
    have hzeros := hacc.zeros.symm.trans (zeroNum_dense hdry ((Nat.le_add_right _ _).trans hacc.threads))
    cases hzeros
    rfl
  subst hzero
  refine ⟨k, hk, hs, hfirst, ?_⟩
  have hle := shown_le_iff hdry hruns hs
  rw [← hprep.N, ← hprep.M] at hle
  rw [← hle]
  constructor
  · intro hready
    exact ⟨hready.room, fun i c hi hc => ((hprep.kpMaxNumArray i).2 hc).trans (hready.le i hi)⟩
  · rintro ⟨hroom, hbound⟩
    refine ⟨hprep.zeroInKP, fun i hi => ?_, fun i hi => hbound i _ hi (hprep.kpMaxNumArray i).1, hroom⟩
    have hseen : i < threadsSeen run.reading runs (k + 1) := by
      rw [hs.threadsSeen_succ, ← hprep.N]
      exact hi
    obtain ⟨c, hpos, hshown⟩ := exists_shown hdry hruns hseen
    exact hpos.trans_le ((hprep.kpMaxNumArray i).2 hshown)

end Ready

def oneEach : Reading where
  A := 2
  B := 1
  kpNumArray := fun i => if i < 2 then 1 else 0
  kpLocArray := fun _ => 0

theorem dense_oneEach : oneEach.Dense := by
  refine ⟨fun i hi => ?_, fun i => ?_⟩
  · have hone : oneEach.kpNumArray i = 1 := if_pos hi
    omega
  · change (if i < 2 then 1 else 0) ≤ 1
    split <;> decide

def oneEachDry : DryRun := ⟨⟨0, oneEach⟩, ByteArray.empty⟩

theorem prepared_ready_iff_two : ∃ o, prepare ⟨1, false, false, 0⟩ oneEachDry (fun _ => ⟨0, oneEach⟩) = .ok o ∧
    oneEach.Dense ∧ ∃ k < 3, Settles oneEach (fun _ => ⟨0, oneEach⟩) k ∧
      (∀ j < k, ¬ Settles oneEach (fun _ => ⟨0, oneEach⟩) j) ∧
      (o.Ready ↔ o.M * o.N ≤ SHARE_ARRAY_SIZE ∧ ∀ j < k, (DefaultRun.mk 0 oneEach).isNormal = false →
        ∀ i < threadsSeen oneEach (fun _ => ⟨0, oneEach⟩) j, oneEach.kpNumArray i ≤ o.M) :=
  ⟨_, rfl, dense_oneEach, @prepared_ready_iff (fun _ => ⟨0, oneEach⟩) ⟨1, false, false, 0⟩ oneEachDry _ rfl
    dense_oneEach fun _ _ => dense_oneEach⟩

end Period.Driver
