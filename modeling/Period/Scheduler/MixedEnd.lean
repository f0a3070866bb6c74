import Mathlib.Algebra.Order.BigOperators.Group.List
import Mathlib.Algebra.Order.Group.Nat
import Period.Scheduler.Chosen
import Period.Scheduler.Serial

/-!
# The mixed-end scheduler

`SBPMESched` goes through sets of chosen threads, the words over all of them and the
layouts of these words; the other threads run in the last period. A word is skipped
when its last letter and a thread that is not chosen could change places.
-/

namespace Period.Scheduler

open Enumeration Search
set_option autoImplicit false

structure SBPMESched extends Sched where
  pattern : List Nat
  chosen : List Nat
  ckps : List Nat
  schedChosen : Schedule
  schedOther : List Nat
  start : Nat
  last : Nat
  lastCount : Nat
  schedPrefix : Schedule
  deriving DecidableEq, Repr

def calCkps (n : Nat) (kps : List Nat) (chosen : List Nat) : List Nat :=
  chosen.foldl (fun ckps i => ckps.set i (kpsOf kps i)) (List.replicate n 0)

/-- `rlt2` of `SBPMESched._init_sched_`. -/
def otherKps (n : Nat) (kps ckps : List Nat) : List Nat :=
  (List.range n).flatMap fun i => if kpsOf ckps i = 0 then List.replicate (kpsOf kps i) i else []

/-- `min_dumped` in `SBPMESched._next_iter`. -/
def minDumped (n : Nat) (kpPool chosen : List Nat) : Nat :=
  ((List.range n).filter fun x => 0 < kpsOf kpPool x ∧ x ∉ chosen).min?.getD n

/-- The word ends with a thread of its own that is larger than a thread of the last period. -/
def Skipped (minDumped : Nat) (pattern : List Nat) : Prop :=
  ∃ x, pattern.getLast? = some x ∧ x ∉ pattern.dropLast ∧ minDumped < x

instance (m : Nat) (pattern : List Nat) : Decidable (Skipped m pattern) :=
  match h : pattern.getLast? with
  | none => isFalse fun ⟨_, hx, _⟩ => by simp [h] at hx
  | some x => decidable_of_iff (x ∉ pattern.dropLast ∧ m < x)
      ⟨fun hx => ⟨x, h, hx⟩, fun ⟨y, hy, hx⟩ => by rw [h] at hy; cases hy; exact hx⟩

def skipLoop (n p : Nat) (kpPool ckps chosen : List Nat) (last : Option Nat) :
    Nat → Option (List Nat) → Except Halt (Option (List Nat))
  | _, none => .ok none
  | 0, some _ => .error .outOfFuel
  | fuel + 1, some pattern =>
    if Skipped (minDumped n kpPool chosen) pattern then
      skipLoop n p kpPool ckps chosen last fuel
        (nextPattern n p ckps pattern chosen.toFinset last)
    else .ok (some pattern)

/-- The loop `while pattern == None` of `SBPMESched._next_iter`. -/
def chosenLoop (fuel n p : Nat) (kpPool : List Nat) (last : Option Nat) :
    Nat → List Nat → Except Halt (List Nat × List Nat × List Nat)
  | 0, _ => .error .outOfFuel
  | rounds + 1, chosen =>
    match nextChosen n p chosen with
    | none => .error .stopIteration
    | some chosen => do
      let ckps := calCkps n kpPool chosen
      match ← skipLoop n p kpPool ckps chosen last fuel
          (initPattern n p ckps chosen.toFinset last) with
      | some pattern => return (chosen, ckps, pattern)
      | none => chosenLoop fuel n p kpPool last rounds chosen

/-- The search of `SBPMESched._next_iter` for the next pattern, with its chosen threads. -/
def nextWord (fuel n p : Nat) (kpPool : List Nat) (last : Option Nat)
    (chosen ckps pattern : List Nat) : Except Halt (List Nat × List Nat × List Nat) := do
  match ← skipLoop n p kpPool ckps chosen last fuel
      (nextPattern n p ckps pattern chosen.toFinset last) with
  | some pattern => return (chosen, ckps, pattern)
  | none => chosenLoop fuel n p kpPool last fuel chosen

def initLoop (n p : Nat) (kpPool : List Nat) (last : Option Nat) :
    Nat → List Nat → Except Halt (List Nat × List Nat)
  | 0, _ => .error .outOfFuel
  | rounds + 1, chosen =>
    match nextChosen n p chosen with
    | none => .error (.valueError "Can't finish initialising pattern!")
    | some chosen =>
      match initPattern n p (calCkps n kpPool chosen) chosen.toFinset last with
      | some pattern => .ok (chosen, pattern)
      | none => initLoop n p kpPool last rounds chosen

def extendLast (sched : Schedule) (other : List Nat) : Schedule :=
  sched.modify (sched.length - 1) (· ++ other)

def SBPMESched.init (fuel n : Nat) (kps : List Nat) (p : Nat) (sched : Schedule) (fixPrefix : Bool) :
    Except Halt SBPMESched := do
  let base ← Sched.initHelper n kps p sched
  if base.sched.any (·.isEmpty) then throw (.valueError "Invalid period(s) in the given sched!")
  let given ← patternOf base.sched
  let final := (base.sched.getLast?.bind List.getLast?)
  if base.sched.length + 1 = base.p ∧ final.any fun i => 0 < kpsOf base.kpPool i then
    throw (.valueError "Can't finish initialising pattern!")
  if ¬ base.sched.isEmpty ∧ base.sched.length = base.p ∧ 0 < base.kpPool.sum then
    throw (.valueError "Can't finish initialising!")
  let pre := if base.sched.isEmpty then 1 else base.sched.length
  if given.length = base.p then throw .attributeError
  let (chosen, sub) ← initLoop base.n (base.p - given.length) base.kpPool given.getLast? fuel []
  let pattern := given ++ sub
  let ckps := calCkps base.n base.kpPool chosen
  let schedChosen := base.sched ++ initSched base.n ckps (base.p - base.sched.length) sub
  let schedOther := otherKps base.n base.kpPool ckps
  let sched := extendLast schedChosen schedOther
  if fixPrefix then
    match final with
    | none => throw .indexError
    | some last =>
      return { base with sched, pattern, chosen, ckps, schedChosen, schedOther,
                         start := base.sched.length, last,
                         lastCount := (base.sched.getLast?.getD []).length,
                         schedPrefix := sched.take pre }
  else
    let chosen' ← given.foldlM (fun chosen i =>
      if i ∉ chosen then
        match pattern[i]? with
        | none => throw .indexError
        | some x => pure (chosen ++ [x])
      else pure chosen) chosen
    return { base with kpPool := base.kps, sched, pattern, chosen := chosen'.mergeSort (· ≤ ·),
                       ckps := calCkps base.n base.kps chosen, schedChosen, schedOther,
                       start := 0, last := 0, lastCount := 0, schedPrefix := sched.take pre }

/-- The end of `SBPMESched._next_iter`. -/
def SBPMESched.finish (s : SBPMESched) (schedChosen : Schedule) : SBPMESched :=
  let schedChosen := s.schedChosen.take (s.start - 1) ++ schedChosen
  let sched := extendLast schedChosen s.schedOther
  { s with schedChosen, sched := normSched sched
           schedPrefix := normSched (changedPrefix sched s.sched) }

def SBPMESched.nextIter (fuel : Nat) (s : SBPMESched) : Except Halt SBPMESched :=
  let from' := s.start - 1
  let ckps := if 0 < s.start then s.ckps.modify s.last (· + s.lastCount) else s.ckps
  let p := if 0 < s.start then s.p - s.start + 1 else s.p
  match nextSched s.n ckps p (s.schedChosen.drop from') (s.pattern.drop from') with
  | some schedChosen => .ok (s.finish schedChosen)
  | none => do
    let last := if s.start = 0 then none else s.pattern[s.start - 1]?
    let p := s.p - s.start
    let (chosen, ckps, pattern) ←
      nextWord fuel s.n p s.kpPool last s.chosen s.ckps (s.pattern.drop s.start)
    let schedChosen := initSched s.n ckps p pattern
    let schedChosen :=
      if 0 < s.start then List.replicate s.lastCount s.last :: schedChosen else schedChosen
    return { s with pattern := s.pattern.take s.start ++ pattern, chosen, ckps,
                    schedOther := otherKps s.n s.kpPool ckps }.finish schedChosen

theorem minDumped_le {n : Nat} {kps c : List Nat} {x : Nat} (hx : x < n) (hpos : 0 < kpsOf kps x)
    (hc : x ∉ c) : minDumped n kps c ≤ x :=
  List.min?_getD_le_of_mem (by simp [hx, hpos, hc])

theorem minDumped_mem {n : Nat} {kps c : List Nat} (h : minDumped n kps c < n) :
    0 < kpsOf kps (minDumped n kps c) ∧ minDumped n kps c ∉ c := by
  rw [minDumped] at h ⊢
  cases hmin : ((List.range n).filter fun x => 0 < kpsOf kps x ∧ x ∉ c).min? with
  | none =>
    rw [hmin] at h
    exact absurd h (Nat.lt_irrefl n)
  | some m => simpa using (List.mem_filter.mp (List.min?_mem hmin)).2

section Rounds
variable {n p : Nat} {kpPool ckps chosen : List Nat} {last : Option Nat} {fuel fuel' : Nat}

theorem skipLoop_mono (hle : fuel ≤ fuel') {pattern : Option (List Nat)}
    {r : Except Halt (Option (List Nat))} (hr : r ≠ .error .outOfFuel)
    (h : skipLoop n p kpPool ckps chosen last fuel pattern = r) :
    skipLoop n p kpPool ckps chosen last fuel' pattern = r := by
  induction fuel generalizing fuel' pattern with
  | zero =>
    cases pattern with
    | none =>
      rw [← h]
      cases fuel' <;> rfl
    | some w => exact absurd h.symm hr
  | succ fuel ih =>
    obtain ⟨fuel', rfl⟩ := Nat.exists_eq_succ_of_ne_zero (Nat.ne_zero_of_lt hle)
    cases pattern with
    | none => exact h
    | some w =>
      rw [skipLoop] at h ⊢
      by_cases hskip : Skipped (minDumped n kpPool chosen) w
      · rw [if_pos hskip] at h ⊢
        exact ih (Nat.le_of_succ_le_succ hle) h
      · rw [if_neg hskip] at h ⊢
        exact h

theorem chosenLoop_mono (hle : fuel ≤ fuel') {rounds rounds' : Nat} (hrounds : rounds ≤ rounds')
    {r : Except Halt (List Nat × List Nat × List Nat)} (hr : r ≠ .error .outOfFuel)
    (h : chosenLoop fuel n p kpPool last rounds chosen = r) :
    chosenLoop fuel' n p kpPool last rounds' chosen = r := by
  induction rounds generalizing rounds' chosen with
  | zero => exact absurd h.symm hr
  | succ rounds ih =>
    obtain ⟨rounds', rfl⟩ := Nat.exists_eq_succ_of_ne_zero (Nat.ne_zero_of_lt hrounds)
    rw [chosenLoop] at h ⊢
    cases hnext : nextChosen n p chosen with
    | none => rwa [hnext] at h
    | some c =>
      rw [hnext] at h
      simp only [Bind.bind, Except.bind] at h ⊢
      cases hskip : skipLoop n p kpPool (calCkps n kpPool c) c last fuel
          (initPattern n p (calCkps n kpPool c) c.toFinset last) with
      | error e =>
        rw [hskip] at h
        have he : (.error e : Except Halt (Option (List Nat))) ≠ .error .outOfFuel := by
          intro he
          cases he
          exact hr h.symm
        rw [skipLoop_mono hle he hskip]
        exact h
      | ok pattern =>
        rw [hskip] at h
        rw [skipLoop_mono hle (by simp) hskip]
        cases pattern with
        | some w => exact h
        | none => exact ih (Nat.le_of_succ_le_succ hrounds) h

theorem nextWord_mono (hle : fuel ≤ fuel') {pattern : List Nat}
    {r : Except Halt (List Nat × List Nat × List Nat)} (hr : r ≠ .error .outOfFuel)
    (h : nextWord fuel n p kpPool last chosen ckps pattern = r) :
    nextWord fuel' n p kpPool last chosen ckps pattern = r := by
  unfold nextWord at h ⊢
  simp only [Bind.bind, Except.bind] at h ⊢
  cases hskip : skipLoop n p kpPool ckps chosen last fuel
      (nextPattern n p ckps pattern chosen.toFinset last) with
  | error e =>
    rw [hskip] at h
    have he : (.error e : Except Halt (Option (List Nat))) ≠ .error .outOfFuel := by
      intro he
      cases he
      exact hr h.symm
    rw [skipLoop_mono hle he hskip]
    exact h
  | ok pattern =>
    rw [hskip] at h
    rw [skipLoop_mono hle (by simp) hskip]
    cases pattern with
    | some w => exact h
    | none => exact chosenLoop_mono hle hle hr h

theorem initLoop_mono (hle : fuel ≤ fuel') {r : Except Halt (List Nat × List Nat)}
    (hr : r ≠ .error .outOfFuel) (h : initLoop n p kpPool last fuel chosen = r) :
    initLoop n p kpPool last fuel' chosen = r := by
  induction fuel generalizing fuel' chosen with
  | zero => exact absurd h.symm hr
  | succ fuel ih =>
    obtain ⟨fuel', rfl⟩ := Nat.exists_eq_succ_of_ne_zero (Nat.ne_zero_of_lt hle)
    rw [initLoop] at h ⊢
    cases hnext : nextChosen n p chosen with
    | none => rwa [hnext] at h
    | some c =>
      simp only [hnext] at h ⊢
      cases hinit : initPattern n p (calCkps n kpPool c) c.toFinset last with
      | some w => rwa [hinit] at h
      | none =>
        rw [hinit] at h
        exact ih (Nat.le_of_succ_le_succ hle) h

theorem SBPMESched.nextIter_mono (hle : fuel ≤ fuel') {s : SBPMESched}
    {r : Except Halt SBPMESched} (hr : r ≠ .error .outOfFuel) (h : s.nextIter fuel = r) :
    s.nextIter fuel' = r := by
  unfold SBPMESched.nextIter at h ⊢
  simp only [Bind.bind, Except.bind] at h ⊢
  generalize nextSched s.n _ _ _ _ = next at h ⊢
  cases next with
  | some sched => exact h
  | none =>
    cases hword : nextWord fuel s.n (s.p - s.start) s.kpPool
        (if s.start = 0 then none else s.pattern[s.start - 1]?) s.chosen s.ckps
        (s.pattern.drop s.start) with
    | ok v =>
      simp only [hword] at h
      simp only [nextWord_mono hle (by simp) hword]
      exact h
    | error e =>
      simp only [hword] at h
      have he : (.error e : Except Halt (List Nat × List Nat × List Nat)) ≠ .error .outOfFuel := by
        intro he
        cases he
        exact hr h.symm
      simp only [nextWord_mono hle he hword]
      exact h

end Rounds

/-! ## The order of the words -/

def mixedWords (n p : Nat) (kps chosen : List Nat) : List (List Nat) :=
  words n p (calCkps n kps chosen) chosen.toFinset none

/-- The words of the given sets that are not skipped. -/
def openPairs (n p : Nat) (kps : List Nat) (sets : List (List Nat)) : List (List Nat × List Nat) :=
  sets.flatMap fun chosen =>
    ((mixedWords n p kps chosen).filter fun w => ¬ Skipped (minDumped n kps chosen) w).map (chosen, ·)

theorem openPairs_split (n p : Nat) (kps c : List Nat) (preC postC : List (List Nat)) :
    openPairs n p kps (preC ++ c :: postC) = openPairs n p kps preC ++
      ((mixedWords n p kps c).filter fun w => ¬ Skipped (minDumped n kps c) w).map (c, ·) ++
        openPairs n p kps postC := by
  simp only [openPairs, List.flatMap_append, List.flatMap_cons, List.append_assoc]

/-- The word the constructor starts with; it is not tested. -/
def firstPair (n p : Nat) (kps : List Nat) : Option (List Nat × List Nat) :=
  (chosenLists n p).findSome? fun chosen => (mixedWords n p kps chosen).head?.map (chosen, ·)

/-- The chosen sets and words in the order in which they are visited. -/
def mixedPairs (n p : Nat) (kps : List Nat) : List (List Nat × List Nat) :=
  match firstPair n p kps with
  | none => []
  | some v =>
    if Skipped (minDumped n kps v.1) v.2 then v :: openPairs n p kps (chosenLists n p)
    else openPairs n p kps (chosenLists n p)

/-- The chosen threads exist and have key points. -/
def Choosable (n : Nat) (kps chosen : List Nat) : Prop := ∀ i ∈ chosen, i < n ∧ 0 < kpsOf kps i

structure Enough (n p : Nat) (kps : List Nat) (fuel : Nat) : Prop where
  sets : (chosenLists n p).length < fuel
  words : ∀ chosen ∈ chosenLists n p, (mixedWords n p kps chosen).length ≤ fuel

theorem exists_enough (n p : Nat) (kps : List Nat) :
    ∃ N, ∀ fuel, N ≤ fuel → Enough n p kps fuel := by
  refine ⟨(chosenLists n p).length + 1 +
    ((chosenLists n p).map fun c => (mixedWords n p kps c).length).sum, fun fuel hfuel => ?_⟩
  refine ⟨by omega, fun chosen hc => ?_⟩
  have hle := List.le_sum_of_mem (List.mem_map.mpr ⟨chosen, hc, rfl⟩ :
    (mixedWords n p kps chosen).length ∈
      (chosenLists n p).map fun c => (mixedWords n p kps c).length)
  omega

@[simp] theorem kpsOf_calCkps (n : Nat) (kps chosen : List Nat) (i : Nat) :
    kpsOf (calCkps n kps chosen) i = if i ∈ chosen ∧ i < n then kpsOf kps i else 0 := by
  have hfold : ∀ (cs acc : List Nat), kpsOf (cs.foldl (fun ckps i => ckps.set i (kpsOf kps i)) acc) i =
      if i ∈ cs ∧ i < acc.length then kpsOf kps i else kpsOf acc i := by
    intro cs
    induction cs with
    | nil => simp
    | cons c cs ih =>
      intro acc
      rw [List.foldl_cons, ih, List.length_set]
      by_cases hi : i ∈ cs ∧ i < acc.length
      · rw [if_pos hi, if_pos ⟨List.mem_cons_of_mem c hi.1, hi.2⟩]
      · rw [if_neg hi]
        simp only [kpsOf, List.getD_eq_getElem?_getD, List.getElem?_set]
        by_cases hc : c = i
        · subst hc
          by_cases hlen : c < acc.length
          · simp [hlen]
          · simp [hlen]
        · rw [if_neg hc, if_neg]
          intro h
          exact hi ⟨(List.mem_cons.mp h.1).resolve_left (Ne.symm hc), h.2⟩
  rw [calCkps, hfold, List.length_replicate]
  by_cases hi : i ∈ chosen ∧ i < n
  · rw [if_pos hi, if_pos hi]
  · rw [if_neg hi, if_neg hi, kpsOf, List.getD_eq_getElem?_getD, List.getElem?_replicate]
    split <;> rfl

theorem Choosable.feasible {n : Nat} {kps chosen : List Nat} (h : Choosable n kps chosen) :
    Feasible n (calCkps n kps chosen) chosen.toFinset := by
  intro i hi
  have hi := List.mem_toFinset.mp hi
  obtain ⟨hlt, hpos⟩ := h i hi
  exact ⟨hlt, by rwa [kpsOf_calCkps, if_pos ⟨hi, hlt⟩]⟩

theorem skipLoop_eq {n p : Nat} (kps : List Nat) {ckps chosen : List Nat} {last : Option Nat}
    {l : List (List Nat)} {fuel : Nat}
    (hw : WalksTo (fun w => nextPattern n p ckps w chosen.toFinset last) l none)
    (hfuel : l.length ≤ fuel) :
    skipLoop n p kps ckps chosen last fuel l.head? =
      .ok (l.find? fun w => ¬ Skipped (minDumped n kps chosen) w) := by
  induction l generalizing fuel with
  | nil =>
    cases fuel with
    | zero => rfl
    | succ fuel => rfl
  | cons w l ih =>
    obtain ⟨fuel, rfl⟩ := Nat.exists_eq_succ_of_ne_zero (Nat.ne_zero_of_lt hfuel)
    have hnext : nextPattern n p ckps w chosen.toFinset last = l.head? := hw.1.trans Option.or_none
    rw [List.head?_cons, skipLoop]
    by_cases hskip : Skipped (minDumped n kps chosen) w
    · rw [if_pos hskip, hnext, ih hw.2 (Nat.le_of_succ_le_succ hfuel),
        List.find?_cons_of_neg (by simpa using hskip)]
    · rw [if_neg hskip, List.find?_cons_of_pos (by simpa using hskip)]

theorem mixedWords_walks {n p : Nat} {kps chosen : List Nat} (hp : 0 < p)
    (h : Choosable n kps chosen) :
    WalksTo (fun w => nextPattern n p (calCkps n kps chosen) w chosen.toFinset none)
      (mixedWords n p kps chosen) none :=
  nextPattern_walks hp h.feasible

def found (n : Nat) (kps : List Nat) :
    Option (List Nat × List Nat) → Except Halt (List Nat × List Nat × List Nat)
  | some (chosen, w) => .ok (chosen, calCkps n kps chosen, w)
  | none => .error .stopIteration

def wordStep (fuel n p : Nat) (kps : List Nat) : List Nat × List Nat → Option (List Nat × List Nat)
  | (c, w) =>
    match nextWord fuel n p kps none c (calCkps n kps c) w with
    | .ok (c', _, w') => some (c', w')
    | .error _ => none

/-- The loops of the search go through `wordsOf` of each set and have rounds enough for it. -/
structure GoesThrough (n p : Nat) (kps : List Nat) (last : Option Nat)
    (wordsOf : List Nat → List (List Nat)) (fuel : Nat) : Prop where
  init : ∀ c ∈ chosenLists n p,
    initPattern n p (calCkps n kps c) c.toFinset last = (wordsOf c).head?
  walks : ∀ c ∈ chosenLists n p,
    WalksTo (fun w => nextPattern n p (calCkps n kps c) w c.toFinset last) (wordsOf c) none
  sets : (chosenLists n p).length < fuel
  words : ∀ c ∈ chosenLists n p, (wordsOf c).length ≤ fuel

def openWord (n : Nat) (kps c : List Nat) (l : List (List Nat)) : Option (List Nat × List Nat) :=
  (l.find? fun w => ¬ Skipped (minDumped n kps c) w).map (c, ·)

namespace GoesThrough

variable {n p : Nat} {kps : List Nat} {last : Option Nat} {wordsOf : List Nat → List (List Nat)}
  {fuel : Nat} (h : GoesThrough n p kps last wordsOf fuel)
include h

theorem initLoop_from {c : List Nat} {l : List (List Nat)} (rounds : Nat)
    (hmem : ∀ d ∈ l, d ∈ chosenLists n p) (hnext : nextChosen n p c = l.head?)
    (hw : WalksTo (nextChosen n p) l none) (hrounds : l.length < rounds) :
    initLoop n p kps last rounds c = (l.findSome? fun d => (wordsOf d).head?.map (d, ·)).elim
      (.error (.valueError "Can't finish initialising pattern!")) .ok := by
  induction l generalizing c rounds with
  | nil =>
    obtain ⟨rounds, rfl⟩ := Nat.exists_eq_succ_of_ne_zero (Nat.ne_zero_of_lt hrounds)
    rw [initLoop, hnext]
    rfl
  | cons d l ih =>
    obtain ⟨rounds, rfl⟩ := Nat.exists_eq_succ_of_ne_zero (Nat.ne_zero_of_lt hrounds)
    rw [initLoop, hnext]
    simp only [List.head?_cons, h.init d (hmem d List.mem_cons_self), List.findSome?_cons]
    cases (wordsOf d).head? with
    | some w => rfl
    | none =>
      exact ih rounds (fun e he => hmem e (List.mem_cons_of_mem d he))
        (hw.1.trans Option.or_none) hw.2 (Nat.lt_of_succ_lt_succ hrounds)

/-- The constructor takes the first word of the first set that has one. -/
theorem initLoop_eq :
    initLoop n p kps last fuel [] =
      ((chosenLists n p).findSome? fun d => (wordsOf d).head?.map (d, ·)).elim
        (.error (.valueError "Can't finish initialising pattern!")) .ok :=
  h.initLoop_from fuel (fun _ hd => hd) (nextChosen_nil n p) (nextChosen_walks n p) h.sets

theorem chosenLoop_eq {c : List Nat} {l : List (List Nat)} (rounds : Nat)
    (hmem : ∀ d ∈ l, d ∈ chosenLists n p) (hnext : nextChosen n p c = l.head?)
    (hw : WalksTo (nextChosen n p) l none) (hrounds : l.length < rounds) :
    chosenLoop fuel n p kps last rounds c =
      found n kps (l.findSome? fun d => openWord n kps d (wordsOf d)) := by
  induction l generalizing c rounds with
  | nil =>
    obtain ⟨rounds, rfl⟩ := Nat.exists_eq_succ_of_ne_zero (Nat.ne_zero_of_lt hrounds)
    rw [chosenLoop, hnext]
    rfl
  | cons d l ih =>
    obtain ⟨rounds, rfl⟩ := Nat.exists_eq_succ_of_ne_zero (Nat.ne_zero_of_lt hrounds)
    have hd := hmem d List.mem_cons_self
    have hloop := skipLoop_eq kps (h.walks d hd) (h.words d hd)
    have ih := ih rounds (fun e he => hmem e (List.mem_cons_of_mem d he))
      (hw.1.trans Option.or_none) hw.2 (Nat.lt_of_succ_lt_succ hrounds)
    rw [chosenLoop, hnext]
    simp only [List.head?_cons, h.init d hd, hloop, Bind.bind, Except.bind, List.findSome?_cons,
      openWord]
    cases hfind : (wordsOf d).find? fun w => ¬ Skipped (minDumped n kps d) w with
    | none => exact ih
    | some w => rfl

/-- The search goes on behind the current word and then behind the current set. -/
theorem nextWord_eq {c w : List Nat} {pre post : List (List Nat)} {preC postC : List (List Nat)}
    (hsets : chosenLists n p = preC ++ c :: postC) (hwords : wordsOf c = pre ++ w :: post) :
    nextWord fuel n p kps last c (calCkps n kps c) w =
      found n kps ((openWord n kps c post).or
        (postC.findSome? fun d => openWord n kps d (wordsOf d))) := by
  have hc : c ∈ chosenLists n p := by simp [hsets]
  have hpost : ∀ d ∈ postC, d ∈ chosenLists n p := fun d hd => by simp [hsets, hd]
  have hfuelC := h.sets
  rw [hsets, List.length_append, List.length_cons] at hfuelC
  have hfuelW := h.words c hc
  rw [hwords, List.length_append, List.length_cons] at hfuelW
  have hwalkC := nextChosen_walks n p
  rw [hsets] at hwalkC
  have hwalkC := ((walksTo_append _ _ _).mp hwalkC).2
  have hwalkW := h.walks c hc
  rw [hwords] at hwalkW
  have hwalkW := ((walksTo_append _ _ _).mp hwalkW).2
  have hnext : nextPattern n p (calCkps n kps c) w c.toFinset last = post.head? :=
    hwalkW.1.trans Option.or_none
  have hloop := h.chosenLoop_eq fuel hpost (hwalkC.1.trans Option.or_none) hwalkC.2 (by omega)
  rw [nextWord, hnext, skipLoop_eq kps hwalkW.2 (by omega), openWord]
  simp only [Bind.bind, Except.bind]
  cases hfind : post.find? fun w => ¬ Skipped (minDumped n kps c) w with
  | none => exact hloop
  | some w' => rfl

end GoesThrough

section Search
variable {n p : Nat} {kps : List Nat} (hp : 0 < p)
  (hkps : ∀ chosen ∈ chosenLists n p, Choosable n kps chosen) {fuel : Nat}
  (hfuel : Enough n p kps fuel)

theorem openPairs_head (l : List (List Nat)) :
    (openPairs n p kps l).head? = l.findSome? fun d => openWord n kps d (mixedWords n p kps d) := by
  simp only [openPairs, List.head?_flatMap, List.head?_map, List.head?_filter, openWord]

include hp hkps hfuel

theorem mixedWords_goesThrough : GoesThrough n p kps none (mixedWords n p kps) fuel where
  init c hc := initPattern_eq hp (hkps c hc).feasible
  walks c hc := mixedWords_walks hp (hkps c hc)
  sets := hfuel.sets
  words := hfuel.words

theorem wordStep_eq {c w : List Nat} {pre post : List (List Nat)} {preC postC : List (List Nat)}
    (hsets : chosenLists n p = preC ++ c :: postC)
    (hwords : mixedWords n p kps c = pre ++ w :: post) :
    wordStep fuel n p kps (c, w) =
      (openWord n kps c post).or (openPairs n p kps postC).head? := by
  rw [wordStep, (mixedWords_goesThrough hp hkps hfuel).nextWord_eq hsets hwords, openPairs_head]
  generalize (openWord n kps c post).or
    (postC.findSome? fun d => openWord n kps d (mixedWords n p kps d)) = o
  cases o <;> rfl

theorem nextWord_found {c w : List Nat} (hc : c ∈ chosenLists n p) (hw : w ∈ mixedWords n p kps c) :
    nextWord fuel n p kps none c (calCkps n kps c) w = found n kps (wordStep fuel n p kps (c, w)) := by
  obtain ⟨preC, postC, hsets⟩ := List.append_of_mem hc
  obtain ⟨pre, post, hwords⟩ := List.append_of_mem hw
  rw [(mixedWords_goesThrough hp hkps hfuel).nextWord_eq hsets hwords,
    wordStep_eq hp hkps hfuel hsets hwords, openPairs_head]

theorem openPairs_walks :
    WalksTo (wordStep fuel n p kps) (openPairs n p kps (chosenLists n p)) none := by
  apply walksTo_flatMap
  intro preC c postC hsets
  apply walksTo_filter
  intro pre w post hwords
  rw [wordStep_eq hp hkps hfuel hsets hwords, Option.or_none]
  rfl

omit hp hkps hfuel in
theorem firstPair_eq_some {c w : List Nat} (h : firstPair n p kps = some (c, w)) :
    ∃ preC postC post, chosenLists n p = preC ++ c :: postC ∧ mixedWords n p kps c = w :: post ∧
      openPairs n p kps preC = [] := by
  obtain ⟨preC, d, postC, hsets, hd, hpre⟩ := List.findSome?_eq_some_iff.mp h
  obtain ⟨w', hw', hpair⟩ := Option.map_eq_some_iff.mp hd
  cases hpair
  obtain ⟨post, hpost⟩ := List.head?_eq_some_iff.mp hw'
  refine ⟨preC, postC, post, hsets, hpost, List.flatMap_eq_nil_iff.mpr fun e he => ?_⟩
  rw [List.head?_eq_none_iff.mp (Option.map_eq_none_iff.mp (hpre e he))]
  rfl

theorem mixedPairs_walks : WalksTo (wordStep fuel n p kps) (mixedPairs n p kps) none := by
  rw [mixedPairs]
  cases hfirst : firstPair n p kps with
  | none => trivial
  | some v =>
    obtain ⟨c, w⟩ := v
    by_cases hskip : Skipped (minDumped n kps c) w
    · obtain ⟨preC, postC, post, hsets, hwords, hpre⟩ := firstPair_eq_some hfirst
      simp only [if_pos hskip]
      refine ⟨?_, openPairs_walks hp hkps hfuel⟩
      have hsplit : mixedWords n p kps c = [] ++ w :: post := hwords
      rw [wordStep_eq hp hkps hfuel hsets hsplit, Option.or_none, hsets,
        openPairs_split, hpre, hwords, List.filter_cons_of_neg (by simpa using hskip),
        List.nil_append, List.head?_append, List.head?_map, List.head?_filter, openWord]
    · simp only [if_neg hskip]
      exact openPairs_walks hp hkps hfuel

omit hp hkps hfuel in
theorem mixedPairs_head : (mixedPairs n p kps).head? = firstPair n p kps := by
  rw [mixedPairs]
  cases hfirst : firstPair n p kps with
  | none => rfl
  | some v =>
    obtain ⟨c, w⟩ := v
    by_cases hskip : Skipped (minDumped n kps c) w
    · simp only [if_pos hskip, List.head?_cons]
    · obtain ⟨preC, postC, post, hsets, hwords, hpre⟩ := firstPair_eq_some hfirst
      simp only [if_neg hskip]
      rw [hsets, openPairs_split, hpre, hwords, List.filter_cons_of_pos (by simpa using hskip)]
      rfl

omit hp hkps hfuel in
theorem mem_mixedPairs {c w : List Nat} (h : (c, w) ∈ mixedPairs n p kps) :
    c ∈ chosenLists n p ∧ w ∈ mixedWords n p kps c := by
  have hopen : (c, w) ∈ openPairs n p kps (chosenLists n p) →
      c ∈ chosenLists n p ∧ w ∈ mixedWords n p kps c := by
    intro h
    obtain ⟨d, hd, hmem⟩ := List.mem_flatMap.mp h
    obtain ⟨v, hv, hpair⟩ := List.mem_map.mp hmem
    cases hpair
    exact ⟨hd, (List.mem_filter.mp hv).1⟩
  rw [mixedPairs] at h
  cases hfirst : firstPair n p kps with
  | none => simp [hfirst] at h
  | some v =>
    obtain ⟨c', w'⟩ := v
    simp only [hfirst] at h
    split at h
    · rcases List.mem_cons.mp h with hpair | h
      · cases hpair
        obtain ⟨preC, postC, post, hsets, hwords, _⟩ := firstPair_eq_some hfirst
        simp [hsets, hwords]
      · exact hopen h
    · exact hopen h

end Search

/-! ## The states -/

/-- The chosen threads and the word with the schedules of the chosen threads. -/
def mixedTriples (n p : Nat) (kps : List Nat) : List ((List Nat × List Nat) × Schedule) :=
  layered n (fun v => calCkps n kps v.1) Prod.snd (mixedPairs n p kps)

def mixedStep (fuel n p : Nat) (kps : List Nat) :
    (List Nat × List Nat) × Schedule → Option ((List Nat × List Nat) × Schedule) :=
  layeredStep n p (fun v => calCkps n kps v.1) Prod.snd (wordStep fuel n p kps)

/-- The schedule with everything that was not chosen in its last period. -/
def mixedSched (n : Nat) (kps : List Nat) (a : (List Nat × List Nat) × Schedule) : Schedule :=
  extendLast a.2 (otherKps n kps (calCkps n kps a.1.1))

/-- The scheduler, without a given prefix, is at the given chosen threads, word and schedule. -/
structure SBPMESched.At (n p : Nat) (kps : List Nat) (a : (List Nat × List Nat) × Schedule)
    (s : SBPMESched) : Prop where
  n_eq : s.n = n
  p_eq : s.p = p
  kpPool_eq : s.kpPool = kps
  start_eq : s.start = 0
  chosen_eq : s.chosen = a.1.1
  ckps_eq : s.ckps = calCkps n kps a.1.1
  pattern_eq : s.pattern = a.1.2
  schedChosen_eq : s.schedChosen = a.2
  schedOther_eq : s.schedOther = otherKps n kps (calCkps n kps a.1.1)
  sched_perm : List.Forall₂ List.Perm s.sched (mixedSched n kps a)

theorem extendLast_concat (sched : Schedule) (period other : List Nat) :
    extendLast (sched ++ [period]) other = sched ++ [period ++ other] := by
  have hlen : (sched ++ [period]).length - 1 = sched.length := by simp
  rw [extendLast, hlen]
  apply List.ext_getElem?
  intro j
  rw [List.getElem?_modify]
  rcases Nat.lt_trichotomy j sched.length with hj | hj | hj
  · have hne : sched.length ≠ j := by omega
    rw [List.getElem?_append_left hj, List.getElem?_append_left hj]
    simp [hne]
  · subst hj
    simp
  · rw [List.getElem?_eq_none (by simp; omega), List.getElem?_eq_none (by simp; omega)]
    rfl

theorem extendLast_count {sched : Schedule} (hne : sched ≠ []) (other : List Nat) (t : Nat) :
    (extendLast sched other).flatten.count t = sched.flatten.count t + other.count t := by
  obtain ⟨sched, period, rfl⟩ := (List.eq_nil_or_concat' sched).resolve_left hne
  rw [extendLast_concat]
  simp only [List.flatten_append, List.flatten_singleton, List.count_append, Nat.add_assoc]

/-- The other threads are counted once all periods are. -/
theorem extendLast_count_take {sched : Schedule} (hpos : 0 < sched.length) (other : List Nat)
    (j t : Nat) :
    ((extendLast sched other).take j).flatten.count t =
      (sched.take j).flatten.count t + if sched.length ≤ j then other.count t else 0 := by
  obtain ⟨sched, period, rfl⟩ := (List.eq_nil_or_concat' sched).resolve_left (List.length_pos_iff.mp hpos)
  rw [extendLast_concat, List.length_append, List.length_singleton]
  rcases Nat.lt_or_ge j (sched.length + 1) with hj | hj
  · rw [if_neg (by omega), List.take_append_of_le_length (by omega),
      List.take_append_of_le_length (by omega), Nat.add_zero]
  · rw [if_pos hj, List.take_of_length_le (by simpa using hj),
      List.take_of_length_le (by simpa using hj)]
    simp only [List.flatten_append, List.flatten_singleton, List.count_append, Nat.add_assoc]

theorem otherKps_count (n : Nat) (kps ckps : List Nat) (t : Nat) :
    (otherKps n kps ckps).count t = if t < n ∧ kpsOf ckps t = 0 then kpsOf kps t else 0 := by
  induction n with
  | zero => simp [otherKps]
  | succ n ih =>
    rw [otherKps] at ih ⊢
    rw [List.range_succ, List.flatMap_append, List.count_append, ih, List.flatMap_singleton]
    by_cases hn : n = t
    · subst hn
      by_cases hzero : kpsOf ckps n = 0 <;> simp [hzero]
    · have hiff : t < n + 1 ↔ t < n := by omega
      have hcount : List.count t (if kpsOf ckps n = 0 then List.replicate (kpsOf kps n) n else []) = 0 := by
        split
        · exact List.count_eq_zero.mpr fun h => hn (List.mem_replicate.mp h).2.symm
        · exact List.count_nil
      simp only [hcount, hiff, Nat.add_zero]

theorem normSched_perm (sched : Schedule) : List.Forall₂ List.Perm (normSched sched) sched := by
  rw [normSched, List.forall₂_map_left_iff, List.forall₂_same]
  exact fun period _ => List.mergeSort_perm period _

section States
variable {n p : Nat} {kps : List Nat} {fuel : Nat} {a b : (List Nat × List Nat) × Schedule}
  {s : SBPMESched}

def SBPMESched.withWord (s : SBPMESched) (chosen ckps pattern : List Nat) : SBPMESched :=
  { s with pattern, chosen, ckps, schedOther := otherKps s.n s.kpPool ckps }

theorem SBPMESched.nextIter_eq (hstart : s.start = 0) :
    s.nextIter fuel =
      match nextSched s.n s.ckps s.p s.schedChosen s.pattern with
      | some schedChosen => .ok (s.finish schedChosen)
      | none => do
        let (chosen, ckps, pattern) ←
          nextWord fuel s.n s.p s.kpPool none s.chosen s.ckps s.pattern
        return (s.withWord chosen ckps pattern).finish (initSched s.n ckps s.p pattern) := by
  unfold SBPMESched.nextIter SBPMESched.withWord
  simp only [hstart, Nat.lt_irrefl, if_false, if_true, Nat.sub_zero, Nat.zero_sub, List.drop_zero,
    List.take_zero, List.nil_append]

theorem SBPMESched.finish_at {v : List Nat × List Nat} {sched : Schedule} (hn : s.n = n)
    (hp : s.p = p) (hpool : s.kpPool = kps) (hstart : s.start = 0) (hchosen : s.chosen = v.1)
    (hckps : s.ckps = calCkps n kps v.1) (hpattern : s.pattern = v.2)
    (hother : s.schedOther = otherKps n kps (calCkps n kps v.1)) :
    SBPMESched.At n p kps (v, sched) (s.finish sched) := by
  have hchosenSched : (s.finish sched).schedChosen = sched := by
    rw [SBPMESched.finish, hstart]
    rfl
  refine ⟨hn, hp, hpool, hstart, hchosen, hckps, hpattern, hchosenSched, hother, ?_⟩
  have hsched : (s.finish sched).sched = normSched (mixedSched n kps (v, sched)) := by
    rw [SBPMESched.finish, hstart, hother]
    rfl
  rw [hsched]
  exact normSched_perm _

theorem SBPMESched.nextIter_some (h : SBPMESched.At n p kps a s)
    (hword : nextWord fuel n p kps none a.1.1 (calCkps n kps a.1.1) a.1.2 =
      found n kps (wordStep fuel n p kps a.1)) (hstep : mixedStep fuel n p kps a = some b) :
    ∃ s', s.nextIter fuel = .ok s' ∧ SBPMESched.At n p kps b s' := by
  obtain ⟨v, sched⟩ := a
  rw [mixedStep, layeredStep] at hstep
  rw [SBPMESched.nextIter_eq h.start_eq, h.n_eq, h.p_eq, h.kpPool_eq, h.chosen_eq, h.ckps_eq,
    h.pattern_eq, h.schedChosen_eq, hword]
  cases hsched : nextSched n (calCkps n kps v.1) p sched v.2 with
  | some sched' =>
    rw [hsched] at hstep
    obtain rfl : (v, sched') = b := by simpa using hstep
    exact ⟨_, rfl, SBPMESched.finish_at h.n_eq h.p_eq h.kpPool_eq h.start_eq h.chosen_eq h.ckps_eq
      h.pattern_eq h.schedOther_eq⟩
  | none =>
    rw [hsched] at hstep
    cases hv : wordStep fuel n p kps v with
    | none => simp [hv] at hstep
    | some v' =>
      obtain rfl : (v', initSched n (calCkps n kps v'.1) p v'.2) = b := by simpa [hv] using hstep
      refine ⟨_, rfl, SBPMESched.finish_at h.n_eq h.p_eq h.kpPool_eq h.start_eq rfl rfl rfl ?_⟩
      rw [SBPMESched.withWord, h.n_eq, h.kpPool_eq]

theorem SBPMESched.nextIter_none (h : SBPMESched.At n p kps a s)
    (hword : nextWord fuel n p kps none a.1.1 (calCkps n kps a.1.1) a.1.2 =
      found n kps (wordStep fuel n p kps a.1)) (hstep : mixedStep fuel n p kps a = none) :
    s.nextIter fuel = .error .stopIteration := by
  obtain ⟨v, sched⟩ := a
  rw [mixedStep, layeredStep, Option.or_eq_none_iff, Option.map_eq_none_iff,
    Option.map_eq_none_iff] at hstep
  obtain ⟨hsched, hv⟩ := hstep
  rw [hv] at hword
  rw [SBPMESched.nextIter_eq h.start_eq, h.n_eq, h.p_eq, h.kpPool_eq, h.chosen_eq, h.ckps_eq,
    h.pattern_eq, h.schedChosen_eq, hword, hsched]
  rfl

end States

def SBPMESched.atStart (n p : Nat) (kps : List Nat) (v : List Nat × List Nat) : SBPMESched :=
  let sched := initSched n (calCkps n kps v.1) p v.2
  let other := otherKps n kps (calCkps n kps v.1)
  { n, kps, p, sched := extendLast sched other, kpPool := kps, pattern := v.2
    chosen := v.1.mergeSort (· ≤ ·), ckps := calCkps n kps v.1, schedChosen := sched
    schedOther := other, start := 0, last := 0, lastCount := 0
    schedPrefix := (extendLast sched other).take 1 }

theorem SBPMESched.init_nil {n p : Nat} {kps kps' : List Nat} (hp : 0 < p)
    (hpad : padKps (max n kps.length) kps = .ok kps') (fuel : Nat) :
    SBPMESched.init fuel n kps p [] false =
      (initLoop (max n kps.length) p kps' none fuel []).map
        (SBPMESched.atStart (max n kps.length) p kps') := by
  have hbase := initHelper_nil p hpad
  unfold SBPMESched.init
  rw [hbase]
  simp only [Bind.bind, Except.bind, Pure.pure, Except.pure, List.any_nil, Bool.false_eq_true,
    if_false, patternOf_nil, List.isEmpty_nil, List.length_nil, Nat.sub_zero, List.getLast?_nil,
    Option.bind_none, Option.any_none, and_false, not_true, false_and, if_true, Nat.ne_of_lt hp,
    List.nil_append, List.foldlM_nil]
  cases initLoop (max n kps.length) p kps' none fuel [] <;> rfl

theorem SBPMESched.init_mono {n p : Nat} {kps kps' : List Nat} (hp : 0 < p)
    (hpad : padKps (max n kps.length) kps = .ok kps') {fuel fuel' : Nat} (hle : fuel ≤ fuel')
    {s : SBPMESched} (h : SBPMESched.init fuel n kps p [] false = .ok s) :
    SBPMESched.init fuel' n kps p [] false = .ok s := by
  rw [SBPMESched.init_nil hp hpad] at h ⊢
  cases hloop : initLoop (max n kps.length) p kps' none fuel [] with
  | error e =>
    rw [hloop] at h
    cases h
  | ok v =>
    rw [initLoop_mono hle (by simp) hloop, ← hloop]
    exact h

section Exhausting
variable {n p : Nat} {kps kps' : List Nat} (hp : 0 < p)
  (hpad : padKps (max n kps.length) kps = .ok kps')
  (hkps : ∀ chosen ∈ chosenLists (max n kps.length) p, Choosable (max n kps.length) kps' chosen)
  {fuel : Nat} (hfuel : Enough (max n kps.length) p kps' fuel)
include hp hpad hkps hfuel

theorem SBPMESched.init_at {v : List Nat × List Nat}
    (hv : firstPair (max n kps.length) p kps' = some v) :
    ∃ s, SBPMESched.init fuel n kps p [] false = .ok s ∧
      SBPMESched.At (max n kps.length) p kps'
        (v, initSched (max n kps.length) (calCkps (max n kps.length) kps' v.1) p v.2) s := by
  have hinit := SBPMESched.init_nil hp hpad fuel
  generalize max n kps.length = N at *
  have hloop := (mixedWords_goesThrough hp hkps hfuel).initLoop_eq
  rw [firstPair] at hv
  rw [hv, Option.elim_some] at hloop
  rw [← firstPair] at hv
  have hmem : v.1 ∈ chosenLists N p := by
    have hhead := @mixedPairs_head N p kps'
    rw [hv] at hhead
    exact (mem_mixedPairs (List.mem_of_head? hhead)).1
  have hsorted : v.1.mergeSort (· ≤ ·) = v.1 :=
    List.mergeSort_of_pairwise ((mem_chosenLists.mp hmem).2.2.1.imp fun h => by
      simpa using Nat.le_of_lt h)
  rw [hloop] at hinit
  exact ⟨_, hinit, rfl, rfl, rfl, rfl, hsorted, rfl, rfl, rfl, rfl,
    List.forall₂_same.mpr fun period _ => List.Perm.refl period⟩

/-- The iteration stops after it has passed the schedules of the walk, up to the order of
the key points inside the periods. -/
theorem SBPMESched.exhausts (hsome : firstPair (max n kps.length) p kps' ≠ none) {k : Nat}
    (hk : (mixedTriples (max n kps.length) p kps').length ≤ k) :
    ∃ s out, SBPMESched.init fuel n kps p [] false = .ok s ∧
      exhaust (SBPMESched.nextIter fuel) .stopIteration k s = some out ∧
      List.Forall₂ (SBPMESched.At (max n kps.length) p kps')
        (mixedTriples (max n kps.length) p kps') out := by
  obtain ⟨v, hv⟩ := Option.ne_none_iff_exists'.mp hsome
  obtain ⟨s, hinit, hat⟩ := SBPMESched.init_at hp hpad hkps hfuel hv
  generalize max n kps.length = N at *
  have hlegal : ∀ v ∈ mixedPairs N p kps', v.1 ∈ chosenLists N p ∧ v.2.length = p ∧
      LegalWord N (calCkps N kps' v.1) v.1.toFinset none v.2 := fun v hv =>
    ⟨(mem_mixedPairs hv).1, mem_words.mp (mem_mixedPairs hv).2⟩
  have hlen := fun v hv => (hlegal v hv).2.1
  have hlt := fun v hv => (hlegal v hv).2.2.lt
  have hle := fun v hv => (hlegal v hv).2.2.count_le
  have hhead := layered_head hlen hlt hle
  rw [mixedPairs_head, hv] at hhead
  obtain ⟨rest, hrest⟩ := List.head?_eq_some_iff.mp hhead
  have hwalk := layeredStep_walks hlen hlt hle (mixedPairs_walks hp hkps hfuel)
  have hword : ∀ a ∈ mixedTriples N p kps',
      nextWord fuel N p kps' none a.1.1 (calCkps N kps' a.1.1) a.1.2 =
        found N kps' (wordStep fuel N p kps' a.1) := by
    intro a ha
    obtain ⟨v, hv, hmem⟩ := List.mem_flatMap.mp ha
    obtain ⟨sched, _, rfl⟩ := List.mem_map.mp hmem
    exact nextWord_found hp hkps hfuel (mem_mixedPairs hv).1 (mem_mixedPairs hv).2
  rw [mixedTriples] at hk hword ⊢
  rw [hrest] at hwalk hword hk ⊢
  obtain ⟨out, hout, hall⟩ := exhaust_follows hwalk
    (fun a ha b s h hstep => SBPMESched.nextIter_some h (hword a ha) hstep)
    (fun a ha s h hstep => SBPMESched.nextIter_none h (hword a ha) hstep) hat
    (Nat.lt_of_succ_le hk)
  exact ⟨s, out, hinit, hout, hall⟩

end Exhausting

end Period.Scheduler
