import Period.Driver.Session
import Period.Foundation.Blocks
import Period.Interleaving.Iterator

/-!
# Stepping and incremental exploration

The main loop of `run_DBDS`. Stage 1 tests an interleaving and steps on to the next one within
the period limit; stage 2 pops saved interleavings until one gives a new start. What a test
meets is not up to the loop: a test may save the interleaving with any counts.
-/

namespace Period.Driver.Incremental

open Blocks Enumeration Rearrangement Runs
open Period.Interleaving
open Period.Scheduler
set_option autoImplicit false

/-- `get_period`. `none` is the `IndexError` of `inter[0]`. -/
def getPeriod (inter : List Nat) : Option Nat :=
  inter.head?.map fun com =>
    (inter.foldl (fun (r : Nat × Nat) each => if each = r.1 then r else (each, r.2 + 1)) (com, 1)).2

def comparePeriodLoop (p : Nat) : List Nat → Nat → Nat → Bool
  | [], _, _ => true
  | each :: inter, com, period =>
    if each = com then comparePeriodLoop p inter com period
    else if period + 1 > p then false
    else comparePeriodLoop p inter each (period + 1)

def comparePeriod (inter : List Nat) (p : Nat) : Option Bool :=
  inter.head?.map fun com => comparePeriodLoop p inter com 1

theorem getPeriod_cons (x : Nat) (l : List Nat) : getPeriod (x :: l) = some (blocks (x :: l)) := by
  have hfold : ∀ (l : List Nat) (com period : Nat),
      (l.foldl (fun (r : Nat × Nat) each => if each = r.1 then r else (each, r.2 + 1)) (com, period)).2 + 1 =
        period + blocks (com :: l) := by
    intro l
    induction l with
    | nil => exact fun _ _ => rfl
    | cons y l ih =>
      intro com period
      rw [List.foldl_cons]
      by_cases hy : y = com
      · subst hy
        rw [if_pos rfl, ih, blocks_cons_self]
      · rw [if_neg hy, ih, blocks_cons_ne (Ne.symm hy)]
        omega
  have hx := hfold (x :: l) x 1
  rw [blocks_cons_self, Nat.add_comm, Nat.add_left_cancel_iff] at hx
  rw [getPeriod, List.head?_cons, Option.map_some, hx]

theorem comparePeriod_cons (x : Nat) (l : List Nat) (p : Nat) :
    comparePeriod (x :: l) p = some (decide (blocks (x :: l) ≤ max p 1)) := by
  have hloop : ∀ (l : List Nat) (com period : Nat), 0 < period → period ≤ max p 1 →
      comparePeriodLoop p l com period = decide (period + blocks (com :: l) ≤ max p 1 + 1) := by
    intro l
    induction l with
    | nil =>
      intro com period _ hperiod
      rw [comparePeriodLoop, blocks_singleton]
      exact (decide_eq_true (Nat.succ_le_succ hperiod)).symm
    | cons y l ih =>
      intro com period hfirst hperiod
      rw [comparePeriodLoop]
      by_cases hy : y = com
      · subst hy
        rw [if_pos rfl, ih y period hfirst hperiod, blocks_cons_self]
      · have hpos := blocks_cons_pos y l
        rw [if_neg hy, blocks_cons_ne (Ne.symm hy)]
        split
        · exact (decide_eq_false (by omega)).symm
        · rw [ih y (period + 1) (by omega) (by omega)]
          exact decide_eq_decide.mpr (by omega)
  rw [comparePeriod, List.head?_cons, Option.map_some, hloop _ _ _ Nat.one_pos (Nat.le_max_right p 1),
    blocks_cons_self]
  congr 1
  exact decide_eq_decide.mpr (by omega)

def Respects (periodLimit : Nat) (inter : List Nat) : Prop :=
  periodLimit = 0 ∨ ∀ period ∈ getPeriod inter, period ≤ periodLimit

instance (periodLimit : Nat) (inter : List Nat) : Decidable (Respects periodLimit inter) :=
  inferInstanceAs (Decidable (_ ∨ _))

theorem respects_iff {periodLimit : Nat} {inter : List Nat} :
    Respects periodLimit inter ↔ periodLimit = 0 ∨ blocks inter ≤ periodLimit := by
  cases inter with
  | nil => exact or_congr_right ⟨fun _ => Nat.zero_le _, fun _ => nofun⟩
  | cons x l => simp [Respects, getPeriod_cons]

/-- The loop `while interleaving.interleaving_next(inter)`, with the rounds it has left. -/
def findLegalInter (periodLimit : Nat) : Nat → List Nat → Option (List Nat)
  | 0, _ => none
  | left + 1, inter =>
    let r := interleavingNext inter
    if r.2 then
      if periodLimit = 0 ∨ comparePeriod r.1 periodLimit = some true then some r.1
      else findLegalInter periodLimit left r.1
    else none

/-- There are not more rounds than permutations. -/
def nextLegalInter (periodLimit : Nat) (inter : List Nat) : Option (List Nat) :=
  findLegalInter periodLimit inter.length.factorial inter

theorem legal_iff {periodLimit : Nat} {inter : List Nat} (hinter : inter ≠ []) :
    (periodLimit = 0 ∨ comparePeriod inter periodLimit = some true) ↔ Respects periodLimit inter := by
  obtain ⟨x, l, rfl⟩ := List.exists_cons_of_ne_nil hinter
  rw [respects_iff, comparePeriod_cons, Option.some_inj, decide_eq_true_iff]
  constructor
  · rintro (hzero | hle)
    · exact Or.inl hzero
    · omega
  · rintro (hzero | hle)
    · exact Or.inl hzero
    · exact Or.inr (hle.trans (Nat.le_max_left _ _))

theorem findLegalInter_eq_seek (periodLimit left : Nat) (inter : List Nat) :
    findLegalInter periodLimit left inter =
      seek interleavingStep (fun l => decide (Respects periodLimit l)) left inter := by
  induction left generalizing inter with
  | zero => rfl
  | succ left ih =>
    rw [findLegalInter, seek, interleavingStep]
    by_cases hsome : (interleavingNext inter).2 = true
    · have hne : (interleavingNext inter).1 ≠ [] := by
        rcases interleavingNext_cases inter with ⟨_, hnext⟩ | ⟨front, x, y, lows, highs, _, _, hnext⟩
        · rw [hnext] at hsome
          cases hsome
        · rw [hnext]
          exact List.append_ne_nil_of_right_ne_nil _ (List.cons_ne_nil _ _)
      simp only [if_pos hsome, Option.bind_some, legal_iff hne, decide_eq_true_iff, ih]
    · simp only [if_neg hsome, Option.bind_none]

/-- Stage 1 goes through the interleavings within the limit, whatever it starts from. -/
theorem nextLegalInter_walks (periodLimit : Nat) (inter : List Nat) :
    WalksTo (nextLegalInter periodLimit)
      (inter :: (later inter).filter fun l => Respects periodLimit l) none := by
  have hwalk := interleavingStep_walks inter
  rw [rearrangements_eq_later] at hwalk
  apply walksTo_seek ((walksTo_append _ _ _).mp hwalk).2
  intro l hl
  refine ⟨l.length.factorial, ?_, findLegalInter_eq_seek _ _ l⟩
  have hlen : l.length = inter.length := by
    rcases List.mem_cons.mp hl with rfl | hl
    · rfl
    · exact (mem_later.mp hl).1.length_eq
  rw [hlen]
  exact Nat.le_of_lt (length_later_lt inter)

structure Options where
  varModeFlag : Nat
  periodLimit : Nat
  runsLimit : Nat

/-- What a test with new coverage hands to `add_to_explore_dict`, next to its interleaving. -/
structure Found where
  coverageHashID : Nat
  pattern : List (List Nat)
  A : Nat
  B : Nat
  kpNumArray : Nat → Nat

inductive Phase where
  /-- The next turn of the main loop, in stage 1. -/
  | testing
  /-- `while waited_to_explore`, in stage 2. -/
  | popping
  | ended
  deriving DecidableEq, Repr

structure State where
  phase : Phase
  rounds : Nat
  inter : List Nat
  /-- `CurdirectInter[0]`, unless `CurdirectInter` is empty. -/
  curdirectInter : Option (List Nat)
  directInterList : List (List Nat)
  waitedToExplore : OrderedDict Nat Interesting
  /-- What has been tested since the last pop. -/
  tested : List (List Nat)

inductive Event where
  /-- One test; `none` when it met nothing new or did not return. -/
  | test (found : Option Found)
  /-- One turn of `while waited_to_explore`. -/
  | pop

section Step
variable (c : Options)

def start (inter : List Nat) (directInterList : List (List Nat)) : State where
  phase := .testing
  rounds := 0
  inter := inter
  curdirectInter := directInterList.getLast?
  directInterList := directInterList.dropLast
  waitedToExplore := .empty
  tested := []

def tmpList (inter : List Nat) (f : Found) : Interesting where
  inter := inter
  pattern := f.pattern
  N := f.A
  M := f.B
  kpNumList := (List.range f.A).map f.kpNumArray
  schedPrefix := [getPrefix inter]

/-- What follows the test when `DBDS_stage == 1`. `inter` and `CurdirectInter[0]` are one list. -/
def endTest (s : State) : State :=
  match nextLegalInter c.periodLimit s.inter with
  | some inter => { s with inter := inter, curdirectInter := s.curdirectInter.map fun _ => inter }
  | none =>
    if c.varModeFlag = 0 then { s with phase := .popping }
    else
      match s.directInterList.getLast? with
      | some inter =>
        { s with curdirectInter := some inter, directInterList := s.directInterList.dropLast }
      | none => { s with curdirectInter := none, phase := .popping }

def runTest (found : Option Found) (s : State) : State :=
  let s := { s with rounds := s.rounds + 1 }
  if c.runsLimit ≠ 0 ∧ s.rounds > c.runsLimit then { s with phase := .ended }
  else
    let inter := if c.varModeFlag = 0 then s.inter else s.curdirectInter.getD s.inter
    endTest c { s with
      inter := inter
      waitedToExplore := found.elim s.waitedToExplore fun f =>
        addToExploreDict s.waitedToExplore f.coverageHashID (tmpList inter f)
      tested := s.tested ++ [inter] }

/-- The prefix gives nothing to explore: `continue`. -/
def passedOver (pre : List Nat) : Bool := pre = [] ∨ ∃ period ∈ getPeriod pre, period + 1 = c.periodLimit

def tmpMList (tempL : Interesting) : List Nat := (List.range tempL.N).map fun i => tempL.kpNumList.getD i 0

/-- `next(interleaving_iter(n, M, parent))`: the generator up to its first `yield`. -/
def interleavingIterNext (n : Nat) (M parent : List Nat) : Except Halt (List Nat) := do
  let M ← padKps n M
  let pre := getPrefix parent
  let suffix ← interleavingInit n (takeOff M pre)
  return pre ++ suffix

/-- One turn of `while waited_to_explore`. An exception of the generator is not caught. -/
def popItem (s : State) : State :=
  match s.waitedToExplore.popFirst with
  | none => { s with phase := .ended }
  | some ((_, tempL), rest) =>
    let s := { s with waitedToExplore := rest, tested := [] }
    if passedOver c (getPrefix tempL.inter) then s
    else
      match interleavingIterNext tempL.N (tmpMList tempL) tempL.inter with
      | .ok inter => { s with inter := inter, phase := .testing }
      | .error _ => { s with phase := .ended }

/-- An event that cannot happen now changes nothing. -/
def step (e : Event) (s : State) : State :=
  match e, s.phase with
  | .test found, .testing => runTest c found s
  | .pop, .popping => popItem c s
  | _, _ => s

end Step

end Period.Driver.Incremental
