import Period.Scheduler.Periods
import Period.Scheduler.SearchWords

/-!
# The serialised scheduler

`SBPSched` goes through the legal words and, for each word, through its layouts.
-/

namespace Period.Scheduler

open Enumeration Search Parts
set_option autoImplicit false

structure SBPSched extends Sched where
  pattern : List Nat
  schedPrefix : Schedule
  deriving DecidableEq, Repr

/-- `SBPSched._init_helper`, for a schedule without a pattern. -/
def patternOf (sched : Schedule) : Except Halt (List Nat) := do
  let pattern ← sched.mapM fun period => period.head?.elim (throw .indexError) pure
  if pattern.IsChain (· ≠ ·) then return pattern
  else throw (.valueError "Adjecent periods can't host same threads!")

def SBPSched.init (n : Nat) (kps : List Nat) (p : Nat) (sched : Schedule) : Except Halt SBPSched := do
  let base ← Sched.initHelper n kps p sched
  if base.sched.any (·.isEmpty) then throw (.valueError "Invalid period(s) in the given sched!")
  let given ← patternOf base.sched
  let pre := if base.sched.isEmpty then 1 else base.sched.length
  let pattern ←
    if base.p ≠ given.length then
      match initPattern base.n (base.p - given.length) base.kpPool
          ((Finset.range base.n).filter fun i => 0 < kpsOf base.kpPool i) given.getLast? with
      | none => throw (.valueError "Can't finish initialising pattern!")
      | some sub => pure (given ++ sub)
    else pure given
  if (List.range base.n).any fun i => i ∉ pattern ∧ 0 < kpsOf base.kps i then
    throw (.valueError "Not all theads can be scheduled!")
  let sched := base.sched ++ initSched base.n base.kpPool (base.p - base.sched.length)
    (pattern.drop base.sched.length)
  return { base with sched, pattern, schedPrefix := sched.take pre }

/-- The periods up to and including the first one that differs. -/
def changedPrefix : Schedule → Schedule → Schedule
  | x :: xs, y :: ys => if x ≠ y then [x] else x :: changedPrefix xs ys
  | _, _ => []

/-- `SBPSched._next_iter`. The loop `while sched == None` leaves a schedule
behind in its first round. -/
def SBPSched.nextIter (s : SBPSched) : Except Halt SBPSched :=
  match nextSched s.n s.kps s.p s.sched s.pattern with
  | some sched => .ok { s with sched, schedPrefix := changedPrefix sched s.sched }
  | none =>
    match nextPattern s.n s.p s.kps s.pattern
        ((Finset.range s.n).filter fun i => 0 < kpsOf s.kps i) none with
    | none => .error .stopIteration
    | some pattern =>
      let sched := initSched s.n s.kps s.p pattern
      .ok { s with sched, pattern, schedPrefix := changedPrefix sched s.sched }

def neededThreads (n : Nat) (kps : List Nat) : Finset Nat :=
  (Finset.range n).filter fun i => 0 < kpsOf kps i

def serialWords (n : Nat) (kps : List Nat) (p : Nat) : List (List Nat) :=
  words n p kps (neededThreads n kps) none

/-- The words with their schedules, in the order in which they are visited. -/
def serialPairs (n : Nat) (kps : List Nat) (p : Nat) : List (List Nat × Schedule) :=
  layered n (fun _ => kps) id (serialWords n kps p)

def serialStep (n : Nat) (kps : List Nat) (p : Nat) :
    List Nat × Schedule → Option (List Nat × Schedule) :=
  layeredStep n p (fun _ => kps) id fun w => nextPattern n p kps w (neededThreads n kps) none

theorem neededThreads_feasible (n : Nat) (kps : List Nat) :
    Feasible n kps (neededThreads n kps) := by
  intro i hi
  have hi := Finset.mem_filter.mp hi
  exact ⟨Finset.mem_range.mp hi.1, hi.2⟩

section Walk
variable (n : Nat) (kps : List Nat) {p : Nat}

theorem serialPairs_head : (serialPairs n kps p).head? =
    (serialWords n kps p).head?.map fun w => (w, initSched n kps p w) :=
  layered_head (fun _ hw => (mem_words.mp hw).1) (fun _ hw => (mem_words.mp hw).2.lt)
    (fun _ hw => (mem_words.mp hw).2.count_le)

theorem serialStep_walks (hp : 0 < p) :
    WalksTo (serialStep n kps p) (serialPairs n kps p) none :=
  layeredStep_walks (fun _ hw => (mem_words.mp hw).1) (fun _ hw => (mem_words.mp hw).2.lt)
    (fun _ hw => (mem_words.mp hw).2.count_le)
    (nextPattern_walks hp (neededThreads_feasible n kps))

end Walk

/-- The scheduler is at the given word and schedule. -/
structure SBPSched.At (n : Nat) (kps : List Nat) (p : Nat) (a : List Nat × Schedule)
    (s : SBPSched) : Prop where
  n_eq : s.n = n
  kps_eq : s.kps = kps
  p_eq : s.p = p
  pattern_eq : s.pattern = a.1
  sched_eq : s.sched = a.2

theorem SBPSched.nextIter_some {n : Nat} {kps : List Nat} {p : Nat} {a b : List Nat × Schedule}
    {s : SBPSched} (h : SBPSched.At n kps p a s) (hstep : serialStep n kps p a = some b) :
    ∃ s', s.nextIter = .ok s' ∧ SBPSched.At n kps p b s' := by
  obtain ⟨w, sched⟩ := a
  rw [serialStep, layeredStep, id] at hstep
  unfold SBPSched.nextIter
  rw [h.n_eq, h.kps_eq, h.p_eq, h.pattern_eq, h.sched_eq]
  cases hsched : nextSched n kps p sched w with
  | some sched' =>
    rw [hsched] at hstep
    obtain rfl : (w, sched') = b := by simpa using hstep
    exact ⟨_, rfl, ⟨rfl, rfl, rfl, rfl, rfl⟩⟩
  | none =>
    rw [hsched] at hstep
    cases hword : nextPattern n p kps w (neededThreads n kps) none with
    | none => simp [hword] at hstep
    | some w' =>
      obtain rfl : (w', initSched n kps p w') = b := by simpa [hword] using hstep
      rw [neededThreads] at hword
      simp only [hword]
      exact ⟨_, rfl, ⟨rfl, rfl, rfl, rfl, rfl⟩⟩

theorem SBPSched.nextIter_none {n : Nat} {kps : List Nat} {p : Nat} {a : List Nat × Schedule}
    {s : SBPSched} (h : SBPSched.At n kps p a s) (hstep : serialStep n kps p a = none) :
    s.nextIter = .error .stopIteration := by
  obtain ⟨w, sched⟩ := a
  rw [serialStep, layeredStep, id, Option.or_eq_none_iff, Option.map_eq_none_iff, Option.map_eq_none_iff] at hstep
  obtain ⟨hsched, hword⟩ := hstep
  rw [neededThreads] at hword
  unfold SBPSched.nextIter
  rw [h.n_eq, h.kps_eq, h.p_eq, h.pattern_eq, h.sched_eq]
  simp only [hsched, hword]

theorem initHelper_nil {n : Nat} {kps kps' : List Nat} (p : Nat)
    (h : padKps (max n kps.length) kps = .ok kps') :
    Sched.initHelper n kps p [] =
      .ok { n := max n kps.length, kps := kps', p := p, sched := [], kpPool := kps' } := by
  have hzip : ∀ (f : Nat × Int → Nat) (l : List Nat), (∀ k : Nat, f (k, k) = k) →
      (l.zip (l.map Int.ofNat)).map f = l := by
    intro f l hf
    induction l with
    | nil => rfl
    | cons k l ih => rw [List.map_cons, List.zip_cons_cons, List.map_cons, ih, Int.ofNat_eq_natCast, hf]
  have hpool : kps'.map (Int.toNat ∘ Int.ofNat) = kps' :=
    (List.map_congr_left fun _ _ => rfl).trans (List.map_id kps')
  unfold Sched.initHelper
  simp [h, hzip, hpool, Bind.bind, Except.bind, Pure.pure, Except.pure]

theorem patternOf_nil : patternOf [] = .ok [] := by
  simp [patternOf, Pure.pure, Except.pure, Bind.bind, Except.bind]

theorem SBPSched.init_eq {n p : Nat} {kps kps' : List Nat} (hp : 0 < p)
    (hpad : padKps (max n kps.length) kps = .ok kps') :
    SBPSched.init n kps p [] =
      match (serialWords (max n kps.length) kps' p).head? with
      | none => .error (.valueError "Can't finish initialising pattern!")
      | some w => .ok { n := max n kps.length, kps := kps', p := p
                        sched := initSched (max n kps.length) kps' p w
                        kpPool := kps', pattern := w
                        schedPrefix := (initSched (max n kps.length) kps' p w).take 1 } := by
  generalize hN : max n kps.length = N at hpad
  have hpattern := @initPattern_eq N p kps' _ none hp (neededThreads_feasible N kps')
  rw [neededThreads] at hpattern
  have hbase := initHelper_nil p (hN.symm ▸ hpad)
  rw [hN] at hbase
  unfold SBPSched.init
  rw [hbase, serialWords, neededThreads]
  simp only [Bind.bind, Except.bind, Pure.pure, Except.pure, List.any_nil, Bool.false_eq_true,
    if_false, patternOf_nil, if_true, List.isEmpty_nil, List.length_nil, Nat.sub_zero,
    List.getLast?_nil, List.nil_append, List.drop_zero, hpattern, Nat.ne_of_gt hp, ne_eq,
    not_false_eq_true]
  cases hw : (words N p kps' ((Finset.range N).filter fun i => 0 < kpsOf kps' i) none).head? with
  | none => rfl
  | some w =>
    -- the threads with key points are among the needed ones
    have hlegal := (mem_words.mp (List.mem_of_head? hw)).2
    have hall : ((List.range N).any fun i => decide (i ∉ w ∧ 0 < kpsOf kps' i)) = false := by
      rw [List.any_eq_false]
      intro i hi
      simp only [decide_eq_true_eq, not_and]
      intro hnot hpos
      exact hnot (hlegal.must i (by simpa [hpos] using hi))
    simp only [hall, Bool.false_eq_true, if_false]

/-- The iteration stops after it has passed exactly the schedules of the walk. -/
theorem SBPSched.exhausts {n p : Nat} {kps kps' : List Nat} (hp : 0 < p)
    (hpad : padKps (max n kps.length) kps = .ok kps') {s : SBPSched}
    (hinit : SBPSched.init n kps p [] = .ok s) {k : Nat}
    (hk : (serialPairs (max n kps.length) kps' p).length ≤ k) :
    ∃ out, exhaust SBPSched.nextIter .stopIteration k s = some out ∧
      out.map (·.sched) = (serialPairs (max n kps.length) kps' p).map Prod.snd := by
  rw [SBPSched.init_eq hp hpad] at hinit
  generalize max n kps.length = N at *
  cases hw : (serialWords N kps' p).head? with
  | none =>
    rw [hw] at hinit
    cases hinit
  | some w =>
    rw [hw] at hinit
    have hhead := @serialPairs_head N kps' p
    rw [hw, Option.map_some] at hhead
    obtain ⟨rest, hrest⟩ := List.head?_eq_some_iff.mp hhead
    have hwalk := serialStep_walks N kps' hp
    rw [hrest] at hwalk hk ⊢
    have hstart : SBPSched.At N kps' p (w, initSched N kps' p w) s := by
      cases hinit
      exact ⟨rfl, rfl, rfl, rfl, rfl⟩
    obtain ⟨out, hout, hall⟩ := exhaust_follows hwalk
      (fun b _ b' s h hstep => SBPSched.nextIter_some h hstep)
      (fun b _ s h hstep => SBPSched.nextIter_none h hstep) hstart (Nat.lt_of_succ_le hk)
    refine ⟨out, hout, ?_⟩
    rw [← List.forall₂_eq_eq_eq, List.forall₂_map_left_iff, List.forall₂_map_right_iff]
    exact hall.flip.imp fun s a h => h.sched_eq

end Period.Scheduler
