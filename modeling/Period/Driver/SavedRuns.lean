import Period.Driver.Worklist

/-!
# The saved runs

`add_to_explore_dict` saves the counts of a run up to `A.value + zero_in_KP`. What is popped
is handed to the scheduler up to `A.value` only, the number of threads that hit a key point.
-/

namespace Period.Driver

open Runs
set_option autoImplicit false

def tmpMList (tempL : Interesting) : List Nat :=
  (List.range tempL.N).map fun i => tempL.kpNumList.getD i 0

/-- The reading is one that a launch of the test left. -/
def Trial.Returned (t : Trial) (r : Reading) : Prop := t.first = some r ∨ r ∈ t.retests

/-- The list for the scheduler and the new baseline have the counts of all threads that hit a
key point in the run. -/
def Handed (r : Reading) (mList : List Nat) (parentArray : Nat → Nat) : Prop :=
  ∀ i, r.kpNumArray i ≠ 0 → mList[i]? = some (r.kpNumArray i) ∧ parentArray i = r.kpNumArray i

section Popped
variable {c : Setup} {s : Session} {t : Trial} {r : Reading}

theorem kpNumList_interesting (c : Setup) (t : Trial) (r : Reading) {i : Nat} (hi : i < r.A) :
    (interesting c t r).kpNumList.getD i 0 = r.kpNumArray i := by
  rw [interesting, List.getD_eq_getElem?_getD, List.getElem?_map, List.getElem?_range (by omega)]
  rfl

theorem tmpMList_interesting (c : Setup) (t : Trial) (r : Reading) :
    tmpMList (interesting c t r) = (List.range r.A).map r.kpNumArray := by
  apply List.map_congr_left
  intro i hi
  exact kpNumList_interesting c t r (List.mem_range.mp hi)

theorem parentArray_popItem {id : Nat} {tempL : Interesting}
    {rest : OrderedDict Nat Interesting} (h : (s.heap s.waited).popFirst = some ((id, tempL), rest))
    (built whileFlag : Bool) : (popItem built whileFlag s).parentArray =
      fun i => if i < tempL.N then tempL.kpNumList.getD i 0 else 0 := by
  rw [popItem, h]

/-- An entry hands over all threads of its run exactly when they come first. -/
theorem handed_popItem_iff {id : Nat} {rest : OrderedDict Nat Interesting}
    (h : (s.heap s.waited).popFirst = some ((id, interesting c t r), rest)) (built whileFlag : Bool) :
    Handed r (tmpMList (interesting c t r)) (popItem built whileFlag s).parentArray ↔
      ∀ i, r.kpNumArray i ≠ 0 → i < r.A := by
  rw [parentArray_popItem h, tmpMList_interesting]
  apply forall_congr'
  intro i
  apply imp_congr_right
  intro hi
  constructor
  · intro ⟨hlist, _⟩
    by_contra hge
    rw [List.getElem?_eq_none (by simpa using hge)] at hlist
    cases hlist
  · intro hlt
    have hN : i < (interesting c t r).N := hlt
    refine ⟨?_, ?_⟩
    · rw [List.getElem?_map, List.getElem?_range hlt]
      rfl
    · exact (if_pos hN).trans (kpNumList_interesting c t r hlt)

end Popped

section Origin
variable {c : Setup} {s : Session}

def Session.Holds (s : Session) (x : Interesting) : Prop := ∃ ref id, (id, x) ∈ (s.heap ref).entries

def Yields (c : Setup) (e : Event) (x : Interesting) : Prop :=
  ∃ t r, e = .test t ∧ t.Returned r ∧ x = interesting c t r

theorem mem_addToExploreDict {d : OrderedDict Nat Interesting} {id : Nat} {x : Interesting}
    {y : Nat × Interesting} (h : y ∈ (addToExploreDict d id x).entries) :
    y = (id, x) ∨ y ∈ d.entries := by
  unfold addToExploreDict at h
  split at h
  · split at h
    · exact OrderedDict.mem_entries_of_set h
    · exact Or.inr h
  · exact OrderedDict.mem_entries_of_set h

theorem holds_add {ref id : Nat} {x y : Interesting} (h : (s.add ref id x).Holds y) :
    y = x ∨ s.Holds y := by
  obtain ⟨ref', id', h⟩ := h
  have hheap : (s.add ref id x).heap =
      Function.update s.heap ref (addToExploreDict (s.heap ref) id x) := rfl
  rw [hheap] at h
  by_cases href : ref' = ref
  · subst href
    rw [Function.update_self] at h
    rcases mem_addToExploreDict h with h | h
    · exact Or.inl (congrArg Prod.snd h)
    · exact Or.inr ⟨ref', id', h⟩
  · rw [Function.update_of_ne href] at h
    exact Or.inr ⟨ref', id', h⟩

theorem retest_returned {N M : Nat} {r r' : Reading} {rs : List Reading}
    (h : (retest N M r rs).2.2 = some r') : r' = r ∨ r' ∈ rs := by
  induction rs generalizing N M r with
  | nil =>
    unfold retest at h
    split at h
    · cases h
    · exact Or.inl (Option.some.inj h).symm
  | cons r'' rs ih =>
    unfold retest at h
    split at h
    · rcases ih h with rfl | hmem
      · exact Or.inr List.mem_cons_self
      · exact Or.inr (List.mem_cons_of_mem _ hmem)
    · exact Or.inl (Option.some.inj h).symm

theorem settle_returned {t : Trial} {s' : Session} {r : Reading}
    (h : settle c t s = (s', some r)) : t.Returned r := by
  unfold settle at h
  split at h
  · cases h
  · next first hfirst =>
    split at h
    · cases h
    · obtain ⟨_, hr⟩ := Prod.mk.inj h
      rcases retest_returned hr with rfl | hmem
      · exact Or.inl hfirst
      · exact Or.inr hmem

theorem holds_conclude {t : Trial} {r : Reading} {x : Interesting} (h : (conclude c t r s).Holds x) :
    x = interesting c t r ∨ s.Holds x := by
  unfold conclude at h
  dsimp only at h
  split at h
  · exact Or.inr h
  · split at h
    · exact Or.inr h
    · rcases holds_add h with rfl | h
      · exact Or.inl rfl
      · rcases holds_add h with rfl | h
        · exact Or.inl rfl
        · exact Or.inr h

theorem holds_runTest {t : Trial} {x : Interesting} (h : (runTest c t s).Holds x) :
    Yields c (.test t) x ∨ s.Holds x := by
  obtain ⟨_, hheap⟩ := settle_worklist c t s
  unfold runTest at h
  rcases hs : settle c t s with ⟨s', _ | r⟩
  · rw [hs] at h hheap
    obtain ⟨ref, id, h⟩ := h
    exact Or.inr ⟨ref, id, hheap ▸ h⟩
  · rw [hs] at h hheap
    rcases holds_conclude h with rfl | h
    · exact Or.inl ⟨t, r, rfl, settle_returned hs, rfl⟩
    · obtain ⟨ref, id, h⟩ := h
      exact Or.inr ⟨ref, id, hheap ▸ h⟩

theorem holds_update {ref : Nat} {d : OrderedDict Nat Interesting} {x : Interesting} {s' : Session}
    (hheap : s'.heap = Function.update s.heap ref d) (hd : ∃ ref', d.entries ⊆ (s.heap ref').entries)
    (h : s'.Holds x) : s.Holds x := by
  obtain ⟨ref'', id, h⟩ := h
  rw [hheap] at h
  by_cases href : ref'' = ref
  · subst href
    rw [Function.update_self] at h
    obtain ⟨ref', hsub⟩ := hd
    exact ⟨ref', id, hsub h⟩
  · rw [Function.update_of_ne href] at h
    exact ⟨ref'', id, h⟩

theorem endStage2_heap (c : Setup) (s : Session) : (endStage2 c s).heap = s.heap := by
  unfold endStage2
  split <;> rfl

theorem holds_endScheduler {x : Interesting} (h : (endScheduler c s).Holds x) : s.Holds x := by
  have hout := endScheduler_outcome c s
  generalize endScheduler c s = s' at h hout
  cases hout with
  | copies _ _ => exact holds_update (endStage2_heap c _) ⟨s.waited, List.Subset.refl _⟩ h
  | goesOn _ _ _ => exact h
  | shares _ _ _ =>
    obtain ⟨ref, id, h⟩ := h
    rw [endStage2_heap] at h
    exact ⟨ref, id, h⟩
  | stage2 _ =>
    obtain ⟨ref, id, h⟩ := h
    rw [endStage2_heap] at h
    exact ⟨ref, id, h⟩

theorem holds_popItem {built whileFlag : Bool} {x : Interesting}
    (h : (popItem built whileFlag s).Holds x) : s.Holds x := by
  have hout := popItem_outcome built whileFlag s
  generalize popItem built whileFlag s = s' at h hout
  cases hout with
  | again _ _ => exact h
  | ends _ _ => exact h
  | pops _ _ _ hpop =>
    apply holds_update (s := s) rfl ⟨s.waited, _⟩ h
    rw [OrderedDict.entries_of_popFirst hpop]
    exact List.subset_cons_self _ _

theorem holds_step (e : Event) (s : Session) (x : Interesting) (h : (step c e s).Holds x) :
    Yields c e x ∨ s.Holds x := by
  have hout := step_outcome c e s
  generalize step c e s = s' at h hout
  cases hout with
  | idle _ => exact Or.inr h
  | enters left _ => exact Or.inr h
  | tests t _ => exact holds_runTest h
  | finishes _ => exact Or.inr (holds_endScheduler h)
  | pops built whileFlag _ => exact Or.inr (holds_popItem h)

end Origin

/-! ## The result -/

/-- Every popped entry is from an earlier test, and all threads of the test are handed on
exactly when those with key points come first. -/
theorem handed_iff (c : Setup) (es : List Event) {id : Nat} {tempL : Interesting}
    {rest : OrderedDict Nat Interesting}
    (h : ((run (step c) es (start c)).heap (run (step c) es (start c)).waited).popFirst =
      some ((id, tempL), rest)) (built whileFlag : Bool) :
    (∃ t r, Event.test t ∈ es ∧ t.Returned r ∧ tempL = interesting c t r) ∧
    ∀ t r, tempL = interesting c t r →
      (Handed r (tmpMList tempL)
          (popItem built whileFlag (run (step c) es (start c))).parentArray ↔
        ∀ i, r.kpNumArray i ≠ 0 → i < r.A) := by
  constructor
  · have hmem : (run (step c) es (start c)).Holds tempL :=
      ⟨_, id, by rw [OrderedDict.entries_of_popFirst h]; exact List.mem_cons_self⟩
    have horigin := @origin_of_run _ _ (step c) _ (fun x s => s.Holds x) (Yields c) holds_step _ _ _ hmem
    rcases horigin with ⟨e, he, t, r, rfl, hr⟩ | ⟨ref, id', hstart⟩
    · exact ⟨t, r, he, hr⟩
    · cases hstart
  · rintro t r rfl
    exact handed_popItem_iff h built whileFlag

/-! Three threads, of which the second one hits no key point. -/

def silentSetup : Setup where
  varModeFlag := 0
  noPrefixRun := false
  zeroInKP := 1
  defaultCoverageHashID := 10
  directInterNum := 0
  N := 2
  M := 2
  parentArray := fun i => [1, 0, 1].getD i 0

def silentReading : Reading where
  A := 2
  B := 2
  kpNumArray := fun i => [1, 0, 2].getD i 0
  kpLocArray := fun i => [5, 0, 0, 0, 5, 5].getD i 0

def silentTrial : Trial where
  inter := [0, 2, 2]
  pattern := [[0], [], [1, 0]]
  schedPrefix := [[0]]
  first := some silentReading
  retests := []

def silentEvents : List Event := [.depth, .finish, .depth, .test silentTrial, .finish]

theorem popFirst_silent :
    ((run (step silentSetup) silentEvents (start silentSetup)).heap
        (run (step silentSetup) silentEvents (start silentSetup)).waited).popFirst =
      some ((15, interesting silentSetup silentTrial silentReading), .empty) := by
  rfl

theorem handed_iff_silent :
    (∃ t r, Event.test t ∈ silentEvents ∧ t.Returned r ∧
      interesting silentSetup silentTrial silentReading = interesting silentSetup t r) ∧
    ∀ t r, interesting silentSetup silentTrial silentReading = interesting silentSetup t r →
      (Handed r (tmpMList (interesting silentSetup silentTrial silentReading))
          (popItem true false (run (step silentSetup) silentEvents (start silentSetup))).parentArray ↔
        ∀ i, r.kpNumArray i ≠ 0 → i < r.A) :=
  handed_iff silentSetup silentEvents popFirst_silent true false

/-- The scheduler is built for the threads 1 and 2 of the run, thread 3 is left out. -/
theorem not_handed_silent :
    (run (step silentSetup) silentEvents (start silentSetup)).phase = .popping false ∧
    ((run (step silentSetup) silentEvents (start silentSetup)).heap
        (run (step silentSetup) silentEvents (start silentSetup)).waited).popFirst =
      some ((15, interesting silentSetup silentTrial silentReading), .empty) ∧
    tmpMList (interesting silentSetup silentTrial silentReading) = [1, 0] ∧
    (popItem true false (run (step silentSetup) silentEvents (start silentSetup))).parentArray 2 = 0 ∧
    ¬ Handed silentReading (tmpMList (interesting silentSetup silentTrial silentReading))
      (popItem true false (run (step silentSetup) silentEvents (start silentSetup))).parentArray := by
  have hlost : (popItem true false
      (run (step silentSetup) silentEvents (start silentSetup))).parentArray 2 = 0 := by
    rfl
  refine ⟨rfl, popFirst_silent, rfl, hlost, fun h => ?_⟩
  have hkept := (h 2 (by decide)).2
  rw [hlost] at hkept
  cases hkept

end Period.Driver
