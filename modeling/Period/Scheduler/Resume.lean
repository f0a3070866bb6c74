import Period.Scheduler.Completeness
import Period.Scheduler.Frame

/-!
# Layouts behind a given prefix

`_next_sched` works on the last given period together with the periods of the word. Each
thread starts with the parts `_init_sched` gives it, the thread of the last given period
with the key points of that period in front of them. A reset forgets what was given.
-/

namespace Period.Scheduler

open Enumeration Search Parts
set_option autoImplicit false

namespace Frame

/-- The key points of the last given period. -/
def leadCount (f : Frame) : Nat := (f.lead.map Prod.snd).getD 0

def leadPeriod (f : Frame) : Schedule := f.lead.toList.map fun (t, m) => List.replicate m t

def word (f : Frame) (w : List Nat) : List Nat := f.last.toList ++ w

def total (f : Frame) (chosen : List Nat) : List Nat :=
  match f.lead with
  | none => f.ckps chosen
  | some (t, m) => (f.ckps chosen).modify t (· + m)

def fresh (f : Frame) (v : List Nat × List Nat) : Schedule :=
  f.leadPeriod ++ initSched f.n (f.ckps v.1) f.q v.2

/-- What the iteration makes of the parts of thread `i`. -/
def dial (f : Frame) (v : List Nat × List Nat) (i : Nat) : Dial (List Nat) :=
  let m := v.2.count i
  let k := kpsOf (f.ckps v.1) i
  if f.last = some i then
    ⟨f.leadCount :: firstParts m k, (spreadsFrom f.leadCount m (max m k)).tail,
      spreads (m + 1) (max (m + 1) (k + f.leadCount))⟩
  else ⟨firstParts m k, (spreads m (max m k)).tail, spreads m (max m k)⟩

def dials (f : Frame) (v : List Nat × List Nat) : List (Dial (List Nat)) :=
  (List.range f.n).map (f.dial v)

/-- The schedules of a word, in the order in which they are visited. -/
def scheds (f : Frame) (v : List Nat × List Nat) : List Schedule :=
  (readingsFrom (f.dials v)).map (layout (f.word v.2))

/-- The last given period is one of an existing thread and is not empty. -/
structure WellLed (f : Frame) : Prop where
  lt : ∀ t, f.last = some t → t < f.n
  pos : ∀ t, f.last = some t → 0 < f.leadCount

end Frame

theorem cons_tail_of_head? {α : Type} {a : α} {l : List α} (h : l.head? = some a) :
    a :: l.tail = l := by
  obtain ⟨t, rfl⟩ := List.head?_eq_some_iff.mp h
  rfl

section Dials
variable {f : Frame} {v : List Nat × List Nat} {i : Nat}

theorem Frame.length_ckps (c : List Nat) : (f.ckps c).length = f.n := by
  have hfold : ∀ (cs acc : List Nat), (cs.foldl (fun ckps i => ckps.set i (kpsOf f.pool i)) acc).length =
      acc.length := by
    intro cs
    induction cs with
    | nil => exact fun acc => rfl
    | cons c cs ih =>
      intro acc
      rw [List.foldl_cons, ih, List.length_set]
  rw [Frame.ckps, calCkps, hfold, List.length_replicate]

theorem Frame.kpsOf_ckps (c : List Nat) (i : Nat) :
    kpsOf (f.ckps c) i = if i ∈ c ∧ i < f.n then kpsOf f.pool i else 0 := kpsOf_calCkps _ _ _ _

theorem Frame.word_count (w : List Nat) (i : Nat) :
    (f.word w).count i = w.count i + if f.last = some i then 1 else 0 := by
  rw [Frame.word, List.count_append, Nat.add_comm]
  cases f.last with
  | none => simp
  | some t => simp [List.count_singleton]

theorem Frame.kpsOf_total (hled : f.WellLed) (c : List Nat) (i : Nat) :
    kpsOf (f.total c) i = kpsOf (f.ckps c) i + if f.last = some i then f.leadCount else 0 := by
  have hlt := hled.lt
  unfold Frame.total Frame.last Frame.leadCount at *
  cases hlead : f.lead with
  | none => simp
  | some l =>
    obtain ⟨t, m⟩ := l
    rw [hlead] at hlt
    have ht : t < (f.ckps c).length := Frame.length_ckps c ▸ hlt t rfl
    simp only [kpsOf, List.getD_eq_getElem?_getD, List.getElem?_modify, Option.map_some,
      Option.some.injEq, Option.getD_some]
    by_cases hti : t = i
    · subst hti
      simp [ht]
    · simp [hti]

/-- The parts of thread `i` that are still to come, with the present ones. -/
theorem Frame.dial_resumed : (f.dial v i).now :: (f.dial v i).later =
    if f.last = some i then
      spreadsFrom f.leadCount (v.2.count i) (max (v.2.count i) (kpsOf (f.ckps v.1) i))
    else spreads (v.2.count i) (max (v.2.count i) (kpsOf (f.ckps v.1) i)) := by
  rw [Frame.dial]
  split
  · apply cons_tail_of_head?
    rw [spreadsFrom_head (Nat.le_max_left _ _), firstParts_max]
  · apply cons_tail_of_head?
    rw [spreads_head _ _ (Nat.le_max_left _ _), firstParts_max]

theorem Frame.dial_all (hled : f.WellLed) : (f.dial v i).all =
    spreads ((f.word v.2).count i) (max ((f.word v.2).count i) (kpsOf (f.total v.1) i)) := by
  rw [Frame.dial, Frame.word_count, Frame.kpsOf_total hled]
  split <;> rfl

theorem Frame.dials_resume (hled : f.WellLed) :
    List.Forall₂ Wheel.Resumes (wheels f.n (f.total v.1) (f.word v.2)) (f.dials v) := by
  rw [wheels, Frame.dials, List.forall₂_map_left_iff, List.forall₂_map_right_iff,
    List.forall₂_same]
  intro i _
  refine ⟨⟨?_, ?_⟩, ?_⟩
  · rw [Frame.dial_all hled, spreads_head _ _ (Nat.le_max_left _ _), firstParts_max]
  · rw [Frame.dial_all hled]
    exact shift_walks _ _ (Nat.le_max_left _ _)
  · rw [Frame.dial_resumed]
    split
    · exact spreadsFrom_walks (Nat.le_max_left _ _)
    · exact shift_walks _ _ (Nat.le_max_left _ _)

theorem Frame.dial_part (hled : f.WellLed) {l : List Nat}
    (h : l ∈ (f.dial v i).now :: (f.dial v i).later ∨ l ∈ (f.dial v i).all) :
    l.length = (f.word v.2).count i ∧ ∀ x ∈ l, 0 < x := by
  rcases h with h | h
  · rw [Frame.dial_resumed] at h
    rw [Frame.word_count]
    split at h
    · next hlast =>
      rw [if_pos hlast]
      exact spreadsFrom_part (hled.pos i hlast) (Nat.le_max_left _ _) h
    · next hlast =>
      rw [if_neg hlast]
      exact spreads_part (Nat.le_max_left _ _) h
  · rw [Frame.dial_all hled] at h
    exact spreads_part (Nat.le_max_left _ _) h

end Dials

theorem layout_cons (t : Nat) (w : List Nat) (parts : List (List Nat)) :
    layout (t :: w) parts =
      List.replicate ((parts.getD t []).getD 0 0) t :: layout w (parts.modify t List.tail) := by
  rw [layout, List.mapIdx_cons, layout]
  simp only [List.take_zero, List.count_nil, List.take_succ_cons, List.cons.injEq, true_and]
  apply List.ext_getElem?
  intro j
  rw [List.getElem?_mapIdx, List.getElem?_mapIdx]
  cases w[j]? with
  | none => rfl
  | some i =>
    simp only [Option.map_some, List.count_cons, List.getD_eq_getElem?_getD, List.getElem?_modify]
    by_cases hti : t = i
    · subst hti
      cases parts[t]? <;> simp
    · simp [hti]

section Scheds
variable {f : Frame} {v : List Nat × List Nat} (hled : f.WellLed) (hw : ∀ x ∈ v.2, x < f.n)

theorem Frame.reading_part {parts : List (List Nat)} (h : parts ∈ readingsFrom (f.dials v)) {i : Nat}
    (hi : i < f.n) : parts.getD i [] ∈ (f.dial v i).now :: (f.dial v i).later ∨
      parts.getD i [] ∈ (f.dial v i).all := by
  obtain ⟨hlen, hget⟩ := List.forall₂_iff_get.mp (forall₂_of_mem_readingsFrom h)
  simp only [Frame.dials, List.length_map, List.length_range, List.get_eq_getElem, List.getElem_map,
    List.getElem_range] at hlen hget
  have hip : i < parts.length := by omega
  rw [List.getD_eq_getElem _ _ hip]
  exact hget i hip hi

section Readings
include hled

theorem Frame.reading_parted {parts : List (List Nat)} (h : parts ∈ readingsFrom (f.dials v)) :
    Parted f.n (f.word v.2) parts := by
  refine ⟨?_, fun i hi => (Frame.dial_part hled (Frame.reading_part h hi)).1⟩
  have hlen := (forall₂_of_mem_readingsFrom h).length_eq
  rwa [Frame.dials, List.length_map, List.length_range] at hlen

theorem Frame.reading_pos {parts : List (List Nat)} (h : parts ∈ readingsFrom (f.dials v)) :
    ∀ i, i < f.n → ∀ x ∈ parts.getD i [], 0 < x :=
  fun _ hi => (Frame.dial_part hled (Frame.reading_part h hi)).2

end Readings

include hled hw

theorem Frame.word_lt : ∀ x ∈ f.word v.2, x < f.n := by
  intro x hx
  rcases List.mem_append.mp hx with hx | hx
  · exact hled.lt x (Option.mem_toList.mp hx)
  · exact hw x hx

theorem Frame.scheds_walk : WalksTo
    (fun s => nextSched f.n (f.total v.1) (f.word v.2).length s (f.word v.2)) (f.scheds v) none := by
  apply walksTo_map (carry (wheels f.n (f.total v.1) (f.word v.2)))
  · intro parts hparts
    rw [Option.or_none]
    exact nextSched_eq (Frame.word_lt hled hw) (Frame.reading_parted hled hparts)
  · exact (carry_resumes (Frame.dials_resume hled)).2

theorem Frame.scheds_head (hlen : v.2.length = f.q) : (f.scheds v).head? = some (f.fresh v) := by
  have hinit : initSched f.n (f.ckps v.1) f.q v.2 =
      layout v.2 (startParts f.n (f.ckps v.1) v.2) := hlen ▸ initSched_eq hw
  rw [Frame.scheds, List.head?_map, (carry_resumes (Frame.dials_resume hled)).1, Option.map_some,
    Frame.fresh, hinit, Frame.dials, List.map_map, startParts]
  congr 1
  have hlt := hled.lt
  unfold Frame.word Frame.leadPeriod Frame.dial Frame.last Frame.leadCount at *
  cases hlead : f.lead with
  | none =>
    apply congrArg (layout v.2)
    apply List.map_congr_left
    intro i _
    simp
  | some l =>
    obtain ⟨t, m⟩ := l
    rw [hlead] at hlt
    have ht : t < f.n := hlt t rfl
    simp only [Option.map_some, Option.toList_some, List.map_cons, List.map_nil,
      List.singleton_append, Option.getD_some, Option.some.injEq, layout_cons, List.cons.injEq]
    refine ⟨?_, ?_⟩
    · simp [ht]
    · apply congrArg (layout v.2)
      apply List.ext_getElem?
      intro i
      rw [List.getElem?_modify, List.getElem?_map, List.getElem?_map]
      by_cases hi : i < f.n
      · by_cases hti : t = i
        · subst hti
          simp [hi]
        · simp [hi, hti]
      · simp [hi]

end Scheds

end Period.Scheduler
