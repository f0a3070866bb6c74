import Period.Scheduler.MixedEnd

/-!
# The mixed-end scheduler behind a given prefix

With a prefix the scheduler goes through the chosen sets and words of the remaining
periods. A frame holds what the prefix leaves: the key points still to be placed, the
remaining periods and the last period of the prefix.
-/

namespace Period.Scheduler

open Enumeration Search
set_option autoImplicit false

structure Frame where
  n : Nat
  pool : List Nat
  q : Nat
  /-- The thread of the last given period and the number of its key points there. -/
  lead : Option (Nat × Nat)
  deriving DecidableEq, Repr

namespace Frame

def last (f : Frame) : Option Nat := f.lead.map Prod.fst

def ckps (f : Frame) (chosen : List Nat) : List Nat := calCkps f.n f.pool chosen

def words (f : Frame) (chosen : List Nat) : List (List Nat) :=
  searchWords f.n f.q (f.ckps chosen) chosen.toFinset f.last

/-- The last letter could change places with a thread of the last period. -/
def Skips (f : Frame) (v : List Nat × List Nat) : Prop := Skipped (minDumped f.n f.pool v.1) v.2

instance (f : Frame) (v : List Nat × List Nat) : Decidable (f.Skips v) := by
  unfold Skips
  infer_instance

/-- The words of the given sets that are not skipped. -/
def openPairs (f : Frame) (sets : List (List Nat)) : List (List Nat × List Nat) :=
  sets.flatMap fun chosen => ((f.words chosen).map (chosen, ·)).filter fun v => ¬ f.Skips v

/-- The word the constructor starts with; it is not tested. -/
def firstPair (f : Frame) : Option (List Nat × List Nat) :=
  (chosenLists f.n f.q).findSome? fun chosen => (f.words chosen).head?.map (chosen, ·)

/-- The chosen sets and words in the order in which they are visited. -/
def pairs (f : Frame) : List (List Nat × List Nat) := f.openPairs (chosenLists f.n f.q)

structure Enough (f : Frame) (fuel : Nat) : Prop where
  sets : (chosenLists f.n f.q).length < fuel
  words : ∀ chosen ∈ chosenLists f.n f.q, (f.words chosen).length ≤ fuel

def nextPair (f : Frame) (fuel : Nat) : List Nat × List Nat → Option (List Nat × List Nat)
  | (c, w) =>
    match nextWord fuel f.n f.q f.pool f.last c (f.ckps c) w with
    | .ok (c', _, w') => some (c', w')
    | .error _ => none

end Frame

section Enough
variable (f : Frame)

theorem Frame.exists_enough : ∃ N, ∀ fuel, N ≤ fuel → f.Enough fuel := by
  refine ⟨(chosenLists f.n f.q).length + 1 +
    ((chosenLists f.n f.q).map fun c => (f.words c).length).sum, fun fuel hfuel => ?_⟩
  refine ⟨by omega, fun chosen hc => ?_⟩
  have hle := List.le_sum_of_mem (List.mem_map.mpr ⟨chosen, hc, rfl⟩ :
    (f.words chosen).length ∈ (chosenLists f.n f.q).map fun c => (f.words c).length)
  omega

end Enough

theorem chosen_lt {n q : Nat} {c : List Nat} (hc : c ∈ chosenLists n q) :
    ∀ i ∈ c.toFinset, i < n :=
  fun i hi => (mem_chosenLists.mp hc).2.2.2 i (List.mem_toFinset.mp hi)

section Search
variable {f : Frame} (hq : 0 < f.q) {fuel : Nat}
include hq

omit hq in
theorem Frame.openWord_eq (c : List Nat) (l : List (List Nat)) :
    ((l.map (c, ·)).filter fun v => ¬ f.Skips v).head? = openWord f.n f.pool c l := by
  rw [List.head?_filter, List.find?_map]
  rfl

omit hq in
theorem Frame.openPairs_head (l : List (List Nat)) :
    (f.openPairs l).head? = l.findSome? fun d => openWord f.n f.pool d (f.words d) := by
  simp only [Frame.openPairs, List.head?_flatMap, Frame.openWord_eq]

variable (hfuel : f.Enough fuel)
include hfuel

theorem Frame.words_goesThrough : GoesThrough f.n f.q f.pool f.last f.words fuel where
  init _ hc := initPattern_search hq (chosen_lt hc)
  walks _ hc := nextPattern_search_walks hq (chosen_lt hc)
  sets := hfuel.sets
  words := hfuel.words

theorem Frame.initLoop_eq : initLoop f.n f.q f.pool f.last fuel [] =
    f.firstPair.elim (.error (.valueError "Can't finish initialising pattern!")) .ok :=
  (Frame.words_goesThrough hq hfuel).initLoop_eq

theorem Frame.nextPair_eq {c w : List Nat} {pre post : List (List Nat)}
    {preC postC : List (List Nat)} (hsets : chosenLists f.n f.q = preC ++ c :: postC)
    (hwords : f.words c = pre ++ w :: post) :
    f.nextPair fuel (c, w) = (openWord f.n f.pool c post).or (f.openPairs postC).head? := by
  rw [Frame.nextPair, Frame.ckps, (Frame.words_goesThrough hq hfuel).nextWord_eq hsets hwords,
    Frame.openPairs_head]
  generalize (openWord f.n f.pool c post).or
    (postC.findSome? fun d => openWord f.n f.pool d (f.words d)) = o
  cases o <;> rfl

theorem Frame.nextWord_found {c w : List Nat} (hc : c ∈ chosenLists f.n f.q)
    (hw : w ∈ f.words c) :
    nextWord fuel f.n f.q f.pool f.last c (f.ckps c) w =
      found f.n f.pool (f.nextPair fuel (c, w)) := by
  obtain ⟨preC, postC, hsets⟩ := List.append_of_mem hc
  obtain ⟨pre, post, hwords⟩ := List.append_of_mem hw
  rw [Frame.ckps, (Frame.words_goesThrough hq hfuel).nextWord_eq hsets hwords,
    Frame.nextPair_eq hq hfuel hsets hwords, Frame.openPairs_head]

theorem Frame.pairs_walk : WalksTo (f.nextPair fuel) f.pairs none := by
  apply walksTo_flatMap
  intro preC c postC hsets
  rw [List.filter_map]
  apply walksTo_filter
  intro pre w post hwords
  rw [Frame.nextPair_eq hq hfuel hsets hwords, Option.or_none]
  rfl

end Search

theorem Frame.mem_pairs {f : Frame} {c w : List Nat} :
    (c, w) ∈ f.pairs ↔ c ∈ chosenLists f.n f.q ∧ w ∈ f.words c ∧ ¬ f.Skips (c, w) := by
  simp only [Frame.pairs, Frame.openPairs, List.mem_flatMap, List.mem_filter, List.mem_map,
    decide_eq_true_eq]
  constructor
  · rintro ⟨d, hd, ⟨v, hv, hpair⟩, hskip⟩
    cases hpair
    exact ⟨hd, hv, hskip⟩
  · exact fun ⟨hc, hw, hskip⟩ => ⟨c, hc, ⟨w, hw, rfl⟩, hskip⟩

section First
variable {f : Frame} {v : List Nat × List Nat} (hv : f.firstPair = some v)
include hv

theorem Frame.firstPair_split : ∃ preC postC post, chosenLists f.n f.q = preC ++ v.1 :: postC ∧
    f.words v.1 = v.2 :: post ∧ ∀ c ∈ preC, f.words c = [] := by
  obtain ⟨preC, c, postC, hsets, hc, hpre⟩ := List.findSome?_eq_some_iff.mp hv
  obtain ⟨w, hw, rfl⟩ := Option.map_eq_some_iff.mp hc
  obtain ⟨post, hpost⟩ := List.head?_eq_some_iff.mp hw
  refine ⟨preC, postC, post, hsets, hpost, fun d hd => ?_⟩
  exact List.head?_eq_none_iff.mp (Option.map_eq_none_iff.mp (hpre d hd))

/-- Exchanging the last thread for the dumped one would give a word of an earlier set. -/
theorem Frame.firstPair_not_skipped
    (hguard : f.q = 1 → ∀ t, f.last = some t → kpsOf f.pool t = 0) : ¬ f.Skips v := by
  rintro ⟨x, hlast, hx, hlt⟩
  obtain ⟨preC, postC, post, hsets, hwords, hpre⟩ := Frame.firstPair_split hv
  obtain ⟨c, w⟩ := v
  have hc : c ∈ chosenLists f.n f.q := by simp [hsets]
  have hw : w ∈ f.words c := by simp [hwords]
  obtain ⟨u, rfl⟩ : ∃ u, w = u ++ [x] :=
    ⟨w.dropLast, (List.dropLast_append_getLast? x hlast).symm⟩
  rw [List.dropLast_concat] at hx
  generalize hm : minDumped f.n f.pool c = m at hlt
  have hletters : ∀ i ∈ u ++ [x], i < f.n ∧ i ∈ c := by
    intro i hi
    obtain ⟨hin, hi⟩ := searchWords_letters hw i hi
    refine ⟨hin, hi.elim List.mem_toFinset.mp fun hpos => ?_⟩
    rw [Frame.ckps, kpsOf_calCkps] at hpos
    by_contra hic
    simp [hic] at hpos
  have hxc := hletters x (by simp)
  have hmn : m < f.n := Nat.lt_trans hlt hxc.1
  obtain ⟨hpos, hmc⟩ := hm ▸ minDumped_mem (hm.symm ▸ hmn)
  have hswap := swapIn_chosen hc hxc.2 hmc hlt hmn
  have hbefore := mem_before_of_precedes hsets hswap (swapIn_precedes hxc.2 hmc hlt)
  have hset := swapIn_toFinset hc hxc.2 hmc hlt
  have hmswap : m ∈ swapIn c x m := List.mem_toFinset.mp (by simp [hset])
  have hempty := hpre _ hbefore
  rw [Frame.words, hset] at hempty
  refine searchWords_swap hw hx ?_ (List.mem_toFinset.mpr hxc.2) (mt List.mem_toFinset.mp hmc)
    (chosen_lt hc) hmn ?_ ?_ ?_ hempty
  · exact fun hmu => hmc (hletters m (by simp [hmu])).2
  · rw [Frame.ckps, kpsOf_calCkps, if_pos ⟨hmswap, hmn⟩]
    exact hpos
  · intro i hix him
    have hiff : i ∈ swapIn c x m ↔ i ∈ c := by
      rw [← List.mem_toFinset, hset, Finset.mem_insert, Finset.mem_erase, List.mem_toFinset]
      simp [hix, him]
    rw [Frame.ckps, Frame.ckps, kpsOf_calCkps, kpsOf_calCkps]
    simp only [hiff]
  -- the constructor has refused a prefix whose thread would have to go on
  · rintro rfl he
    have hone : f.q = 1 := (searchWords_length hw).symm
    have := hguard hone m he.symm
    omega

theorem Frame.pairs_head (hguard : f.q = 1 → ∀ t, f.last = some t → kpsOf f.pool t = 0) :
    f.pairs.head? = some v := by
  have hskip := Frame.firstPair_not_skipped hv hguard
  obtain ⟨preC, postC, post, hsets, hwords, hpre⟩ := Frame.firstPair_split hv
  have hempty : f.openPairs preC = [] := by
    refine List.flatMap_eq_nil_iff.mpr fun c hc => ?_
    rw [hpre c hc]
    rfl
  rw [Frame.openPairs] at hempty
  rw [Frame.pairs, Frame.openPairs, hsets, List.flatMap_append, hempty, List.nil_append,
    List.flatMap_cons, hwords, List.map_cons, List.filter_cons_of_pos (by simpa using hskip)]
  rfl

end First

end Period.Scheduler
