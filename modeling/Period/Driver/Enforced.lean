import Period.Driver.Arranged
import Period.Scheduler.Produced

/-!
# What the test of a schedule enforces

A bug needs some key points in a certain order. The test of a schedule enforces the order if it
is kept in every run in which no period is too short.
-/

namespace Period.Driver

open Aligned Runs
open Period.Runtime Period.Scheduler
set_option autoImplicit false

/-- Every timely run passes the key points of the chain in their order. -/
def Enforces (numTd : Nat) (kpNum : List Nat) (s : Execution) (chain : List KeyPoint) : Prop :=
  ∀ acts, Meets Execution.step (Act.InRow numTd) acts s → Timely kpNum (run Execution.step acts s).log →
    chain.Sublist (numbered ((run Execution.step acts s).log.map threadOf))

theorem enforces_iff_after {kpNum : List Nat} {sched : Schedule} {a : Target} {numTd : Nat}
    (hload : Loaded kpNum sched a) (hnum : 0 < a.loopUnwindedNum) (htd : kpNum.length ≤ numTd)
    (chain : List KeyPoint) : Enforces numTd kpNum (.start a) chain ↔
      (∀ x ∈ chain, x.2 < kpsOf kpNum x.1) ∧ chain.Pairwise (After sched) := by
  have hiff := @sublist_arrangements_iff sched chain
  simp only [hload.complete] at hiff
  rw [← hiff]
  constructor
  · intro h order horder
    obtain ⟨acts, hacts, htimely, hword⟩ := exists_timely hload hnum htd horder
    rw [← hword]
    exact h acts hacts htimely
  · intro h acts hacts htimely
    obtain ⟨order, horder, hword⟩ := arranges_of_timely hload rfl hacts htimely
    rw [hword]
    exact h order horder

/-- The chains that the test of a schedule enforces: each key point in a later period than the ones
before, or later in the same thread. -/
theorem enforces_iff {kpNum : List Nat} {N z M : Nat} {sched : Schedule} {loopUnwindedNum : Nat}
    (m : Bytes.Mem) (hlen : kpNum.length = N + z) (hM : ∀ c ∈ kpNum, c ≤ M)
    (hroom : M * (N + z) ≤ shareArraySize) (hsched : ∀ t, sched.flatten.count t = kpsOf kpNum t)
    (hdeliver : Deliverable N kpNum sched) (hnum : 0 < loopUnwindedNum) (chain : List KeyPoint) :
    Enforces (N + z) kpNum (.start (testTarget (N + z) N M kpNum sched loopUnwindedNum m)) chain ↔
      (∀ x ∈ chain, x.2 < kpsOf kpNum x.1) ∧ chain.Pairwise (After sched) :=
  enforces_iff_after (loaded_testTarget _ _ hlen hM hroom hsched hdeliver) hnum hlen.le chain

theorem enforces_iff_two :
    Enforces 2 [1, 1] (.start (testTarget 2 2 1 [1, 1] [[0], [1]] 4 fun _ => 0)) [(0, 0), (1, 0)] ↔
      (∀ x ∈ [(0, 0), (1, 0)], x.2 < kpsOf [1, 1] x.1) ∧ [(0, 0), (1, 0)].Pairwise (After [[0], [1]]) :=
  @enforces_iff [1, 1] 2 0 1 [[0], [1]] 4 (fun _ => 0) rfl (by decide) (by decide) count_two
    deliverable_two (by decide) [(0, 0), (1, 0)]

theorem eq_range_of_increasing {l : List Nat} (hl : l.Pairwise (· < ·)) (hlt : ∀ x ∈ l, x < l.length) :
    l = List.range l.length := by
  have hsub : l.Subperm (List.range l.length) :=
    List.subperm_of_subset (hl.imp Nat.ne_of_lt) fun x hx => List.mem_range.mpr (hlt x hx)
  refine List.Perm.eq_of_pairwise (fun a b _ _ (hab : a < b) (hba : b < a) => by omega) hl
    List.pairwise_lt_range (hsub.perm_of_length_le ?_)
  rw [List.length_range]

section Depth
variable {kps : List Nat} {chain : List KeyPoint} {sched : Schedule}

theorem periodOf_lt (hsched : ∀ t, sched.flatten.count t = kpsOf kps t) {x : KeyPoint}
    (hx : x.2 < kpsOf kps x.1) :
    LiesIn sched x.1 x.2 (periodOf sched x.1 x.2) ∧ periodOf sched x.1 x.2 < sched.length := by
  obtain ⟨j, hj⟩ := exists_liesIn (t := x.1) (by rw [hsched]; exact hx)
  rw [periodOf_eq_of_liesIn hj]
  refine ⟨hj, ?_⟩
  by_contra hge
  obtain ⟨hlo, hhi⟩ := hj
  rw [List.take_of_length_le (by omega)] at hlo hhi
  omega

/-- A chain of alternating threads with as many key points as there are periods has one key
point in each of them. -/
theorem covers_of_after (hchain : LegalChain kps chain) (hlength : sched.length = chain.length)
    (hsched : ∀ t, sched.flatten.count t = kpsOf kps t) (hafter : chain.Pairwise (After sched)) :
    Covers sched chain := by
  have hstep : (chain.map fun x => periodOf sched x.1 x.2).Pairwise (· < ·) := by
    rw [← List.isChain_iff_pairwise, List.isChain_map, List.isChain_iff_getElem]
    intro i hi
    have hadjacent := List.isChain_iff_getElem.mp (List.isChain_map _ |>.mp hchain.adjacent) i hi
    rcases List.pairwise_iff_getElem.mp hafter i (i + 1) (by omega) hi (by omega) with hsame | hlt
    · exact absurd hsame.1 hadjacent
    · exact hlt
  have hrange := eq_range_of_increasing hstep fun p hp => by
    obtain ⟨x, hx, rfl⟩ := List.mem_map.mp hp
    rw [List.length_map, ← hlength]
    exact (periodOf_lt hsched (hchain.lt x hx)).2
  intro j t k hj
  have hperiod := congrArg (·[j]?) hrange
  simp only [List.getElem?_map, hj, Option.map_some, List.length_map,
    List.getElem?_range (List.getElem?_eq_some_iff.mp hj).1, Option.some.injEq] at hperiod
  have hlies := (periodOf_lt hsched (hchain.lt (t, k) (List.mem_of_getElem? hj))).1
  rwa [hperiod] at hlies

theorem after_of_covers (hcovers : Covers sched chain) : chain.Pairwise (After sched) := by
  rw [List.pairwise_iff_getElem]
  intro i j hi hj hij
  have hperiod : ∀ l (hl : l < chain.length), periodOf sched chain[l].1 chain[l].2 = l :=
    fun l hl => periodOf_eq_of_liesIn (hcovers l _ _ (List.getElem?_eq_getElem hl))
  refine Or.inr ?_
  rwa [hperiod i hi, hperiod j hj]

/-- What the scheduler meets are schedules of all key points in that many periods. -/
theorem yields_complete {p : Nat} (hpos : ∀ k ∈ kps, 0 < k) (hp : 0 < p)
    (hyields : SBPMESched.Yields kps.length kps p sched) :
    sched.length = p ∧ ∀ t, sched.flatten.count t = kpsOf kps t := by
  obtain ⟨fuel, start, out, hinit, hout, hmem⟩ := hyields
  obtain ⟨s, hs, rfl⟩ := List.mem_map.mp hmem
  have hproduced : SBPMESched.Produced kps.length kps p s :=
    ⟨fuel, start, hinit, (Enumeration.mem_exhaust_iff hout s).mp hs⟩
  obtain ⟨kps', hpad, hsound⟩ := hproduced.sound
  obtain ⟨parts, hlayout, _⟩ := hsound.filled
  have hlength : s.schedChosen.length = p := by
    rw [hlayout, layout_length, hsound.word.length_eq]
  refine ⟨?_, fun t => ?_⟩
  · rw [hsound.sched_perm.length_eq, extendLast, List.length_modify, hlength]
  rcases Nat.lt_or_ge t kps.length with ht | ht
  · refine (hproduced.count ht).2.2 ?_
    rw [kpsOf, List.getD_eq_getElem _ _ ht]
    exact hpos _ (List.getElem_mem ht)
  · have hword : s.pattern.count t = 0 := by
      refine List.count_eq_zero.mpr fun hin => ?_
      have := hsound.word.usable.lt t hin
      omega
    have hnone : s.schedChosen.flatten.count t = 0 := by
      have hall := layout_count_take s.pattern parts s.pattern.length t
      rw [List.take_of_length_le (Nat.le_of_eq (layout_length ..)), List.take_length, hword] at hall
      rwa [hlayout]
    rw [(List.Perm.flatten_congr hsound.sched_perm).count_eq t,
      extendLast_count (List.length_pos_iff.mp (by omega)), hsound.schedOther_eq, otherKps_count, hnone,
      if_neg (by omega), kpsOf, List.getD_eq_default _ _ ht]

/-- Without threads that have no key points every schedule is delivered. -/
theorem deliverable_of_pos (hsched : ∀ t, sched.flatten.count t = kpsOf kps t)
    (hlength : sched.length < 65536) : Deliverable kps.length kps sched := by
  refine ⟨fun i _ k _ => ?_, fun i k j hi hlies => ?_⟩
  · refine Nat.lt_of_le_of_lt (List.countP_le_length) ?_
    rwa [List.length_range]
  · have hk := hlies.lt_count
    rw [hsched, kpsOf, List.getD_eq_default _ _ hi] at hk
    omega

end Depth

section Chains
variable {kps : List Nat} {chain : List KeyPoint} {M loopUnwindedNum : Nat} {m : Bytes.Mem}
  (hpos : ∀ k ∈ kps, 0 < k) (hne : chain ≠ []) (hchain : LegalChain kps chain)
  (hM : ∀ c ∈ kps, c ≤ M) (hroom : M * kps.length ≤ shareArraySize) (hdepth : chain.length < 65536)
  (hnum : 0 < loopUnwindedNum)
include hpos hne hchain hM hroom hdepth hnum

/-- A schedule with a period for each key point of the chain enforces the chain by covering it. -/
theorem enforces_iff_covers {sched : Schedule}
    (hyields : SBPMESched.Yields kps.length kps chain.length sched) :
    Enforces kps.length kps
        (.start (testTarget kps.length kps.length M kps sched loopUnwindedNum m)) chain ↔
      Covers sched chain := by
  obtain ⟨hlength, hsched⟩ := yields_complete hpos (List.length_pos_iff.mpr hne) hyields
  have hload := loaded_testTarget loopUnwindedNum m (Nat.add_zero kps.length).symm hM hroom hsched
    (deliverable_of_pos hsched (hlength ▸ hdepth))
  have hiff := enforces_iff_after hload hnum (Nat.le_refl _) chain
  refine hiff.trans ⟨fun h => covers_of_after hchain hlength hsched h.2, fun h => ?_⟩
  exact ⟨hchain.lt, after_of_covers h⟩

end Chains

end Period.Driver
