import Mathlib.Algebra.Order.BigOperators.Group.List
import Mathlib.Algebra.Order.Group.Nat
import Mathlib.Data.List.SplitBy
import Period.Interleaving.Agreement
import Period.Interleaving.Iterator

/-!
# Playing a yield pattern

Any pattern, well-formed or not, plays each key point in the period that the sum of its row
says. A pattern made from an interleaving plays that interleaving.
-/

namespace Period.Interleaving

open Period.Scheduler
set_option autoImplicit false

/-- Key point `(t, k)` comes before `(t', k')`: in an earlier period, or in the same one with
the smaller thread, or with the smaller key point of one thread. -/
def PlayedBefore (YP : List (List Nat)) (x y : Nat × Nat) : Prop :=
  sumTo (YP.getD x.1 []) x.2 < sumTo (YP.getD y.1 []) y.2 ∨
    sumTo (YP.getD x.1 []) x.2 = sumTo (YP.getD y.1 []) y.2 ∧
      (x.1 < y.1 ∨ x.1 = y.1 ∧ x.2 < y.2)

/-- The key points of thread `t` that are passed in period `j`. -/
def playedIn (M : List Nat) (YP : List (List Nat)) (j t : Nat) : List (Nat × Nat) :=
  ((List.range (kpsOf M t)).filter fun k => sumTo (YP.getD t []) k = j).map (t, ·)

/-- The key points of the first `R` periods, in the order in which they are passed. -/
def playedUpTo (n : Nat) (M : List Nat) (YP : List (List Nat)) (R : Nat) : List (Nat × Nat) :=
  (List.range R).flatMap fun j => (List.range n).flatMap (playedIn M YP j)

section Played
variable {n R : Nat} {M : List Nat} {YP : List (List Nat)}

theorem mem_playedIn {j t : Nat} {x : Nat × Nat} :
    x ∈ playedIn M YP j t ↔ x.1 = t ∧ x.2 < kpsOf M t ∧ sumTo (YP.getD t []) x.2 = j := by
  simp only [playedIn, List.mem_map, List.mem_filter, List.mem_range, decide_eq_true_eq]
  constructor
  · rintro ⟨k, hk, rfl⟩
    exact ⟨rfl, hk⟩
  · rintro ⟨rfl, hk⟩
    exact ⟨x.2, hk, rfl⟩

theorem mem_playedUpTo {x : Nat × Nat} : x ∈ playedUpTo n M YP R ↔
    x.1 < n ∧ x.2 < kpsOf M x.1 ∧ sumTo (YP.getD x.1 []) x.2 < R := by
  simp only [playedUpTo, List.mem_flatMap, List.mem_range, mem_playedIn]
  constructor
  · rintro ⟨j, hj, t, ht, rfl, hk, rfl⟩
    exact ⟨ht, hk, hj⟩
  · rintro ⟨ht, hk, hj⟩
    exact ⟨_, hj, x.1, ht, rfl, hk, rfl⟩

theorem emitted_eq_map (j t : Nat) : emitted M YP j t = (playedIn M YP j t).map Prod.fst := by
  rw [emitted, passedIn, playedIn, List.map_map, List.countP_eq_length_filter]
  exact (List.map_const' ..).symm

theorem interUpTo_eq_map : interUpTo n M YP R = (playedUpTo n M YP R).map Prod.fst := by
  simp only [interUpTo, playedUpTo, List.map_flatMap, ← emitted_eq_map]

theorem sumTo_mono (row : List Nat) {k k' : Nat} (h : k ≤ k') : sumTo row k ≤ sumTo row k' := by
  obtain ⟨d, rfl⟩ := Nat.exists_eq_add_of_le h
  have hlen : k + d + 1 = (k + 1) + d := by omega
  have hsplit : row.take (k + 1 + d) = row.take (k + 1) ++ (row.drop (k + 1)).take d := List.take_add
  rw [sumTo, sumTo, hlen, hsplit, List.sum_append]
  exact Nat.le_add_right _ _

theorem playedIn_pairwise (j t : Nat) : (playedIn M YP j t).Pairwise (PlayedBefore YP) := by
  rw [playedIn, List.pairwise_map]
  have hrange : ((List.range (kpsOf M t)).filter fun k => sumTo (YP.getD t []) k = j).Pairwise (· < ·) :=
    List.pairwise_lt_range.filter _
  apply hrange.imp_of_mem
  intro k k' hk hk' hlt
  have hk := of_decide_eq_true (List.mem_filter.mp hk).2
  have hk' := of_decide_eq_true (List.mem_filter.mp hk').2
  exact Or.inr ⟨hk.trans hk'.symm, Or.inr ⟨rfl, hlt⟩⟩

theorem playedUpTo_pairwise : (playedUpTo n M YP R).Pairwise (PlayedBefore YP) := by
  rw [playedUpTo, List.pairwise_flatMap]
  constructor
  · intro j _
    rw [List.pairwise_flatMap]
    refine ⟨fun t _ => playedIn_pairwise j t, ?_⟩
    apply List.pairwise_lt_range.imp
    intro t t' hlt x hx y hy
    obtain ⟨rfl, _, hx⟩ := mem_playedIn.mp hx
    obtain ⟨rfl, _, hy⟩ := mem_playedIn.mp hy
    exact Or.inr ⟨hx.trans hy.symm, Or.inl hlt⟩
  · apply List.pairwise_lt_range.imp
    intro j j' hlt x hx y hy
    obtain ⟨_, _, hx⟩ := List.mem_flatMap.mp hx
    obtain ⟨_, _, hy⟩ := List.mem_flatMap.mp hy
    obtain ⟨rfl, _, rfl⟩ := mem_playedIn.mp hx
    obtain ⟨rfl, _, rfl⟩ := mem_playedIn.mp hy
    exact Or.inl hlt

/-- The key points of one thread come in program order. -/
theorem playedUpTo_thread {t : Nat} (ht : t < n)
    (hR : ∀ k, k < kpsOf M t → sumTo (YP.getD t []) k < R) :
    ((playedUpTo n M YP R).filter (·.1 = t)).map Prod.snd = List.range (kpsOf M t) := by
  have hsorted : (((playedUpTo n M YP R).filter (·.1 = t)).map Prod.snd).Pairwise (· < ·) := by
    rw [List.pairwise_map]
    apply (playedUpTo_pairwise.filter _).imp_of_mem
    intro x y hx hy hbefore
    have hx : x.1 = t := of_decide_eq_true (List.mem_filter.mp hx).2
    have hy : y.1 = t := of_decide_eq_true (List.mem_filter.mp hy).2
    rw [PlayedBefore, hx, hy] at hbefore
    by_contra hge
    have := sumTo_mono (YP.getD t []) (Nat.le_of_not_lt hge)
    omega
  apply List.Perm.eq_of_pairwise' (hsorted.imp Nat.le_of_lt) (List.pairwise_lt_range.imp Nat.le_of_lt)
  rw [List.perm_ext_iff_of_nodup (hsorted.imp Nat.ne_of_lt) List.nodup_range]
  intro k
  rw [List.mem_range, List.mem_map]
  constructor
  · rintro ⟨x, hx, rfl⟩
    obtain ⟨hx, hxt⟩ := List.mem_filter.mp hx
    exact of_decide_eq_true hxt ▸ (mem_playedUpTo.mp hx).2.1
  · intro hk
    exact ⟨(t, k), List.mem_filter.mpr ⟨mem_playedUpTo.mpr ⟨ht, hk, hR k hk⟩, decide_eq_true rfl⟩, rfl⟩

end Played

theorem sumTo_append_zeros (row : List Nat) (z k : Nat) :
    sumTo (row ++ List.replicate z 0) k = sumTo row k := by
  rw [sumTo, sumTo, List.take_append, List.sum_append, List.take_replicate, List.sum_replicate_nat,
    Nat.mul_zero, Nat.add_zero]

theorem sumTo_padPattern {n : Nat} {M : List Nat} {YP : List (List Nat)} {t : Nat} (ht : t < n)
    (k : Nat) : sumTo ((padPattern n M YP).getD t []) k = sumTo (YP.getD t []) k := by
  have hlen : t < (YP ++ List.replicate (n - YP.length) [0]).length := by
    rw [List.length_append, List.length_replicate]
    omega
  rw [padPattern, List.getD_eq_getElem?_getD, List.getElem?_mapIdx, List.getElem?_eq_getElem hlen,
    Option.map_some, Option.getD_some, if_pos ht, sumTo_append_zeros]
  rcases Nat.lt_or_ge t YP.length with hrow | hrow
  · rw [List.getElem_append_left hrow, List.getD_eq_getElem _ _ hrow]
  · rw [List.getElem_append_right hrow, List.getElem_replicate, List.getD_eq_default _ _ hrow]
    exact sumTo_append_zeros [] 1 k

/-- A number of periods that is enough for all key points. -/
theorem exists_periods (n : Nat) (M : List Nat) (YP : List (List Nat)) :
    ∃ R, ∀ t, t < n → ∀ k, k < kpsOf M t → sumTo (YP.getD t []) k < R := by
  refine ⟨((List.range n).map fun t => (YP.getD t []).sum).sum + 1, fun t ht k _ => ?_⟩
  have hle : (YP.getD t []).sum ≤ ((List.range n).map fun t => (YP.getD t []).sum).sum :=
    List.le_sum_of_mem (List.mem_map.mpr ⟨t, List.mem_range.mpr ht, rfl⟩)
  have hsum : sumTo (YP.getD t []) k ≤ (YP.getD t []).sum := by
    have hsplit := congrArg List.sum (List.take_append_drop (k + 1) (YP.getD t []))
    rw [List.sum_append] at hsplit
    rw [sumTo]
    omega
  omega

/-- The loop ends, and the result lists the key points by period, thread and place in the
thread. -/
theorem ypToInter_plays {M : List Nat} (hM : M ≠ []) (n : Nat) (YP : List (List Nat)) :
    ∃ (rounds : Nat) (order : List (Nat × Nat)),
      (∀ fuel, rounds ≤ fuel → ypToInter fuel n M YP = .ok (order.map Prod.fst)) ∧
      order.Pairwise (PlayedBefore YP) ∧
      (∀ t k, (t, k) ∈ order ↔ t < n ∧ k < M.getD t (M.getLast hM)) ∧
      (∀ t, t < n → (order.filter (·.1 = t)).map Prod.snd = List.range (M.getD t (M.getLast hM))) ∧
      ∀ t, t < n → (order.map Prod.fst).count t = M.getD t (M.getLast hM) := by
  obtain ⟨M', hpad, _, hkps⟩ := padKps_ok (n := n) hM
  obtain ⟨R, hR⟩ := exists_periods n M' YP
  have hpadded : ∀ t, t < n → ∀ k, k < kpsOf M' t → sumTo ((padPattern n M' YP).getD t []) k < R := by
    intro t ht k hk
    rw [sumTo_padPattern ht]
    exact hR t ht k hk
  have hsame : interUpTo n M' (padPattern n M' YP) R = interUpTo n M' YP R := by
    apply List.flatMap_congr
    intro j _
    apply List.flatMap_congr
    intro t ht
    simp only [emitted, passedIn, sumTo_padPattern (List.mem_range.mp ht)]
  have hthread : ∀ t, t < n → ((playedUpTo n M' YP R).filter (·.1 = t)).map Prod.snd =
      List.range (M.getD t (M.getLast hM)) := by
    intro t ht
    rw [playedUpTo_thread ht (hR t ht), hkps t ht]
  refine ⟨R + 1, playedUpTo n M' YP R, fun fuel hfuel => ?_, playedUpTo_pairwise, fun t k => ?_,
    hthread, fun t ht => ?_⟩
  · rw [ypToInter_eq hpad (by omega) hpadded, hsame, interUpTo_eq_map]
  · rw [mem_playedUpTo]
    constructor
    · rintro ⟨ht, hk, _⟩
      exact ⟨ht, hkps t ht ▸ hk⟩
    · rintro ⟨ht, hk⟩
      rw [← hkps t ht] at hk
      exact ⟨ht, hk, hR t ht k hk⟩
  · have hlen := congrArg List.length (hthread t ht)
    rw [List.length_map, List.length_range, ← List.countP_eq_length_filter] at hlen
    rw [List.count, List.countP_map, ← hlen]
    apply List.countP_congr
    intro x _
    simp

/-- Both threads wait once, the second one after its last key point. -/
theorem ypToInter_plays_pair : ∃ (rounds : Nat) (order : List (Nat × Nat)),
    (∀ fuel, rounds ≤ fuel → ypToInter fuel 2 [2, 1] [[0, 1], [0, 1]] = .ok (order.map Prod.fst)) ∧
    order.Pairwise (PlayedBefore [[0, 1], [0, 1]]) ∧
    (∀ t k, (t, k) ∈ order ↔ t < 2 ∧ k < [2, 1].getD t ([2, 1].getLast (by decide))) ∧
    (∀ t, t < 2 → (order.filter (·.1 = t)).map Prod.snd =
      List.range ([2, 1].getD t ([2, 1].getLast (by decide)))) ∧
    ∀ t, t < 2 → (order.map Prod.fst).count t = [2, 1].getD t ([2, 1].getLast (by decide)) :=
  ypToInter_plays (by decide) 2 [[0, 1], [0, 1]]

def blocks (inter : List Nat) : Schedule := inter.splitBy (· == ·)

section Blocks
variable {inter period : List Nat}

theorem blocks_flatten (inter : List Nat) : (blocks inter).flatten = inter :=
  List.flatten_splitBy _ _

theorem blocks_single (h : period ∈ blocks inter) : ∃ x m, period = List.replicate (m + 1) x := by
  have hchain := List.isChain_of_mem_splitBy h
  simp only [beq_iff_eq] at hchain
  cases period with
  | nil => exact absurd rfl (List.ne_nil_of_mem_splitBy h)
  | cons x rest =>
    have hrest := List.isChain_cons_eq_iff_eq_replicate.mp hchain
    exact ⟨x, rest.length, by rw [List.replicate_succ, ← hrest]⟩

theorem blocks_adjacent (inter : List Nat) :
    (blocks inter).IsChain fun a b => a.head? ≠ b.head? := by
  apply List.IsChain.imp_of_mem_imp _ (List.isChain_getLast_head_splitBy (· == ·) inter)
  intro a b ha hb hne
  obtain ⟨x, m, rfl⟩ := blocks_single ha
  obtain ⟨y, l, rfl⟩ := blocks_single hb
  obtain ⟨_, _, hne⟩ := hne
  rw [List.getLast_replicate, List.head_replicate] at hne
  intro heq
  exact ne_of_beq_false hne (Option.some.inj heq)

theorem normSched_blocks (inter : List Nat) : normSched (blocks inter) = blocks inter := by
  rw [normSched]
  conv_rhs => rw [← List.map_id (blocks inter)]
  apply List.map_congr_left
  intro period hperiod
  obtain ⟨x, m, rfl⟩ := blocks_single hperiod
  apply List.mergeSort_of_pairwise
  rw [List.pairwise_replicate]
  exact Or.inr (decide_eq_true (Nat.le_refl x))

theorem length_blocks_le (inter : List Nat) : (blocks inter).length ≤ inter.length := by
  have hlen : inter.length = ((blocks inter).map List.length).sum := by
    rw [← List.length_flatten, blocks_flatten]
  have hle := List.length_le_sum_of_one_le ((blocks inter).map List.length)
  rw [List.length_map] at hle
  rw [hlen]
  apply hle
  intro i hi
  obtain ⟨period, hperiod, rfl⟩ := List.mem_map.mp hi
  exact List.length_pos_iff.mpr (List.ne_nil_of_mem_splitBy hperiod)

end Blocks

/-- The pattern of an interleaving plays the interleaving. -/
theorem ypToInter_yieldPatternGen {n : Nat} {inter M : List Nat} (hne : inter ≠ [])
    (hlt : ∀ t ∈ inter, t < n) (hM : ∀ i, i < n → M[i]? = some (inter.count i)) :
    ∃ YP, yieldPatternGen n inter = .ok YP ∧
      ∀ fuel, inter.length < fuel → ypToInter fuel n M YP = .ok inter := by
  have hlen : n ≤ M.length := by
    by_contra hshort
    have hi := hM M.length (Nat.lt_of_not_le hshort)
    rw [List.getElem?_eq_none (Nat.le_refl _)] at hi
    cases hi
  have hblocks : ∀ period ∈ blocks inter, ∀ t ∈ period, t < n := by
    intro period hperiod t ht
    apply hlt
    rw [← blocks_flatten inter]
    exact List.mem_flatten.mpr ⟨period, hperiod, ht⟩
  have hcount : ∀ i, i < n → (blocks inter).flatten.count i = kpsOf M i := by
    intro i hi
    rw [blocks_flatten, kpsOf, List.getD_eq_getElem?_getD, hM i hi, Option.getD_some]
  refine ⟨getYieldPattern n M (blocks inter), ?_, fun fuel hfuel => ?_⟩
  · have hgen := yieldPatternGen_eq hblocks hcount (mt List.splitBy_eq_nil.mp hne)
      (fun period hperiod => blocks_single hperiod) (blocks_adjacent inter)
    rwa [blocks_flatten] at hgen
  · have hplay := ypToInter_getYieldPattern hlen hblocks hcount
      (Nat.lt_of_le_of_lt (length_blocks_le inter) hfuel)
    rwa [normSched_blocks, blocks_flatten] at hplay

/-- Two threads and three periods. -/
theorem ypToInter_yieldPatternGen_pair : ∃ YP, yieldPatternGen 2 [0, 0, 1, 0] = .ok YP ∧
    ∀ fuel, [0, 0, 1, 0].length < fuel → ypToInter fuel 2 [3, 1] YP = .ok [0, 0, 1, 0] :=
  ypToInter_yieldPatternGen (by decide) (by decide) (by decide)

end Period.Interleaving
