import Period.Interleaving.Iterator

/-!
# What the last step changed

`get_prefix` knows one list only. After `interleaving_next` it keeps exactly what the step
has changed: the front, and the letter the step put behind it.
-/

namespace Period.Interleaving

open Rearrangement
set_option autoImplicit false

universe u
variable {α : Type u} [LinearOrder α]

omit [LinearOrder α] in
theorem getElem?_length_sub {inter front suf : List α} {x : α} (hinter : inter = front ++ x :: suf) :
    inter[inter.length - (suf.length + 1)]? = some x := by
  have hidx : inter.length - (suf.length + 1) = front.length := by
    rw [hinter, List.length_append, List.length_cons]
    omega
  rw [hidx, hinter, List.getElem?_append_right (Nat.le_refl _), Nat.sub_self, List.getElem?_cons_zero]

/-- The loop passes a sorted part and stops at a letter above its head. What it has passed is `suf`. -/
theorem countSuffix_append {inter pre low suf : List α} {y : α} (hinter : inter = pre ++ y :: (low ++ suf))
    (hsuf : suf ≠ []) (hsorted : (low ++ suf).Pairwise (· ≤ ·)) (hy : ∀ z ∈ (low ++ suf).head?, z < y) :
    countSuffix inter (pre.length + 1 + low.length) suf.length = low.length + suf.length := by
  induction low using List.reverseRecOn generalizing suf with
  | nil =>
    obtain ⟨z, suf, rfl⟩ := List.exists_cons_of_ne_nil hsuf
    have hx : inter[inter.length - ((z :: suf).length + 1)]? = some y := getElem?_length_sub hinter
    have hz : inter[inter.length - (z :: suf).length]? = some z :=
      @getElem?_length_sub α inter (pre ++ [y]) suf z (by rw [hinter]; simp)
    have hlt : z < y := hy z rfl
    rw [List.length_nil, Nat.add_zero, Nat.zero_add, countSuffix, hx, hz]
    exact if_pos hlt
  | append_singleton low x ih =>
    obtain ⟨z, suf, rfl⟩ := List.exists_cons_of_ne_nil hsuf
    rw [List.append_assoc, List.singleton_append] at hinter hsorted hy
    have hnext := ih hinter (List.cons_ne_nil x (z :: suf)) hsorted hy
    have hxz : ¬ x > z := by
      have htail := (List.pairwise_append.mp hsorted).2.1
      exact not_lt.mpr ((List.pairwise_cons.mp htail).1 z List.mem_cons_self)
    have hx : inter[inter.length - ((z :: suf).length + 1)]? = some x :=
      @getElem?_length_sub α inter (pre ++ y :: low) (z :: suf) x (by rw [hinter]; simp)
    have hz : inter[inter.length - (z :: suf).length]? = some z :=
      @getElem?_length_sub α inter (pre ++ y :: (low ++ [x])) suf z (by rw [hinter]; simp)
    have hleft : pre.length + 1 + (low ++ [x]).length = (pre.length + 1 + low.length) + 1 := by
      rw [List.length_append, List.length_singleton]
      omega
    rw [hleft, countSuffix, hx, hz]
    simp only [if_neg hxz]
    rw [List.length_cons] at hnext
    rw [hnext, List.length_append, List.length_singleton]
    omega

/-- Behind the last letter of the prefix stands a sorted part with a smaller head. -/
theorem getPrefix_append {pre suf : List α} {y : α} (hsuf : suf ≠ [])
    (hsorted : suf.Pairwise (· ≤ ·)) (hy : ∀ z ∈ suf.head?, z < y) :
    getPrefix (pre ++ y :: suf) = pre ++ [y] := by
  obtain ⟨low, x, rfl⟩ : ∃ low x, suf = low ++ [x] :=
    ⟨suf.dropLast, suf.getLast hsuf, (List.dropLast_append_getLast hsuf).symm⟩
  have hcount := @countSuffix_append α _ _ pre low [x] y rfl (List.cons_ne_nil x []) hsorted hy
  have hleft : (pre ++ y :: (low ++ [x])).length - 1 = pre.length + 1 + low.length := by simp; omega
  rw [List.length_singleton] at hcount
  rw [getPrefix, hleft, hcount]
  have hlen : (pre ++ y :: (low ++ [x])).length - (low.length + 1) = (pre ++ [y]).length := by
    simp only [List.length_append, List.length_cons, List.length_nil]
    omega
  have hsplit : pre ++ y :: (low ++ [x]) = (pre ++ [y]) ++ (low ++ [x]) := by simp
  rw [hlen, hsplit, List.take_left]

/-- What `get_prefix` keeps after a step is the shortest prefix the list did not have before, and
the rest is sorted. -/
theorem getPrefix_interleavingNext {inter inter' : List α}
    (hnext : interleavingNext inter = (inter', true)) :
    getPrefix inter' <+: inter' ∧ ¬ getPrefix inter' <+: inter ∧
    (∀ p, p <+: inter' → ¬ p <+: inter → getPrefix inter' <+: p) ∧
    (inter'.drop (getPrefix inter').length).Pairwise (· ≤ ·) := by
  rcases interleavingNext_cases inter with ⟨_, hnone⟩ | ⟨front, x, y, lows, highs, hrise, hinter, hsome⟩
  · rw [hnone] at hnext
    cases hnext
  · rw [hsome] at hnext
    obtain rfl : LastRise.after front x y lows highs = inter' := congrArg Prod.fst hnext
    have hhead : ∀ z ∈ (lows ++ x :: highs).head?, z < y := by
      intro z hz
      cases lows with
      | nil =>
        obtain rfl : x = z := Option.some.inj hz
        exact hrise.lt
      | cons w lows =>
        obtain rfl : w = z := Option.some.inj hz
        exact lt_of_le_of_lt (hrise.lows_le w List.mem_cons_self) hrise.lt
    have hkept : getPrefix (LastRise.after front x y lows highs) = front ++ [y] :=
      getPrefix_append (by simp) hrise.tail_sorted hhead
    have hafter : LastRise.after front x y lows highs = (front ++ [y]) ++ (lows ++ x :: highs) := by
      rw [LastRise.after, List.append_assoc, List.singleton_append]
    rw [hkept, hinter]
    refine ⟨?_, ?_, fun p hp hnot => ?_, ?_⟩
    · rw [hafter]
      exact List.prefix_append _ _
    · rw [LastRise.before, List.prefix_append_right_inj]
      intro hyx
      exact absurd (List.head_eq_of_cons_eq hyx.choose_spec) (ne_of_gt hrise.lt)
    · rw [hafter] at hp
      rcases List.prefix_or_prefix_of_prefix hp (List.prefix_append (front ++ [y]) _) with hshort | hlong
      · -- a shorter one lies inside the front
        rcases List.prefix_concat_iff.mp hshort with rfl | hfront
        · exact List.prefix_rfl
        · exact absurd (hfront.trans (List.prefix_append front _)) hnot
      · exact hlong
    · rw [hafter, List.drop_left]
      exact hrise.tail_sorted

/-- A letter that occurs twice, on both sides of the change. -/
theorem getPrefix_interleavingNext_twice :
    interleavingNext [0, 1, 2, 1, 0] = ([0, 2, 0, 1, 1], true) ∧
    (getPrefix [0, 2, 0, 1, 1] <+: [0, 2, 0, 1, 1] ∧ ¬ getPrefix [0, 2, 0, 1, 1] <+: [0, 1, 2, 1, 0] ∧
    (∀ p, p <+: [0, 2, 0, 1, 1] → ¬ p <+: [0, 1, 2, 1, 0] → getPrefix [0, 2, 0, 1, 1] <+: p) ∧
    ([0, 2, 0, 1, 1].drop (getPrefix [0, 2, 0, 1, 1]).length).Pairwise (· ≤ ·)) :=
  ⟨rfl, @getPrefix_interleavingNext Nat _ _ _ rfl⟩

end Period.Interleaving
