import Mathlib.Data.List.GetD
import Period.Interleaving.Successor
import Period.Scheduler.Sched

/-!
# The interleaving iterator

`interleaving_iter` keeps the prefix of the parent and steps the rest through its
rearrangements. `interleaving_gen` is the direct way: all permutations, sorted, without
repetitions.
-/

namespace Period.Interleaving

open Enumeration Rearrangement
open Period.Scheduler
set_option autoImplicit false

universe u
variable {α : Type u} [LinearOrder α]

/-- The loop `while cs < len(inter)`, with the rounds it has left. -/
def countSuffix (inter : List α) : Nat → Nat → Nat
  | 0, cs => cs
  | left + 1, cs =>
    match inter[inter.length - (cs + 1)]?, inter[inter.length - cs]? with
    | some x, some y => if x > y then cs else countSuffix inter left (cs + 1)
    | _, _ => cs

def getPrefix (inter : List α) : List α :=
  inter.take (inter.length - countSuffix inter (inter.length - 1) 1)

def groupKeys {β : Type u} [DecidableEq β] : List β → List β
  | [] => []
  | [a] => [a]
  | a :: b :: l => if a = b then groupKeys (b :: l) else a :: groupKeys (b :: l)

/-- `interleaving_gen`. The sort makes the order of the permutations immaterial. -/
def interleavingGen (n m : Nat) : List (List Nat) :=
  let kpPool := (List.range n).flatMap fun i => List.replicate m i
  groupKeys (kpPool.permutations.mergeSort (· ≤ ·))

/-- `interleaving_init`. A count below zero is an empty `range`. -/
def interleavingInit (n : Nat) (M : List Int) : Except Halt (List Nat) := do
  let blocks ← (List.range n).mapM fun i =>
    (M[i]?.or M.getLast?).elim (throw .indexError) fun m => pure (List.replicate m.toNat i)
  return blocks.flatten

/-- The key points of the prefix are taken from `M`, which may go below zero. Threads that
`M` does not know only give a warning. -/
def takeOff (M : List Nat) (pre : List Nat) : List Int :=
  pre.foldl (fun M i => M.modify i (· - 1)) (M.map Int.ofNat)

def nextSuffix (suffix : List Nat) : Except Halt (List Nat) :=
  let r := interleavingNext suffix
  if r.2 then .ok r.1 else .error .stopIteration

/-- `interleaving_iter`: what the generator yields. -/
def interleavingIter (fuel n : Nat) (M parent : List Nat) : Except Halt (List (List Nat)) := do
  let M ← padKps n M
  let pre := getPrefix parent
  let suffix ← interleavingInit n (takeOff M pre)
  match exhaust nextSuffix .stopIteration fuel suffix with
  | none => throw .outOfFuel
  | some suffixes => return suffixes.map (pre ++ ·)

theorem padKps_ok {n : Nat} {M : List Nat} (hM : M ≠ []) :
    ∃ M', padKps n M = .ok M' ∧ n ≤ M'.length ∧ ∀ i, i < n → kpsOf M' i = M.getD i (M.getLast hM) := by
  rw [padKps]
  split
  · next hlen =>
    rw [List.getLast?_eq_some_getLast hM]
    refine ⟨_, rfl, ?_, fun i hi => ?_⟩
    · rw [List.length_append, List.length_replicate]
      omega
    · rw [kpsOf, List.getD_eq_getElem?_getD, List.getD_eq_getElem?_getD, List.getElem?_append]
      split
      · next hi' => rw [List.getElem?_eq_getElem hi', Option.getD_some, Option.getD_some]
      · next hi' =>
        rw [List.getElem?_replicate_of_lt (by omega), List.getElem?_eq_none (by omega)]
        rfl
  · next hlen =>
    refine ⟨M, rfl, Nat.le_of_not_lt hlen, fun i hi => ?_⟩
    have hi : i < M.length := Nat.lt_of_lt_of_le hi (Nat.le_of_not_lt hlen)
    rw [kpsOf, List.getD_eq_getElem _ _ hi, List.getD_eq_getElem _ _ hi]

theorem takeOff_getElem? (M pre : List Nat) (i : Nat) :
    (takeOff M pre)[i]? = M[i]?.map fun (m : Nat) => (m : Int) - pre.count i := by
  have hfold : ∀ (pre : List Nat) (L : List Int),
      (pre.foldl (fun M i => M.modify i (· - 1)) L)[i]? = L[i]?.map fun (m : Int) => m - pre.count i := by
    intro pre
    induction pre with
    | nil => simp
    | cons j pre ih =>
      intro L
      rw [List.foldl_cons, ih, List.getElem?_modify, Option.map_eq_map, Option.map_map]
      congr 1
      funext m
      by_cases hj : j = i
      · subst hj
        simp
        omega
      · simp [hj]
  rw [takeOff, hfold, List.getElem?_map, Option.map_map]
  rfl

def restOf (n : Nat) (M pre : List Nat) : List Nat :=
  (List.range n).flatMap fun i => List.replicate (kpsOf M i - pre.count i) i

theorem mapM_eq_map {β γ : Type} {xs : List β} {f : β → Except Halt γ} {g : β → γ}
    (h : ∀ x ∈ xs, f x = .ok (g x)) : xs.mapM f = .ok (xs.map g) := by
  induction xs with
  | nil => rfl
  | cons x xs ih =>
    rw [List.mapM_cons, h x List.mem_cons_self, ih fun y hy => h y (List.mem_cons_of_mem x hy)]
    rfl

theorem interleavingInit_takeOff {n : Nat} {M : List Nat} (hn : n ≤ M.length) (pre : List Nat) :
    interleavingInit n (takeOff M pre) = .ok (restOf n M pre) := by
  have hblock : ∀ i ∈ List.range n, ((takeOff M pre)[i]?.or (takeOff M pre).getLast?).elim
      (throw .indexError) (fun m => pure (List.replicate m.toNat i)) =
      (Except.ok (List.replicate (kpsOf M i - pre.count i) i) : Except Halt (List Nat)) := by
    intro i hi
    have hi : i < M.length := Nat.lt_of_lt_of_le (List.mem_range.mp hi) hn
    have hkps : kpsOf M i = M[i] := List.getD_eq_getElem _ _ hi
    rw [takeOff_getElem?, List.getElem?_eq_getElem hi, Option.map_some, Option.some_or, Option.elim,
      Int.toNat_sub, hkps]
    rfl
  rw [interleavingInit, mapM_eq_map hblock]
  rfl

theorem restOf_sorted (n : Nat) (M pre : List Nat) : (restOf n M pre).Pairwise (· ≤ ·) :=
  pairwise_flatMap_replicate _ n

theorem perm_restOf_iff {n : Nat} {M pre rest : List Nat} :
    rest.Perm (restOf n M pre) ↔
      ∀ i, rest.count i = if i < n then kpsOf M i - pre.count i else 0 := by
  rw [List.perm_iff_count]
  simp only [restOf, count_flatMap_replicate]

theorem exhaust_nextSuffix {s : List Nat} (hs : s.Pairwise (· ≤ ·)) {fuel : Nat}
    (hfuel : (rearrangements s).length ≤ fuel) :
    exhaust nextSuffix .stopIteration fuel s = some (rearrangements s) := by
  obtain ⟨rest, hrest⟩ := rearrangements_eq_cons hs
  have hwalk := interleavingStep_walks s
  rw [hrest] at hwalk hfuel ⊢
  have hstep : ∀ b ∈ s :: rest, ∀ b' c, b = c → interleavingStep b = some b' →
      ∃ c', nextSuffix c = .ok c' ∧ b' = c' := by
    rintro b _ b' c rfl hb
    refine ⟨b', ?_, rfl⟩
    rw [interleavingStep] at hb
    rw [nextSuffix]
    split at hb
    · next htrue => rw [if_pos htrue, Option.some.inj hb]
    · cases hb
  have hstop : ∀ b ∈ s :: rest, ∀ c, b = c → interleavingStep b = none →
      nextSuffix c = .error .stopIteration := by
    rintro b _ c rfl hb
    rw [interleavingStep] at hb
    rw [nextSuffix]
    split at hb
    · cases hb
    · next hfalse => rw [if_neg hfalse]
  obtain ⟨out, hout, hall⟩ := exhaust_follows hwalk hstep hstop rfl hfuel
  rw [List.forall₂_eq_eq_eq] at hall
  rw [hout, hall]

theorem interleavingIter_eq {n fuel : Nat} {M M' parent : List Nat} (hpad : padKps n M = .ok M')
    (hn : n ≤ M'.length)
    (hfuel : (rearrangements (restOf n M' (getPrefix parent))).length ≤ fuel) :
    interleavingIter fuel n M parent =
      .ok ((rearrangements (restOf n M' (getPrefix parent))).map (getPrefix parent ++ ·)) := by
  have hrun := exhaust_nextSuffix (restOf_sorted n M' (getPrefix parent)) hfuel
  simp only [interleavingIter, hpad, bind, Except.bind, interleavingInit_takeOff hn, hrun]
  rfl

theorem groupKeys_spec {β : Type} [LinearOrder β] [DecidableEq β] {l : List β} (hl : l.Pairwise (· ≤ ·)) :
    (groupKeys l).Pairwise (· < ·) ∧ ∀ a, a ∈ groupKeys l ↔ a ∈ l := by
  induction l using groupKeys.induct with
  | case1 => exact ⟨List.Pairwise.nil, fun _ => Iff.rfl⟩
  | case2 a => exact ⟨List.pairwise_singleton _ _, fun _ => Iff.rfl⟩
  | case3 a l ih =>
    obtain ⟨hsorted, hmem⟩ := ih (List.pairwise_cons.mp hl).2
    rw [groupKeys, if_pos rfl]
    refine ⟨hsorted, fun c => ?_⟩
    rw [hmem]
    simp
  | case4 a b l hne ih =>
    obtain ⟨hle, htail⟩ := List.pairwise_cons.mp hl
    obtain ⟨hsorted, hmem⟩ := ih htail
    rw [groupKeys, if_neg hne]
    refine ⟨List.pairwise_cons.mpr ⟨fun c hc => ?_, hsorted⟩, fun c => ?_⟩
    · have hab : a < b := lt_of_le_of_ne (hle b List.mem_cons_self) hne
      rcases List.mem_cons.mp ((hmem c).mp hc) with rfl | hc
      · exact hab
      · exact lt_of_lt_of_le hab ((List.pairwise_cons.mp htail).1 c hc)
    · rw [List.mem_cons, List.mem_cons, hmem]

theorem interleavingGen_eq (n m : Nat) :
    interleavingGen n m = rearrangements ((List.range n).flatMap fun i => List.replicate m i) := by
  obtain ⟨hsorted, hmem⟩ := groupKeys_spec (List.pairwise_mergeSort' (· ≤ ·)
    ((List.range n).flatMap fun i => List.replicate m i).permutations)
  apply eq_rearrangements hsorted
  intro l
  rw [hmem, List.mem_mergeSort, List.mem_permutations]

/-- The iterator yields every way to go on after the prefix of the parent, in order and nothing
twice, and ends; for one count and no parent it agrees with the direct way. -/
theorem interleavingIter_enumerates {M : List Nat} (hM : M ≠ []) (n : Nat) (parent : List Nat) :
    (∃ rounds out, (∀ fuel, rounds ≤ fuel → interleavingIter fuel n M parent = .ok out) ∧
      out.Pairwise (· < ·) ∧
      ∀ l, l ∈ out ↔ ∃ rest, l = getPrefix parent ++ rest ∧ ∀ i, rest.count i =
        if i < n then M.getD i (M.getLast hM) - (getPrefix parent).count i else 0) ∧
    ∀ m, ∃ rounds, ∀ fuel, rounds ≤ fuel → interleavingIter fuel n [m] [] = .ok (interleavingGen n m) := by
  constructor
  · obtain ⟨M', hpad, hn, hkps⟩ := @padKps_ok n M hM
    refine ⟨_, _, fun fuel hfuel => interleavingIter_eq hpad hn hfuel, ?_, fun l => ?_⟩
    · rw [List.pairwise_map]
      exact (rearrangements_sorted _).imp (append_lt_append _)
    · have hrest : ∀ rest : List Nat, rest ∈ rearrangements (restOf n M' (getPrefix parent)) ↔
          ∀ i, rest.count i =
            if i < n then M.getD i (M.getLast hM) - (getPrefix parent).count i else 0 := by
        intro rest
        rw [mem_rearrangements, perm_restOf_iff]
        apply forall_congr'
        intro i
        by_cases hi : i < n
        · rw [if_pos hi, if_pos hi, hkps i hi]
        · rw [if_neg hi, if_neg hi]
      simp only [List.mem_map, hrest]
      constructor
      · rintro ⟨rest, hcount, rfl⟩
        exact ⟨rest, rfl, hcount⟩
      · rintro ⟨rest, rfl, hcount⟩
        exact ⟨rest, hcount, rfl⟩
  · intro m
    obtain ⟨M', hpad, hn, hkps⟩ := @padKps_ok n [m] (List.cons_ne_nil m [])
    refine ⟨(rearrangements (restOf n M' (getPrefix []))).length, fun fuel hfuel => ?_⟩
    have hpre : getPrefix ([] : List Nat) = [] := rfl
    have hrest : restOf n M' (getPrefix []) = (List.range n).flatMap fun i => List.replicate m i := by
      apply List.flatMap_congr
      intro i hi
      have hone : kpsOf M' i = m := by
        rw [hkps i (List.mem_range.mp hi)]
        cases i <;> rfl
      rw [hpre, hone]
      rfl
    rw [interleavingIter_eq hpad hn hfuel, hrest, interleavingGen_eq, hpre]
    congr 1
    exact List.map_id' _

/-- A parent that has used more of thread 1 than there is. -/
theorem interleavingIter_enumerates_over :
    (∃ rounds out, (∀ fuel, rounds ≤ fuel → interleavingIter fuel 2 [1] [1, 1, 0] = .ok out) ∧
      out.Pairwise (· < ·) ∧
      ∀ l, l ∈ out ↔ ∃ rest, l = getPrefix [1, 1, 0] ++ rest ∧ ∀ i, rest.count i =
        if i < 2 then [1].getD i ([1].getLast (by decide)) - (getPrefix [1, 1, 0]).count i else 0) ∧
    ∀ m, ∃ rounds, ∀ fuel, rounds ≤ fuel → interleavingIter fuel 2 [m] [] = .ok (interleavingGen 2 m) :=
  interleavingIter_enumerates (by decide) 2 [1, 1, 0]

example : interleavingIter 9 2 [1] [1, 1, 0] = .ok [[1, 1, 0]] := by decide

end Period.Interleaving
