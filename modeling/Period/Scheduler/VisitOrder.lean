import Period.Scheduler.Visited

/-!
# The order of the words

Words of fewer threads are visited first, then those of the smaller set of threads, and the
words of one set in lexicographic order.
-/

namespace Period.Scheduler

open Enumeration Search
set_option autoImplicit false

def Sooner (w w' : List Nat) : Prop :=
  Precedes (letters w) (letters w') ∨ letters w = letters w' ∧ w < w'

structure Frame.Follows (f : Frame) (w w' : List Nat) : Prop where
  fst : f.Visits w
  snd : f.Visits w'
  sooner : Sooner w w'
  between : ∀ v, f.Visits v → ¬ (Sooner w v ∧ Sooner v w')

theorem Sooner.asymm {w w' : List Nat} (h : Sooner w w') : ¬ Sooner w' w := by
  rintro (hset | ⟨heq, hlt⟩) <;> rcases h with hset' | ⟨heq', hlt'⟩
  · exact hset.asymm hset'
  · rw [heq'] at hset
    exact hset.asymm hset
  · rw [heq] at hset'
    exact hset'.asymm hset'
  · exact List.lt_asymm hlt hlt'

theorem letters_of_sorted {w : List Nat} (h : w.Pairwise (· < ·)) : letters w = w :=
  (List.toFinset_sort (· ≤ ·) (h.imp Nat.ne_of_lt)).mpr (h.imp Nat.le_of_lt)

theorem sooner_iff_lt {w w' : List Nat} (hw : w.Pairwise (· < ·)) (hw' : w'.Pairwise (· < ·))
    (hlen : w.length = w'.length) : Sooner w w' ↔ w < w' := by
  rw [Sooner, letters_of_sorted hw, letters_of_sorted hw', Precedes]
  constructor
  · rintro ((hshort | ⟨_, hlt⟩) | ⟨_, hlt⟩)
    · omega
    · exact hlt
    · exact hlt
  · exact fun hlt => Or.inl (Or.inr ⟨hlen, hlt⟩)

section Order
variable {f : Frame} {w w' : List Nat}

theorem Frame.eq_letters (hq : 0 < f.q) {v : List Nat × List Nat} (hv : v ∈ f.pairs) :
    v.1 = letters v.2 := by
  obtain ⟨hc, hvisits, hletters⟩ := Frame.mem_pairs_iff.mp hv
  apply chosenLists_ext hc (letters_chosen hq hvisits.length_eq hvisits.lt)
  intro i
  rw [hletters, mem_letters]

theorem Frame.pairs_sorted (hq : 0 < f.q) : f.pairs.Pairwise fun v v' => Sooner v.2 v'.2 := by
  have hsorted : f.pairs.Pairwise fun v v' => Precedes v.1 v'.1 ∨ v.1 = v'.1 ∧ v.2 < v'.2 := by
    rw [Frame.pairs, Frame.openPairs, List.pairwise_flatMap]
    constructor
    · intro c _
      apply List.Pairwise.filter
      rw [List.pairwise_map]
      exact (searchWords_sorted _ _ _ _ _).imp fun h => Or.inr ⟨rfl, h⟩
    · apply (chosenLists_sorted f.n f.q).imp
      intro c c' hlt v hv v' hv'
      obtain ⟨w, _, rfl⟩ := List.mem_map.mp (List.mem_filter.mp hv).1
      obtain ⟨w', _, rfl⟩ := List.mem_map.mp (List.mem_filter.mp hv').1
      exact Or.inl hlt
  apply hsorted.imp_of_mem
  intro v v' hv hv' h
  rwa [Sooner, ← Frame.eq_letters hq hv, ← Frame.eq_letters hq hv']

/-- The next word is the next one in the enumeration. -/
theorem Frame.follows_iff (hq : 0 < f.q) : f.Follows w w' ↔
    ∃ pre post, f.pairs = pre ++ (letters w, w) :: (letters w', w') :: post := by
  rw [successive_iff (r := fun v v' => Sooner v.2 v'.2) (fun _ _ h => h.asymm)
    (Frame.pairs_sorted hq), Frame.mem_pairs_letters hq, Frame.mem_pairs_letters hq]
  constructor
  · rintro ⟨hw, hw', hlt, hnone⟩
    exact ⟨hw, hw', hlt, fun v hv => hnone v.2 (Frame.mem_pairs_iff.mp hv).2.1⟩
  · rintro ⟨hw, hw', hlt, hnone⟩
    exact ⟨hw, hw', hlt, fun v hv => hnone (letters v, v) ((Frame.mem_pairs_letters hq).mpr hv)⟩

/-- Of two sets that differ in one thread, the one with the smaller thread comes first. -/
theorem lt_of_precedes {n q : Nat} {c c' : List Nat} {x x' : Nat} (hc : c ∈ chosenLists n q)
    (hc' : c' ∈ chosenLists n q) (hlt : Precedes c c') (hx : x ∉ c') (hx' : x' ∉ c)
    (hmem : ∀ i, i ∈ c' ↔ i = x' ∨ i ∈ c ∧ i ≠ x) (hin : x ∈ c) : x < x' := by
  by_contra hle
  have hne : x' ≠ x := by
    rintro rfl
    exact hx' hin
  have hsmall : x' < x := by omega
  have hswap := swapIn_chosen hc hin hx' hsmall ((mem_chosenLists.mp hc').2.2.2 x' (by simp [hmem]))
  have heq : swapIn c x x' = c' := by
    apply chosenLists_ext hswap hc'
    intro i
    rw [← List.mem_toFinset, swapIn_toFinset hc hin hx' hsmall, hmem]
    simp [and_comm]
  exact hlt.asymm (heq ▸ swapIn_precedes hin hx' hsmall)

end Order

end Period.Scheduler
