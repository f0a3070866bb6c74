import Mathlib.Algebra.BigOperators.Group.Finset.Basic
import Mathlib.Algebra.BigOperators.Ring.Finset
import Mathlib.Data.Nat.Factorial.Basic
import Mathlib.Tactic.Ring
import Period.Foundation.Rearrangement

/-!
# How many rearrangements there are

The rearrangements of a list that begin with `a` are those of the list without one `a`. Summed
over the letters this gives the recursion of the factorial.
-/

namespace Period.Rearrangement

set_option autoImplicit false

universe u
variable {α : Type u} [LinearOrder α]

theorem sum_count_eq_length {l : List α} {s : Finset α} (hs : ∀ a ∈ l, a ∈ s) :
    ∑ a ∈ s, l.count a = l.length := by
  rw [← List.sum_toFinset_count_eq_length l]
  symm
  apply Finset.sum_subset
  · exact fun a ha => hs a (List.mem_toFinset.mp ha)
  · intro a _ ha
    exact List.count_eq_zero.mpr fun hmem => ha (List.mem_toFinset.mpr hmem)

theorem permutations_toFinset_eq_biUnion {l : List α} (hl : l ≠ []) :
    l.permutations.toFinset =
      l.toFinset.biUnion fun a => (l.erase a).permutations.toFinset.image (a :: ·) := by
  ext p
  simp only [Finset.mem_biUnion, Finset.mem_image, List.mem_toFinset, List.mem_permutations]
  constructor
  · intro hp
    cases p with
    | nil => exact absurd (List.nil_perm.mp hp) hl
    | cons a p =>
      refine ⟨a, hp.mem_iff.mp List.mem_cons_self, p, ?_, rfl⟩
      have herase := hp.erase a
      rwa [List.erase_cons_head] at herase
  · rintro ⟨a, ha, q, hq, rfl⟩
    exact (hq.cons a).trans (List.perm_cons_erase ha).symm

/-- The number of rearrangements times the factorials of the counts is the factorial of the length. -/
theorem card_permutations_mul_prod {l : List α} {s : Finset α} (hs : ∀ a ∈ l, a ∈ s) :
    l.permutations.toFinset.card * ∏ a ∈ s, (l.count a).factorial = l.length.factorial := by
  generalize hk : l.length = k
  induction k generalizing l with
  | zero =>
    obtain rfl := List.length_eq_zero_iff.mp hk
    simp
  | succ k ih =>
    have hl : l ≠ [] := by
      rintro rfl
      cases hk
    have hdisjoint : (l.toFinset : Set α).PairwiseDisjoint
        fun a => (l.erase a).permutations.toFinset.image (a :: ·) := by
      intro a _ b _ hab
      rw [Function.onFun, Finset.disjoint_left]
      intro p hpa hpb
      obtain ⟨q, _, rfl⟩ := Finset.mem_image.mp hpa
      obtain ⟨q', _, heq⟩ := Finset.mem_image.mp hpb
      exact hab (List.head_eq_of_cons_eq heq).symm
    -- taking `a` away takes one factor off its factorial
    have herase : ∀ a ∈ l.toFinset, (l.erase a).permutations.toFinset.card *
        ∏ b ∈ s, (l.count b).factorial = l.count a * k.factorial := by
      intro a ha
      have ha : a ∈ l := List.mem_toFinset.mp ha
      have hcount : l.count a = (l.erase a).count a + 1 := by
        have hpos := List.count_pos_iff.mpr ha
        rw [List.count_erase_self]
        omega
      have hother : ∀ b ∈ s.erase a, (l.count b).factorial = ((l.erase a).count b).factorial := by
        intro b hb
        rw [List.count_erase_of_ne (Finset.ne_of_mem_erase hb)]
      have hlen : (l.erase a).length = k := by
        rw [List.length_erase_of_mem ha, hk]
        rfl
      have hih := ih (fun b hb => hs b (List.mem_of_mem_erase hb)) hlen
      rw [← Finset.mul_prod_erase s _ (hs a ha)] at hih ⊢
      rw [Finset.prod_congr rfl hother, hcount, Nat.factorial_succ, ← hih]
      ring
    have hsum : ∑ a ∈ l.toFinset, l.count a = k + 1 := by
      rw [List.sum_toFinset_count_eq_length, hk]
    calc l.permutations.toFinset.card * ∏ a ∈ s, (l.count a).factorial
        = ∑ a ∈ l.toFinset, (l.erase a).permutations.toFinset.card *
            ∏ b ∈ s, (l.count b).factorial := by
          rw [permutations_toFinset_eq_biUnion hl, Finset.card_biUnion hdisjoint, Finset.sum_mul]
          apply Finset.sum_congr rfl
          intro a _
          rw [Finset.card_image_of_injective _ List.cons_injective]
      _ = ∑ a ∈ l.toFinset, l.count a * k.factorial := Finset.sum_congr rfl herase
      _ = (k + 1).factorial := by rw [← Finset.sum_mul, hsum, Nat.factorial_succ]

theorem length_rearrangements_mul_prod {l : List α} {s : Finset α} (hs : ∀ a ∈ l, a ∈ s) :
    (rearrangements l).length * ∏ a ∈ s, (l.count a).factorial = l.length.factorial := by
  rw [rearrangements, Finset.length_sort]
  exact card_permutations_mul_prod hs

end Period.Rearrangement
