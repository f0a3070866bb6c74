import Mathlib.Data.Finset.Card
import Mathlib.Data.List.Destutter
import Mathlib.Data.List.Sort

/-!
# Blocks of equal letters

A word falls into blocks of equal letters. When a beginning and what is left to write are given, the
fewest blocks are had by writing the last letter of the beginning first and then letter by letter.
-/

namespace Period.Blocks

set_option autoImplicit false

universe u
variable {α : Type u} [DecidableEq α]

/-- How many blocks of equal letters a word has. -/
def blocks (l : List α) : Nat := (l.destutter (· ≠ ·)).length

theorem blocks_cons_self (a : α) (l : List α) : blocks (a :: a :: l) = blocks (a :: l) := by
  rw [blocks, List.destutter_cons', List.destutter'_cons_neg _ (not_not.mpr rfl)]
  rfl

theorem blocks_cons_ne {a b : α} (hab : a ≠ b) (l : List α) : blocks (a :: b :: l) = blocks (b :: l) + 1 := by
  rw [blocks, List.destutter_cons', List.destutter'_cons_pos _ hab]
  rfl

theorem blocks_singleton (a : α) : blocks [a] = 1 := rfl

theorem blocks_cons_pos (a : α) (l : List α) : 0 < blocks (a :: l) :=
  List.length_pos_of_ne_nil (List.destutter'_ne_nil l (· ≠ ·))

/-- The letter in the middle is counted on both sides. -/
theorem blocks_append (front : List α) (x : α) (rest : List α) :
    blocks (front ++ x :: rest) + 1 = blocks (front ++ [x]) + blocks (x :: rest) := by
  induction front with
  | nil =>
    rw [List.nil_append, List.nil_append, blocks_singleton]
    exact Nat.add_comm _ _
  | cons a front ih =>
    cases front with
    | nil =>
      by_cases hax : a = x
      · subst hax
        rw [List.singleton_append, List.singleton_append, blocks_cons_self, blocks_cons_self,
          blocks_singleton]
        exact Nat.add_comm _ _
      · rw [List.singleton_append, List.singleton_append, blocks_cons_ne hax, blocks_cons_ne hax,
          blocks_singleton]
        omega
    | cons b front =>
      simp only [List.cons_append] at ih ⊢
      by_cases hab : a = b
      · subst hab
        rw [blocks_cons_self, blocks_cons_self]
        exact ih
      · rw [blocks_cons_ne hab, blocks_cons_ne hab]
        omega

theorem card_lt_blocks (x : α) (rest : List α) : (rest.toFinset.erase x).card < blocks (x :: rest) := by
  induction rest generalizing x with
  | nil => exact blocks_cons_pos x []
  | cons y rest ih =>
    rw [List.toFinset_cons]
    by_cases hxy : x = y
    · subst hxy
      rw [blocks_cons_self, Finset.erase_insert_eq_erase]
      exact ih x
    · rw [blocks_cons_ne hxy]
      have hsub : (insert y rest.toFinset).erase x ⊆ insert y (rest.toFinset.erase y) := by
        intro z hz
        obtain ⟨_, hz⟩ := Finset.mem_erase.mp hz
        rcases Finset.mem_insert.mp hz with rfl | hz
        · exact Finset.mem_insert_self _ _
        · by_cases hzy : z = y
          · subst hzy
            exact Finset.mem_insert_self _ _
          · exact Finset.mem_insert_of_mem (Finset.mem_erase.mpr ⟨hzy, hz⟩)
      have hcard := (Finset.card_le_card hsub).trans (Finset.card_insert_le y _)
      have hrest := ih y
      omega

/-- What stands in order has one block for each letter. -/
theorem blocks_of_sorted {α : Type u} [LinearOrder α] {l : List α} (hl : l.Pairwise (· ≤ ·)) :
    blocks l = l.toFinset.card := by
  induction l with
  | nil => rfl
  | cons x l ih =>
    obtain ⟨hle, hl⟩ := List.pairwise_cons.mp hl
    have hrest := ih hl
    cases l with
    | nil => rfl
    | cons y l =>
      rw [List.toFinset_cons]
      by_cases hxy : x = y
      · subst hxy
        rw [blocks_cons_self, hrest, List.toFinset_cons, Finset.insert_idem]
      · have hx : x ∉ y :: l := by
          intro hx
          rcases List.mem_cons.mp hx with rfl | hx
          · exact hxy rfl
          · have hyx : y ≤ x := (List.pairwise_cons.mp hl).1 x hx
            exact hxy (le_antisymm (hle y List.mem_cons_self) hyx)
        rw [blocks_cons_ne hxy, hrest, Finset.card_insert_of_notMem fun h => hx (List.mem_toFinset.mp h)]

theorem blocks_cons_of_notMem {x : α} {l : List α} (hx : x ∉ l) : blocks (x :: l) = blocks l + 1 := by
  cases l with
  | nil => rfl
  | cons y l =>
    have hxy : x ≠ y := by
      intro hxy
      exact hx (hxy ▸ List.mem_cons_self)
    exact blocks_cons_ne hxy l

theorem blocks_replicate_append (x : α) (k : Nat) (l : List α) :
    blocks (x :: (List.replicate k x ++ l)) = blocks (x :: l) := by
  induction k with
  | zero => rfl
  | succ k ih => rw [List.replicate_succ, List.cons_append, blocks_cons_self, ih]

/-- The fewest blocks of a word that begins with `pre` and goes on with the letters of `rest`. -/
def leastBlocks (pre rest : List α) : Nat :=
  blocks pre + (rest.toFinset.filter fun z => pre.getLast? ≠ some z).card

theorem leastBlocks_nil (rest : List α) : leastBlocks [] rest = rest.toFinset.card := by
  rw [leastBlocks, List.getLast?_nil, Finset.filter_true_of_mem fun _ _ => nofun]
  exact Nat.zero_add _

theorem leastBlocks_append (front : List α) (x : α) (rest : List α) :
    leastBlocks (front ++ [x]) rest = blocks (front ++ [x]) + (rest.toFinset.erase x).card := by
  have hothers : rest.toFinset.filter (fun z => (front ++ [x]).getLast? ≠ some z) = rest.toFinset.erase x := by
    ext z
    simp [and_comm, eq_comm]
  rw [leastBlocks, hothers]

theorem leastBlocks_le {pre rest rest' : List α} (hrest : rest'.Perm rest) :
    leastBlocks pre rest ≤ blocks (pre ++ rest') := by
  rcases List.eq_nil_or_concat pre with rfl | ⟨front, x, rfl⟩
  · rw [leastBlocks_nil, ← List.toFinset_eq_of_perm _ _ hrest, List.nil_append]
    cases rest' with
    | nil => exact Nat.le_refl 0
    | cons y rest' =>
      have hcard := card_lt_blocks y rest'
      have hall := @Finset.pred_card_le_card_erase α (insert y rest'.toFinset) y _
      rw [Finset.erase_insert_eq_erase] at hall
      rw [List.toFinset_cons]
      omega
  · rw [List.concat_eq_append, leastBlocks_append, List.append_assoc, List.singleton_append]
    have hsplit := blocks_append front x rest'
    have hcard := card_lt_blocks x rest'
    rw [List.toFinset_eq_of_perm _ _ hrest] at hcard
    omega

theorem exists_blocks_eq_leastBlocks {α : Type u} [LinearOrder α] (pre rest : List α) :
    ∃ rest', rest'.Perm rest ∧ blocks (pre ++ rest') = leastBlocks pre rest := by
  rcases List.eq_nil_or_concat pre with rfl | ⟨front, x, rfl⟩
  · refine ⟨rest.mergeSort (· ≤ ·), List.mergeSort_perm _ _, ?_⟩
    rw [leastBlocks_nil, List.nil_append, blocks_of_sorted (List.pairwise_mergeSort' (· ≤ ·) rest),
      List.toFinset_eq_of_perm _ _ (List.mergeSort_perm rest _)]
  · -- first the letter that stands last, then the others in order
    have hsame : rest.filter (· = x) = List.replicate (rest.count x) x := List.filter_eq x
    rw [List.concat_eq_append, leastBlocks_append]
    simp only [List.append_assoc, List.singleton_append]
    refine ⟨rest.filter (· = x) ++ (rest.filter (¬ · = x)).mergeSort (· ≤ ·), ?_, ?_⟩
    · have hothers := List.mergeSort_perm (rest.filter (¬ · = x)) (· ≤ ·)
      have hparts := List.filter_append_perm (fun y => decide (y = x)) rest
      simp only [← decide_not] at hparts
      exact (hothers.append_left _).trans hparts
    · have hx : x ∉ (rest.filter (¬ · = x)).mergeSort (· ≤ ·) := by simp
      have hletters : ((rest.filter (¬ · = x)).mergeSort (· ≤ ·)).toFinset = rest.toFinset.erase x := by
        ext y
        simp [and_comm]
      have hsplit := blocks_append front x
        (rest.filter (· = x) ++ (rest.filter (¬ · = x)).mergeSort (· ≤ ·))
      have hsorted := List.pairwise_mergeSort' (· ≤ ·) (rest.filter (¬ · = x))
      rw [hsame, blocks_replicate_append, blocks_cons_of_notMem hx, blocks_of_sorted hsorted,
        hletters] at hsplit
      rw [hsame]
      omega

end Period.Blocks
