import Mathlib.Data.Finset.Card
import Mathlib.Data.Finset.Image
import Mathlib.Data.List.GetD

/-!
# Writing values at places

The elements of a list are written one after the other into an array, each value at the
place of its element. Every element has a home in the array; the array ends up with every
value at home exactly when the places are a rearrangement of the homes that keeps the values.
-/

namespace Period.Scatter

set_option autoImplicit false

universe u
variable {α : Type u}

/-- The array after the writing. A place behind the array is left alone. -/
def scatter (place value : α → Nat) (l : List α) (a : List Nat) : List Nat :=
  l.foldl (fun a x => a.set (place x) (value x)) a

/-- Every value is at home, and nothing else is in the array. -/
def AtHome (home value : α → Nat) (l : List α) (a : List Nat) : Prop :=
  (∀ x ∈ l, a.getD (home x) 0 = value x) ∧ ∀ j, (∀ x ∈ l, home x ≠ j) → a.getD j 0 = 0

section Scatter
variable {place home value : α → Nat} {l : List α} {a : List Nat} {n : Nat}

theorem scatter_concat (l : List α) (x : α) (a : List Nat) :
    scatter place value (l ++ [x]) a = (scatter place value l a).set (place x) (value x) := by
  rw [scatter, scatter, List.foldl_append]
  rfl

theorem scatter_length (l : List α) (a : List Nat) : (scatter place value l a).length = a.length := by
  induction l using List.reverseRecOn with
  | nil => rfl
  | append_singleton l x ih => rw [scatter_concat, List.length_set, ih]

theorem getD_set {a : List Nat} {i j v : Nat} :
    (a.set i v).getD j 0 = if i = j ∧ j < a.length then v else a.getD j 0 := by
  rw [List.getD_eq_getElem?_getD, List.getElem?_set]
  by_cases hij : i = j
  · subst hij
    by_cases hlt : i < a.length
    · rw [if_pos rfl, if_pos hlt, if_pos ⟨rfl, hlt⟩]
      rfl
    · rw [if_pos rfl, if_neg hlt, if_neg (fun h => hlt h.2), List.getD_eq_default _ _ (Nat.le_of_not_lt hlt)]
      rfl
  · rw [if_neg hij, if_neg (fun h => hij h.1), List.getD_eq_getElem?_getD]

theorem scatter_of_forall_ne {j : Nat} (h : ∀ x ∈ l, place x ≠ j) :
    (scatter place value l a).getD j 0 = a.getD j 0 := by
  induction l using List.reverseRecOn with
  | nil => rfl
  | append_singleton l x ih =>
    rw [scatter_concat, getD_set, if_neg (fun hx => h x (by simp) hx.1)]
    exact ih fun y hy => h y (List.mem_append_left _ hy)

/-- A place that only one element has keeps the value of the element. -/
theorem scatter_of_unique {x : α} (hx : x ∈ l) (hlt : place x < a.length)
    (h : ∀ y ∈ l, place y = place x → y = x) :
    (scatter place value l a).getD (place x) 0 = value x := by
  induction l using List.reverseRecOn with
  | nil => cases hx
  | append_singleton l y ih =>
    rw [scatter_concat, getD_set, scatter_length]
    by_cases hy : place y = place x
    · rw [if_pos ⟨hy, hlt⟩, h y (by simp) hy]
    · rw [if_neg (fun hand => hy hand.1)]
      rcases List.mem_append.mp hx with hx | hx
      · exact ih hx fun z hz => h z (List.mem_append_left _ hz)
      · exact absurd (congrArg place (List.mem_singleton.mp hx).symm) hy

theorem scatter_congr {value' : α → Nat} (h : ∀ x ∈ l, value x = value' x) :
    scatter place value l a = scatter place value' l a := by
  apply List.foldl_ext
  intro a x hx
  rw [h x hx]

theorem scatter_lt {m j : Nat} (h : ∀ x ∈ l, value x < m) (ha : ∀ j, a.getD j 0 < m) :
    (scatter place value l a).getD j 0 < m := by
  induction l using List.reverseRecOn with
  | nil => exact ha j
  | append_singleton l x ih =>
    rw [scatter_concat, getD_set]
    split
    · exact h x (by simp)
    · exact ih fun y hy => h y (List.mem_append_left _ hy)

theorem getD_replicate_zero (n j : Nat) : (List.replicate n 0).getD j 0 = 0 := by
  rw [List.getD_eq_getElem?_getD]
  exact List.getElem?_getD_replicate_default_eq 0 n j

theorem scatter_pos_iff (hpos : ∀ x ∈ l, 0 < value x) {j : Nat} :
    0 < (scatter place value l (List.replicate n 0)).getD j 0 ↔ j < n ∧ ∃ x ∈ l, place x = j := by
  induction l using List.reverseRecOn with
  | nil =>
    rw [scatter, List.foldl_nil, getD_replicate_zero]
    simp
  | append_singleton l x ih =>
    have hrest := ih fun y hy => hpos y (List.mem_append_left _ hy)
    rw [scatter_concat, getD_set, scatter_length, List.length_replicate]
    split
    · next hx => exact iff_of_true (hpos x (by simp)) ⟨hx.2, x, by simp, hx.1⟩
    · next hx =>
      rw [hrest]
      refine and_congr_right fun hj => ⟨?_, ?_⟩
      · rintro ⟨y, hy, hplace⟩
        exact ⟨y, List.mem_append_left _ hy, hplace⟩
      · rintro ⟨y, hy, hplace⟩
        rcases List.mem_append.mp hy with hy | hy
        · exact ⟨y, hy, hplace⟩
        · rw [List.mem_singleton.mp hy] at hplace
          exact absurd ⟨hplace, hj⟩ hx

variable [DecidableEq α]

theorem card_image_eq {f : α → Nat} (hf : ∀ x ∈ l, ∀ y ∈ l, f x = f y → x = y) :
    (l.toFinset.image f).card = l.toFinset.card := by
  apply Finset.card_image_of_injOn
  intro x hx y hy
  exact hf x (List.mem_toFinset.mp hx) y (List.mem_toFinset.mp hy)

variable (hhome : ∀ x ∈ l, ∀ y ∈ l, home x = home y → x = y)
  (hlt : ∀ x ∈ l, home x < n) (hpos : ∀ x ∈ l, value x ≠ 0)

include hhome hpos in
/-- If all values are at home, the places are the homes in another order. -/
theorem places_of_atHome (h : AtHome home value l (scatter place value l (List.replicate n 0))) :
    (∀ x ∈ l, ∀ y ∈ l, place x = place y → x = y) ∧ ∀ x ∈ l, ∃ y ∈ l, home y = place x := by
  have hsub : l.toFinset.image home ⊆ l.toFinset.image place := by
    intro j hj
    obtain ⟨x, hx, rfl⟩ := Finset.mem_image.mp hj
    rw [List.mem_toFinset] at hx
    by_contra hno
    have hempty : ∀ y ∈ l, place y ≠ home x := by
      intro y hy heq
      exact hno (Finset.mem_image.mpr ⟨y, List.mem_toFinset.mpr hy, heq⟩)
    have hzero := h.1 x hx
    rw [scatter_of_forall_ne hempty, getD_replicate_zero] at hzero
    exact hpos x hx hzero.symm
  have hcard := card_image_eq hhome
  have hle : (l.toFinset.image place).card ≤ l.toFinset.card := Finset.card_image_le
  have heq := Finset.eq_of_subset_of_card_le hsub (hle.trans hcard.ge)
  have hinj := Finset.card_image_iff.mp ((heq ▸ hcard : (l.toFinset.image place).card = l.toFinset.card))
  refine ⟨fun x hx y hy => hinj (List.mem_toFinset.mpr hx) (List.mem_toFinset.mpr hy), fun x hx => ?_⟩
  have hmem : place x ∈ l.toFinset.image home :=
    heq ▸ Finset.mem_image_of_mem place (List.mem_toFinset.mpr hx)
  obtain ⟨y, hy, hplace⟩ := Finset.mem_image.mp hmem
  exact ⟨y, List.mem_toFinset.mp hy, hplace⟩

include hhome in
/-- If the places are the homes in another order, every home is a place. -/
theorem exists_place (hinj : ∀ x ∈ l, ∀ y ∈ l, place x = place y → x = y)
    (hplace : ∀ x ∈ l, ∃ y ∈ l, home y = place x) {x : α} (hx : x ∈ l) :
    ∃ y ∈ l, place y = home x := by
  have hsub : l.toFinset.image place ⊆ l.toFinset.image home := by
    intro j hj
    obtain ⟨y, hy, rfl⟩ := Finset.mem_image.mp hj
    obtain ⟨z, hz, heq⟩ := hplace y (List.mem_toFinset.mp hy)
    exact Finset.mem_image.mpr ⟨z, List.mem_toFinset.mpr hz, heq⟩
  have heq := Finset.eq_of_subset_of_card_le hsub
    (by rw [card_image_eq hhome, card_image_eq hinj])
  have hmem : home x ∈ l.toFinset.image place :=
    heq ▸ Finset.mem_image_of_mem home (List.mem_toFinset.mpr hx)
  obtain ⟨y, hy, hxy⟩ := Finset.mem_image.mp hmem
  exact ⟨y, List.mem_toFinset.mp hy, hxy⟩

include hhome hlt hpos in
theorem atHome_iff : AtHome home value l (scatter place value l (List.replicate n 0)) ↔
    (∀ x ∈ l, ∀ y ∈ l, place x = place y → x = y) ∧
      ∀ x ∈ l, ∃ y ∈ l, home y = place x ∧ value y = value x := by
  constructor
  · intro h
    obtain ⟨hinj, hplace⟩ := places_of_atHome hhome hpos h
    refine ⟨hinj, fun x hx => ?_⟩
    obtain ⟨y, hy, heq⟩ := hplace x hx
    refine ⟨y, hy, heq, ?_⟩
    have hkept : (scatter place value l (List.replicate n 0)).getD (place x) 0 = value x := by
      apply scatter_of_unique hx
      · rw [List.length_replicate, ← heq]
        exact hlt y hy
      · exact fun z hz => hinj z hz x hx
    rw [← h.1 y hy, heq, hkept]
  · rintro ⟨hinj, hplace⟩
    have hplace' : ∀ x ∈ l, ∃ y ∈ l, home y = place x := by
      intro x hx
      obtain ⟨y, hy, heq, _⟩ := hplace x hx
      exact ⟨y, hy, heq⟩
    refine ⟨fun x hx => ?_, fun j hj => ?_⟩
    · obtain ⟨y, hy, heq⟩ := exists_place hhome hinj hplace' hx
      obtain ⟨z, hz, hhomez, hvalue⟩ := hplace y hy
      obtain rfl := hhome z hz x hx (hhomez.trans heq)
      rw [← heq, hvalue]
      apply scatter_of_unique hy
      · rw [List.length_replicate, heq]
        exact hlt z hz
      · exact fun w hw => hinj w hw y hy
    · rw [scatter_of_forall_ne, getD_replicate_zero]
      rintro x hx rfl
      obtain ⟨y, hy, heq⟩ := hplace' x hx
      exact hj y hy heq

end Scatter

end Period.Scatter
