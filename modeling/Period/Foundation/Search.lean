import Mathlib.Data.List.Basic
import Mathlib.Data.List.Sort

/-!
# Searches over lists

`List.findSome?` is how a loop with an early `return` is read.
-/

namespace Period.Search

set_option autoImplicit false

universe u v
variable {α : Type u} {β : Type v}

theorem findSome?_congr_on {l : List α} {f g : α → Option β} (h : ∀ a ∈ l, f a = g a) :
    l.findSome? f = l.findSome? g := by
  induction l with
  | nil => rfl
  | cons a l ih =>
    rw [List.findSome?_cons, List.findSome?_cons, h a List.mem_cons_self,
      ih fun b hb => h b (List.mem_cons_of_mem a hb)]

theorem findSome?_filter_of_none {l : List α} {q : α → Bool} {f : α → Option β}
    (h : ∀ a ∈ l, q a = false → f a = none) : l.findSome? f = (l.filter q).findSome? f := by
  induction l with
  | nil => rfl
  | cons a l ih =>
    have ih := ih fun b hb => h b (List.mem_cons_of_mem a hb)
    cases hq : q a
    · rw [List.findSome?_cons, h a List.mem_cons_self hq, ih,
        List.filter_cons_of_neg (by simp [hq])]
    · rw [List.findSome?_cons, ih, List.filter_cons_of_pos hq, List.findSome?_cons]

theorem findSome?_eq_head {l : List α} {f : α → β} :
    (l.findSome? fun a => some (f a)) = l.head?.map f := by
  cases l <;> rfl

/-- What a counting loop still has to visit after `x`. -/
theorem range'_after {lo m x : Nat} {pre post : List Nat} (h : List.range' lo m = pre ++ x :: post) :
    lo ≤ x ∧ x < lo + m ∧ post = List.range' (x + 1) (lo + m - (x + 1)) := by
  obtain ⟨k, hk, _, htail⟩ := List.range'_eq_append_iff.mp h
  obtain ⟨hx, hpos, hpost⟩ := List.range'_eq_cons_iff.mp htail.symm
  refine ⟨by omega, by omega, ?_⟩
  rw [hpost]
  congr 1
  omega

theorem find?_range'_reverse_eq_some {q : Nat → Bool} {lo m j : Nat} :
    (List.range' lo m).reverse.find? q = some j ↔
      lo ≤ j ∧ j < lo + m ∧ q j = true ∧ ∀ i, j < i → i < lo + m → q i = false := by
  induction m with
  | zero =>
    simp only [List.range'_zero, List.reverse_nil, List.find?_nil, reduceCtorEq, false_iff]
    omega
  | succ m ih =>
    rw [List.range'_concat, List.reverse_append, List.reverse_singleton, List.singleton_append,
      Nat.one_mul]
    cases hq : q (lo + m)
    · rw [List.find?_cons_of_neg (by simp [hq]), ih]
      constructor
      · rintro ⟨hlo, hj, hqj, hlast⟩
        refine ⟨hlo, by omega, hqj, fun i hi him => ?_⟩
        by_cases he : i = lo + m
        · rwa [he]
        · exact hlast i hi (by omega)
      · rintro ⟨hlo, hj, hqj, hlast⟩
        have hne : j ≠ lo + m := fun he => by rw [he, hq] at hqj; exact Bool.noConfusion hqj
        exact ⟨hlo, by omega, hqj, fun i hi him => hlast i hi (by omega)⟩
    · rw [List.find?_cons_of_pos hq, Option.some.injEq]
      constructor
      · rintro rfl
        exact ⟨by omega, by omega, hq, fun i hi him => by omega⟩
      · rintro ⟨hlo, hj, _, hlast⟩
        by_contra hne
        have := hlast (lo + m) (by omega) (by omega)
        rw [hq] at this
        exact Bool.noConfusion this

theorem find?_range_reverse_eq_some {q : Nat → Bool} {m j : Nat} :
    (List.range m).reverse.find? q = some j ↔
      j < m ∧ q j = true ∧ ∀ i, j < i → i < m → q i = false := by
  rw [List.range_eq_range', find?_range'_reverse_eq_some]
  simp

theorem getD_mem_tail {l : List Nat} {r : Nat} (h : 0 < l.getD (r + 1) 0) :
    l.getD (r + 1) 0 ∈ l.tail := by
  rw [List.getD_eq_getElem?_getD] at h ⊢
  cases hx : l[r + 1]? with
  | none => simp [hx] at h
  | some x => exact List.mem_of_getElem? (List.getElem?_tail.trans hx)

theorem getElem?_filter_countP {q : α → Bool} {l : List α} {j : Nat} {a : α} (h : l[j]? = some a)
    (ha : q a = true) : (l.filter q)[(l.take j).countP q]? = some a := by
  induction l generalizing j with
  | nil => simp at h
  | cons b l ih =>
    cases j with
    | zero =>
      obtain rfl : b = a := by simpa using h
      simp [ha]
    | succ j =>
      have ih := ih (j := j) (by simpa using h)
      cases hb : q b
      · rw [List.take_succ_cons, List.countP_cons_of_neg (by simp [hb]),
          List.filter_cons_of_neg (by simp [hb])]
        exact ih
      · rw [List.take_succ_cons, List.countP_cons_of_pos hb, List.filter_cons_of_pos hb,
          List.getElem?_cons_succ]
        exact ih

/-- The occurrences of a value are numbered by how many come before them. -/
theorem exists_occurrence {l : List Nat} {a r : Nat} (h : r < l.count a) :
    ∃ j, l[j]? = some a ∧ (l.take j).count a = r := by
  induction l generalizing r with
  | nil => simp at h
  | cons b l ih =>
    by_cases hb : b = a
    · subst hb
      cases r with
      | zero => exact ⟨0, rfl, by simp⟩
      | succ r =>
        rw [List.count_cons_self] at h
        obtain ⟨j, hj, hr⟩ := ih (r := r) (by omega)
        exact ⟨j + 1, by simpa using hj, by simp [hr]⟩
    · rw [List.count_cons_of_ne hb] at h
      obtain ⟨j, hj, hr⟩ := ih h
      exact ⟨j + 1, by simpa using hj, by simp [List.count_cons_of_ne hb, hr]⟩

theorem count_take_succ {l : List Nat} {j x : Nat} (h : l[j]? = some x) (a : Nat) :
    (l.take (j + 1)).count a = (l.take j).count a + if x = a then 1 else 0 := by
  rw [List.take_add_one, h, Option.toList_some, List.count_append, List.count_singleton]
  simp only [beq_iff_eq]

theorem count_take_mono {l : List Nat} {i j : Nat} (h : i ≤ j) (a : Nat) :
    (l.take i).count a ≤ (l.take j).count a :=
  (List.take_sublist_take_left h).count_le a

theorem count_take_lt {l : List Nat} {i j a : Nat} (hi : l[i]? = some a) (h : i < j) :
    (l.take i).count a < (l.take j).count a := by
  have h1 := count_take_succ hi a
  have h2 := count_take_mono (l := l) (Nat.succ_le_of_lt h) a
  rw [if_pos rfl] at h1
  rw [Nat.succ_eq_add_one] at h2
  omega

theorem count_take_lt_count {l : List Nat} {i a : Nat} (hi : l[i]? = some a) :
    (l.take i).count a < l.count a := by
  have hlt := (List.getElem?_eq_some_iff.mp hi).1
  have h := count_take_lt hi hlt
  rwa [List.take_length] at h

theorem occurrence_unique {l : List Nat} {i j a : Nat} (hi : l[i]? = some a) (hj : l[j]? = some a)
    (h : (l.take i).count a = (l.take j).count a) : i = j := by
  rcases Nat.lt_trichotomy i j with hij | hij | hij
  · have := count_take_lt hi hij
    omega
  · exact hij
  · have := count_take_lt hj hij
    omega

end Period.Search
