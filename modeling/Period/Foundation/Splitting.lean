import Mathlib.Data.List.Basic

/-!
# Splitting lists at an element

Where an element of a concatenation stands in the parts.
-/

namespace Period.Splitting

set_option autoImplicit false

universe u v
variable {α : Type u} {β : Type v}

theorem split_right {l r a b : List α} {c : α} (h : l ++ r = a ++ c :: b) (hc : c ∉ l) :
    ∃ a', a = l ++ a' ∧ r = a' ++ c :: b := by
  rcases List.append_eq_append_iff.mp h with ⟨a', ha, hr⟩ | ⟨c', hl, hr⟩
  · exact ⟨a', ha, hr⟩
  · cases c' with
    | nil => exact ⟨[], by rw [hl, List.append_nil, List.append_nil], hr.symm⟩
    | cons x c' =>
      obtain ⟨rfl, _⟩ := List.cons.inj hr
      exact absurd (by rw [hl]; simp) hc

theorem split_left {l r a b : List α} {c : α} (h : l ++ r = a ++ c :: b) (hc : c ∉ r) :
    ∃ b', b = b' ++ r ∧ l = a ++ c :: b' := by
  rcases List.append_eq_append_iff.mp h with ⟨a', ha, hr⟩ | ⟨c', hl, hr⟩
  · exact absurd (by rw [hr]; simp) hc
  · cases c' with
    | nil =>
      refine absurd ?_ hc
      rw [← List.nil_append r, ← hr]
      exact List.mem_cons_self
    | cons x c' =>
      obtain ⟨rfl, hb⟩ := List.cons.inj hr
      exact ⟨c', hb, hl⟩

theorem split_flatMap {f : α → List β} {l : List α} {a b : List β} {c : β}
    (h : l.flatMap f = a ++ c :: b) : ∃ l₁ x l₂ u v, l = l₁ ++ x :: l₂ ∧ f x = u ++ c :: v ∧
      a = l₁.flatMap f ++ u ∧ b = v ++ l₂.flatMap f := by
  induction l generalizing a with
  | nil => cases a <;> cases h
  | cons x l ih =>
    rw [List.flatMap_cons] at h
    rcases List.append_eq_append_iff.mp h with ⟨a', ha, hl⟩ | ⟨c', hx, hc⟩
    · obtain ⟨l₁, y, l₂, u, v, rfl, hy, rfl, hb⟩ := ih hl
      exact ⟨x :: l₁, y, l₂, u, v, rfl, hy, by rw [ha, List.flatMap_cons, List.append_assoc], hb⟩
    · cases c' with
      | nil =>
        obtain ⟨l₁, y, l₂, u, v, rfl, hy, hnil, hb⟩ := ih (a := []) hc.symm
        refine ⟨x :: l₁, y, l₂, u, v, rfl, hy, ?_, hb⟩
        rw [List.flatMap_cons, List.append_assoc, ← hnil, hx, List.append_nil, List.append_nil]
      | cons y c' =>
        obtain ⟨rfl, hb⟩ := List.cons.inj hc
        exact ⟨[], x, l, a, c', rfl, hx, rfl, hb⟩

end Period.Splitting
