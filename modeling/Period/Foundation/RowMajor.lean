import Mathlib.Algebra.GroupWithZero.Nat
import Mathlib.Data.List.Basic
import Mathlib.Data.List.GetD

/-!
# Row-major arrays

Rows of one length `m` put one after the other: entry `k` of row `t` is entry `t*m + k`
of the flat array.
-/

namespace Period.RowMajor

set_option autoImplicit false

universe u
variable {α : Type u}

def Uniform (m : Nat) (rows : List (List α)) : Prop := ∀ row ∈ rows, row.length = m

theorem flatten_length {m : Nat} {rows : List (List α)} (h : Uniform m rows) :
    rows.flatten.length = rows.length * m := by
  induction rows with
  | nil => simp
  | cons row rows ih =>
    rw [List.flatten_cons, List.length_append, ih fun r hr => h r (List.mem_cons_of_mem row hr),
      h row List.mem_cons_self, List.length_cons, Nat.succ_mul, Nat.add_comm]

theorem flatten_getElem? {m : Nat} {rows : List (List α)} (h : Uniform m rows) (t : Nat) {k : Nat}
    (hk : k < m) : rows.flatten[t * m + k]? = rows[t]?.bind (·[k]?) := by
  induction rows generalizing t with
  | nil => rfl
  | cons row rows ih =>
    have hrow := h row List.mem_cons_self
    rw [List.flatten_cons]
    cases t with
    | zero =>
      rw [Nat.zero_mul, Nat.zero_add, List.getElem?_append_left (by omega)]
      rfl
    | succ t =>
      have hindex : (t + 1) * m + k = row.length + (t * m + k) := by
        rw [hrow, Nat.succ_mul]
        omega
      rw [hindex, List.getElem?_append_right (Nat.le_add_right _ _), Nat.add_sub_cancel_left,
        ih (fun r hr => h r (List.mem_cons_of_mem row hr)) t, List.getElem?_cons_succ]

theorem index_div {m k : Nat} (hk : k < m) (t : Nat) : (t * m + k) / m = t := by
  rw [Nat.mul_comm, Nat.mul_add_div (Nat.zero_lt_of_lt hk), Nat.div_eq_of_lt hk, Nat.add_zero]

theorem index_mod {m k : Nat} (hk : k < m) (t : Nat) : (t * m + k) % m = k := by
  rw [Nat.mul_comm, Nat.mul_add_mod, Nat.mod_eq_of_lt hk]

theorem index_unique {m t u k l : Nat} (hk : k < m) (hl : l < m) (h : t * m + k = u * m + l) :
    t = u ∧ k = l := by
  constructor
  · rw [← index_div hk t, h, index_div hl]
  · rw [← index_mod hk t, h, index_mod hl]

theorem index_lt {m n t k : Nat} (hk : k < m) : t * m + k < n * m ↔ t < n := by
  constructor
  · intro h
    by_contra hge
    have hmul : n * m ≤ t * m := Nat.mul_le_mul_right m (by omega)
    omega
  · intro h
    have hmul : (t + 1) * m ≤ n * m := Nat.mul_le_mul_right m h
    rw [Nat.succ_mul] at hmul
    omega

section Views
variable [Zero α]

/-- A flat array as `n` rows of `m` entries; what lies outside counts as `0`. -/
def view (n m : Nat) (f : Nat → α) (t k : Nat) : α :=
  if t < n ∧ k < m then f (t * m + k) else 0

/-- Slot `x` has the same row and place under both shapes. -/
def Kept (n m r l x : Nat) : Prop := x < n * m ∧ x < r * l ∧ (m = l ∨ x < m ∧ x < l)

/-- Slot `x` is used by one of the shapes but not in the same way by the other. -/
def Misread (n m r l x : Nat) : Prop := (x < n * m ∨ x < r * l) ∧ ¬ Kept n m r l x

/-- One of the shapes uses a slot from `len` on for entry `k` of row `t`. -/
def Beyond (len n m r l t k : Nat) : Prop :=
  (t < n ∧ k < m ∧ len ≤ t * m + k) ∨ (t < r ∧ k < l ∧ len ≤ t * l + k)

variable {len n m r l : Nat} {f g : Nat → α}

theorem Kept.swap {x : Nat} (h : Kept n m r l x) : Kept r l n m x :=
  ⟨h.2.1, h.1, h.2.2.imp Eq.symm And.symm⟩

theorem Misread.swap {x : Nat} (h : Misread n m r l x) : Misread r l n m x :=
  ⟨h.1.symm, fun hkept => h.2 hkept.swap⟩

theorem Beyond.swap {t k : Nat} (h : Beyond len r l n m t k) : Beyond len n m r l t k := Or.symm h

theorem exists_place {n m x : Nat} (h : x < n * m) : ∃ t k, t < n ∧ k < m ∧ x = t * m + k := by
  have hm : 0 < m := Nat.pos_of_lt_mul_left h
  refine ⟨x / m, x % m, (Nat.div_lt_iff_lt_mul hm).mpr h, Nat.mod_lt _ hm, ?_⟩
  rw [Nat.mul_comm, Nat.div_add_mod]

theorem place_of_kept {t k : Nat} (hk : k < m) (h : Kept n m r l (t * m + k)) :
    t < r ∧ k < l ∧ t * m + k = t * l + k := by
  obtain ⟨_, hr, rfl | ⟨hm, hl⟩⟩ := h
  · exact ⟨(index_lt hk).mp hr, hk, rfl⟩
  · obtain rfl : t = 0 := by
      by_contra hpos
      have hmul : 1 * m ≤ t * m := Nat.mul_le_mul_right m (by omega)
      omega
    have hrpos : 0 < r := Nat.pos_of_ne_zero fun h0 => by
      rw [h0, Nat.zero_mul] at hr
      omega
    exact ⟨hrpos, by omega, by omega⟩

theorem misread_of_ne {t k : Nat} (hin : t < r ∧ k < l) (hne : t * l + k ≠ t * m + k) :
    Misread n m r l (t * l + k) :=
  ⟨Or.inr ((index_lt hin.2).mpr hin.1), fun hkept => hne (place_of_kept hin.2 hkept.swap).2.2⟩

/-- Where rows get shorter, every misread slot takes its value from a misread slot before it. -/
theorem zero_of_views_eq (hfg : ∀ x, x < len → f x = g x) (hlm : l ≤ m)
    (h : ∀ t k, view n m f t k = view r l g t k) {x : Nat} (hx : x < len)
    (hmis : Misread n m r l x) : f x = 0 := by
  induction x using Nat.strongRecOn with
  | ind x ih =>
    by_cases hn : x < n * m
    · obtain ⟨t, k, ht, hk, rfl⟩ := exists_place hn
      have hview := h t k
      unfold view at hview
      rw [if_pos ⟨ht, hk⟩] at hview
      by_cases hother : t < r ∧ k < l
      · have hle : t * l + k ≤ t * m + k := Nat.add_le_add_right (Nat.mul_le_mul_left t hlm) k
        rw [if_pos hother] at hview
        rcases Nat.lt_or_eq_of_le hle with hlt | heq
        · have hmis' : Misread n m r l (t * l + k) := misread_of_ne hother (Nat.ne_of_lt hlt)
          rw [hview, ← hfg _ (by omega), ih _ hlt (by omega) hmis']
        · refine absurd ⟨hn, ?_, ?_⟩ hmis.2
          · rw [← heq]
            exact (index_lt hother.2).mpr hother.1
          · rcases Nat.eq_zero_or_pos t with rfl | hpos
            · exact Or.inr ⟨by omega, by omega⟩
            · exact Or.inl (Nat.eq_of_mul_eq_mul_left hpos (by omega))
      · rw [hview, if_neg hother]
    · obtain ⟨t, k, ht, hk, rfl⟩ := exists_place (hmis.1.resolve_left hn)
      have hview := h t k
      unfold view at hview
      have houtside : ¬ (t < n ∧ k < m) := by
        intro hin
        have hlt : t * m + k < n * m := (index_lt hin.2).mpr hin.1
        have hle : t * l + k ≤ t * m + k := Nat.add_le_add_right (Nat.mul_le_mul_left t hlm) k
        omega
      rw [if_neg houtside, if_pos ⟨ht, hk⟩] at hview
      rw [hfg _ hx, ← hview]

theorem view_eq_of_zero (hfg : ∀ x, x < len → f x = g x)
    (hzero : ∀ x, x < len → Misread n m r l x → f x = 0) {t k : Nat}
    (hin : t < n ∧ k < m) (hbeyond : ¬ Beyond len n m r l t k) :
    view n m f t k = view r l g t k := by
  have hx : t * m + k < len := by
    by_contra hge
    exact hbeyond (Or.inl ⟨hin.1, hin.2, by omega⟩)
  have hn : t * m + k < n * m := (index_lt hin.2).mpr hin.1
  unfold view
  rw [if_pos hin]
  by_cases hkept : Kept n m r l (t * m + k)
  · obtain ⟨ht, hk, heq⟩ := place_of_kept hin.2 hkept
    rw [if_pos ⟨ht, hk⟩, hfg _ hx, heq]
  · rw [hzero _ hx ⟨Or.inl hn, hkept⟩]
    by_cases hother : t < r ∧ k < l
    · have hy : t * l + k < len := by
        by_contra hge
        exact hbeyond (Or.inr ⟨hother.1, hother.2, by omega⟩)
      have hmis : Misread n m r l (t * l + k) := by
        refine ⟨Or.inr ((index_lt hother.2).mpr hother.1), fun hkept' => hkept ?_⟩
        rw [← (place_of_kept hother.2 hkept'.swap).2.2]
        exact hkept'
      rw [if_pos hother, ← hfg _ hy, hzero _ hy hmis]
    · rw [if_neg hother]

/-- Two arrays that agree up to `len` look alike under two shapes exactly when every misread
slot below `len` holds `0` and the slots from `len` on do no harm. -/
theorem views_eq_iff (hfg : ∀ x, x < len → f x = g x) :
    (∀ t k, view n m f t k = view r l g t k) ↔
      (∀ x, x < len → Misread n m r l x → f x = 0) ∧
        ∀ t k, Beyond len n m r l t k → view n m f t k = view r l g t k := by
  constructor
  · intro h
    refine ⟨fun x hx hmis => ?_, fun t k _ => h t k⟩
    rcases Nat.le_total l m with hlm | hml
    · exact zero_of_views_eq hfg hlm h hx hmis
    · rw [hfg x hx]
      exact zero_of_views_eq (fun y hy => (hfg y hy).symm) hml (fun t k => (h t k).symm) hx hmis.swap
  · rintro ⟨hzero, hstale⟩ t k
    by_cases hbeyond : Beyond len n m r l t k
    · exact hstale t k hbeyond
    · by_cases hin : t < n ∧ k < m
      · exact view_eq_of_zero hfg hzero hin hbeyond
      · by_cases hother : t < r ∧ k < l
        · refine (view_eq_of_zero (fun x hx => (hfg x hx).symm) (fun x hx hmis => ?_) hother
            fun h => hbeyond h.swap).symm
          rw [← hfg x hx, hzero x hx hmis.swap]
        · unfold view
          rw [if_neg hin, if_neg hother]

theorem views_eq_iff_of_shape (hfg : ∀ x, x < r * l → f x = g x) :
    (∀ t k, view n m f t k = view r l g t k) ↔
      (∀ x, x < r * l → Misread n m r l x → f x = 0) ∧
        ∀ x, r * l ≤ x → x < n * m → f x = 0 := by
  rw [views_eq_iff hfg]
  -- where the larger shape goes on, the other one is outside or has read a misread slot
  have hpast : (∀ x, x < r * l → Misread n m r l x → f x = 0) → ∀ t k, t < n → k < m →
      r * l ≤ t * m + k → view r l g t k = 0 := by
    intro hzero t k _ hk hle
    unfold view
    split
    · next hin =>
      have hslot : t * l + k < r * l := (index_lt hin.2).mpr hin.1
      rw [← hfg _ hslot]
      exact hzero _ hslot (misread_of_ne hin (by omega))
    · rfl
  constructor
  · rintro ⟨hzero, hbeyond⟩
    refine ⟨hzero, fun x hlo hhi => ?_⟩
    obtain ⟨t, k, ht, hk, rfl⟩ := exists_place hhi
    have hview := hbeyond t k (Or.inl ⟨ht, hk, hlo⟩)
    rwa [hpast hzero t k ht hk hlo, view, if_pos ⟨ht, hk⟩] at hview
  · rintro ⟨hzero, hrest⟩
    refine ⟨hzero, fun t k hbeyond => ?_⟩
    obtain ⟨ht, hk, hle⟩ | ⟨ht, hk, hle⟩ := hbeyond
    · rw [hpast hzero t k ht hk hle, view, if_pos ⟨ht, hk⟩]
      exact hrest _ hle ((index_lt hk).mpr ht)
    · have hslot := (index_lt hk).mpr ht
      omega

end Views

end Period.RowMajor
