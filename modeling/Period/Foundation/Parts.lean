import Mathlib.Algebra.GroupWithZero.Nat
import Period.Foundation.Enumeration

/-!
# Ordered parts of a number

`shift` moves one unit from the last part that can spare one to the part before it.
Started with everything in the last part it reaches exactly the lists of positive
parts in which at most two neighbouring parts are larger than one, not every
list with the right sum.
-/

namespace Period.Parts

open Enumeration
set_option autoImplicit false

def shift : List Nat → Option (List Nat)
  | a :: b :: l =>
    ((shift (b :: l)).map (a :: ·)).or (if 1 < b then some ((a + 1) :: (b - 1) :: l) else none)
  | _ => none

/-- One unit in every part, what is left over in the last one. -/
def firstParts : Nat → Nat → List Nat
  | 0, _ => []
  | m + 1, total => List.replicate m 1 ++ [1 + (total - (m + 1))]

theorem shift_eq_none {a : Nat} {l : List Nat} : shift (a :: l) = none ↔ ∀ x ∈ l, x ≤ 1 := by
  induction l generalizing a with
  | nil => simp [shift]
  | cons b l ih =>
    simp only [shift, Option.or_eq_none_iff, Option.map_eq_none_iff, ih, ite_eq_right_iff,
      reduceCtorEq, imp_false, List.forall_mem_cons]
    constructor
    · exact fun ⟨hl, hb⟩ => ⟨by omega, hl⟩
    · exact fun ⟨hb, hl⟩ => ⟨hl, by omega⟩

theorem shift_at (pre post : List Nat) (a b : Nat) (hb : 1 < b) (hpost : ∀ x ∈ post, x ≤ 1) :
    shift (pre ++ a :: b :: post) = some (pre ++ (a + 1) :: (b - 1) :: post) := by
  induction pre with
  | nil => simp [shift, shift_eq_none.mpr hpost, hb]
  | cons x pre ih =>
    cases pre with
    | nil =>
      rw [List.nil_append] at ih
      rw [List.singleton_append, shift, ih]
      rfl
    | cons y pre =>
      rw [List.cons_append, List.cons_append, shift, ← List.cons_append, ih]
      rfl

theorem shift_cases (l : List Nat) :
    (shift l = none ∧ ∀ x ∈ l.tail, x ≤ 1) ∨
    ∃ pre a b post, l = pre ++ a :: b :: post ∧ 1 < b ∧ ∀ x ∈ post, x ≤ 1 := by
  induction l with
  | nil => exact Or.inl ⟨rfl, by simp⟩
  | cons a l ih =>
    rcases ih with ⟨_, hl⟩ | ⟨pre, a', b, post, rfl, hb, hpost⟩
    · cases l with
      | nil => exact Or.inl ⟨rfl, by simp⟩
      | cons b l =>
        by_cases hb : 1 < b
        · exact Or.inr ⟨[], a, b, l, rfl, hb, hl⟩
        · refine Or.inl ⟨shift_eq_none.mpr ?_, ?_⟩
          · exact List.forall_mem_cons.mpr ⟨by omega, hl⟩
          · exact List.forall_mem_cons.mpr ⟨by omega, hl⟩
    · exact Or.inr ⟨a :: pre, a', b, post, rfl, hb, hpost⟩

def spreads : Nat → Nat → List (List Nat)
  | 0, _ => [[]]
  | 1, total => [[total]]
  | m + 2, total =>
    (spreads (m + 1) (total - 1)).map (1 :: ·) ++
      (List.range' 2 (total - (m + 2))).map fun a => a :: (total - m - a) :: List.replicate m 1

/-- At most two neighbouring parts are larger than one. -/
def TwoAdjacent (l : List Nat) : Prop :=
  ∃ j, ∀ i x, l[i]? = some x → i ≠ j → i ≠ j + 1 → x = 1

structure Spread (m total : Nat) (l : List Nat) : Prop where
  length_eq : l.length = m
  sum_eq : l.sum = total
  pos : ∀ x ∈ l, 0 < x
  adjacent : TwoAdjacent l

theorem twoAdjacent_cons_cons (a b : Nat) (l : List Nat) :
    TwoAdjacent (a :: b :: l) ↔ (a = 1 ∧ TwoAdjacent (b :: l)) ∨ ∀ x ∈ l, x = 1 := by
  constructor
  · rintro ⟨j, hj⟩
    cases j with
    | zero =>
      refine Or.inr fun x hx => ?_
      obtain ⟨i, hi⟩ := List.mem_iff_getElem?.mp hx
      exact hj (i + 2) x (by simpa using hi) (by omega) (by omega)
    | succ j =>
      refine Or.inl ⟨hj 0 a rfl (by omega) (by omega), j, fun i x hx h1 h2 => ?_⟩
      exact hj (i + 1) x (by simpa using hx) (by omega) (by omega)
  · rintro (⟨rfl, j, hj⟩ | hl)
    · refine ⟨j + 1, fun i x hx h1 h2 => ?_⟩
      cases i with
      | zero => simpa using hx.symm
      | succ i => exact hj i x (by simpa using hx) (by omega) (by omega)
    · refine ⟨0, fun i x hx h1 h2 => ?_⟩
      obtain ⟨i, rfl⟩ : ∃ i', i = i' + 2 := ⟨i - 2, by omega⟩
      exact hl x (List.mem_of_getElem? (by simpa using hx))

theorem twoAdjacent_of_length_le {l : List Nat} (h : l.length ≤ 2) : TwoAdjacent l := by
  refine ⟨0, fun i x hx h1 h2 => ?_⟩
  have := (List.getElem?_eq_some_iff.mp hx).1
  omega

theorem length_le_sum {l : List Nat} (h : ∀ x ∈ l, 0 < x) : l.length ≤ l.sum := by
  induction l with
  | nil => simp
  | cons x l ih =>
    have hx := h x List.mem_cons_self
    have := ih fun y hy => h y (List.mem_cons_of_mem x hy)
    simp only [List.length_cons, List.sum_cons]
    omega

theorem eq_one_of_sum_eq_length {l : List Nat} (hpos : ∀ x ∈ l, 0 < x) (h : l.sum ≤ l.length) :
    ∀ x ∈ l, x = 1 := by
  induction l with
  | nil => simp
  | cons a l ih =>
    obtain ⟨ha, hl⟩ := List.forall_mem_cons.mp hpos
    have := length_le_sum hl
    simp only [List.sum_cons, List.length_cons] at h
    exact List.forall_mem_cons.mpr ⟨by omega, ih hl (by omega)⟩

/-- Two free parts and unit parts behind them are a reachable list. -/
theorem spread_two_free {a b m total : Nat} (ha : 0 < a) (hb : 0 < b) (hsum : a + b + m = total) :
    Spread (m + 2) total (a :: b :: List.replicate m 1) := by
  refine ⟨by simp, ?_, ?_, ?_⟩
  · simp only [List.sum_cons, List.sum_replicate_nat, Nat.mul_one]
    omega
  · intro x hx
    simp only [List.mem_cons, List.mem_replicate] at hx
    omega
  · exact (twoAdjacent_cons_cons _ _ _).mpr (Or.inr fun x hx => (List.mem_replicate.mp hx).2)

theorem mem_spreads {m total : Nat} {l : List Nat} (hm : 0 < m) (hle : m ≤ total) :
    l ∈ spreads m total ↔ Spread m total l := by
  induction m generalizing total l with
  | zero => omega
  | succ m ih =>
    cases m with
    | zero =>
      simp only [spreads, List.mem_singleton]
      constructor
      · rintro rfl
        exact ⟨rfl, by simp, by simpa using Nat.lt_of_lt_of_le Nat.one_pos hle,
          twoAdjacent_of_length_le (by simp)⟩
      · intro h
        obtain ⟨x, rfl⟩ := List.length_eq_one_iff.mp h.length_eq
        simpa using h.sum_eq
    | succ m =>
      simp only [spreads, List.mem_append, List.mem_map, List.mem_range'_1,
        fun t => @ih (total - 1) t (by omega) (by omega)]
      constructor
      · rintro (⟨t, ht, rfl⟩ | ⟨a, ha, rfl⟩)
        · obtain ⟨b, t, rfl⟩ := List.exists_cons_of_length_eq_add_one ht.length_eq
          refine ⟨by simpa using ht.length_eq, ?_, ?_, ?_⟩
          · have := ht.sum_eq
            simp only [List.sum_cons] at this ⊢
            omega
          · exact List.forall_mem_cons.mpr ⟨Nat.one_pos, ht.pos⟩
          · exact (twoAdjacent_cons_cons _ _ _).mpr (Or.inl ⟨rfl, ht.adjacent⟩)
        · exact spread_two_free (by omega) (by omega) (by omega)
      · intro h
        obtain ⟨a, t, rfl⟩ := List.exists_cons_of_length_eq_add_one h.length_eq
        have hlen : t.length = m + 1 := by simpa using h.length_eq
        obtain ⟨b, t, rfl⟩ := List.exists_cons_of_length_eq_add_one hlen
        have hsum := h.sum_eq
        simp only [List.sum_cons] at hsum
        have hpos := List.forall_mem_cons.mp h.pos
        by_cases ha : a = 1
        · subst ha
          refine Or.inl ⟨b :: t, ⟨hlen, ?_, hpos.2, ?_⟩, rfl⟩
          · simp only [List.sum_cons]
            omega
          · rcases (twoAdjacent_cons_cons _ _ _).mp h.adjacent with h' | h'
            · exact h'.2
            · refine ⟨0, fun i x hx h1 h2 => ?_⟩
              obtain ⟨i, rfl⟩ : ∃ i', i = i' + 1 := ⟨i - 1, by omega⟩
              exact h' x (List.mem_of_getElem? (by simpa using hx))
        · have hones := ((twoAdjacent_cons_cons _ _ _).mp h.adjacent).resolve_left (fun h' => ha h'.1)
          have ht : t = List.replicate m 1 :=
            List.eq_replicate_iff.mpr ⟨by simpa using hlen, hones⟩
          subst ht
          have hb := hpos.2 b List.mem_cons_self
          simp only [List.sum_replicate_nat, Nat.mul_one] at hsum
          refine Or.inr ⟨a, by omega, ?_⟩
          congr 2
          omega

theorem spreads_self (m : Nat) : spreads m m = [List.replicate m 1] := by
  induction m with
  | zero => rfl
  | succ m ih =>
    cases m with
    | zero => rfl
    | succ m =>
      rw [spreads, Nat.add_sub_cancel, ih, Nat.sub_self]
      rfl

theorem spreads_part {m total : Nat} (hle : m ≤ total) {l : List Nat} (h : l ∈ spreads m total) :
    l.length = m ∧ ∀ x ∈ l, 0 < x := by
  cases m with
  | zero =>
    rw [List.mem_singleton.mp h]
    exact ⟨rfl, nofun⟩
  | succ m =>
    have hspread := (mem_spreads (Nat.succ_pos m) hle).mp h
    exact ⟨hspread.length_eq, hspread.pos⟩

theorem spreads_head (m total : Nat) (hle : m ≤ total) :
    (spreads m total).head? = some (firstParts m total) := by
  induction m generalizing total with
  | zero => rfl
  | succ m ih =>
    cases m with
    | zero =>
      have : 1 + (total - 1) = total := by omega
      simp [spreads, firstParts, this]
    | succ m =>
      rw [spreads, List.head?_append, List.head?_map, ih _ (by omega), firstParts, firstParts,
        List.replicate_succ]
      have : total - 1 - (m + 1) = total - (m + 1 + 1) := by omega
      rw [this]
      rfl

theorem nodup_larger_first {b k : Nat} {ls : List (List Nat)} {rest : Nat → List Nat}
    (h : ls.Nodup) :
    (ls.map (b :: ·) ++ (List.range' (b + 1) k).map fun a => a :: rest a).Nodup := by
  rw [List.nodup_append]
  refine ⟨h.map List.cons_injective, ?_, ?_⟩
  · apply List.Nodup.map _ List.nodup_range'
    intro a c hac
    exact (List.cons_eq_cons.mp hac).1
  · intro l hl l' hl' heq
    obtain ⟨t, _, rfl⟩ := List.mem_map.mp hl
    obtain ⟨a, ha, rfl⟩ := List.mem_map.mp hl'
    have := (List.cons_eq_cons.mp heq).1
    have := List.mem_range'_1.mp ha
    omega

theorem spreads_nodup (m total : Nat) : (spreads m total).Nodup := by
  induction m generalizing total with
  | zero => exact List.nodup_singleton []
  | succ m ih =>
    cases m with
    | zero => exact List.nodup_singleton [total]
    | succ m =>
      rw [spreads]
      exact nodup_larger_first (ih (total - 1))

theorem firstParts_max (m total : Nat) : firstParts m (max m total) = firstParts m total := by
  cases m with
  | zero => rfl
  | succ m =>
    have hleft : max (m + 1) total - (m + 1) = total - (m + 1) := by omega
    rw [firstParts, firstParts, hleft]

/-! ## The lists that are not reached -/

theorem twoAdjacent_of_sum_le {l : List Nat} (hpos : ∀ x ∈ l, 0 < x) (h : l.sum ≤ l.length + 1) :
    TwoAdjacent l := by
  induction l with
  | nil => exact twoAdjacent_of_length_le (by simp)
  | cons a l ih =>
    obtain ⟨ha, hl⟩ := List.forall_mem_cons.mp hpos
    have hsum := length_le_sum hl
    simp only [List.sum_cons, List.length_cons] at h
    by_cases ha1 : a = 1
    · obtain ⟨j, hj⟩ := ih hl (by omega)
      refine ⟨j + 1, fun i x hx h1 h2 => ?_⟩
      cases i with
      | zero =>
        obtain rfl : a = x := by simpa using hx
        exact ha1
      | succ i => exact hj i x (by simpa using hx) (by omega) (by omega)
    · have hones := eq_one_of_sum_eq_length hl (by omega)
      refine ⟨0, fun i x hx h1 h2 => ?_⟩
      obtain ⟨i, rfl⟩ : ∃ i', i = i' + 1 := ⟨i - 1, by omega⟩
      exact hones x (List.mem_of_getElem? (by simpa using hx))

/-- Three parts with two units to spare: the two ends take one each. -/
theorem exists_not_twoAdjacent {m total : Nat} (hm : 3 ≤ m) (htotal : m + 2 ≤ total) :
    ∃ l : List Nat, l.length = m ∧ l.sum = total ∧ (∀ x ∈ l, 0 < x) ∧ ¬ TwoAdjacent l := by
  refine ⟨(total - m) :: (List.replicate (m - 2) 1 ++ [2]), ?_, ?_, ?_, ?_⟩
  · simp
    omega
  · simp
    omega
  · intro x hx
    simp only [List.mem_cons, List.mem_append, List.mem_replicate, List.not_mem_nil, or_false] at hx
    omega
  · intro hadj
    obtain ⟨m, rfl⟩ : ∃ m', m = m' + 3 := ⟨m - 3, by omega⟩
    have hrep : m + 3 - 2 = m + 1 := by omega
    rw [hrep, List.replicate_succ, List.cons_append] at hadj
    rcases (twoAdjacent_cons_cons _ _ _).mp hadj with ⟨h1, _⟩ | hones
    · omega
    · have := hones 2 (by simp)
      omega

theorem range'_walks {next : List Nat → Option (List Nat)} {f : Nat → List Nat} {lo k : Nat}
    (h : ∀ i, lo ≤ i → i < lo + k → next (f i) = if i + 1 < lo + k then some (f (i + 1)) else none) :
    WalksTo next ((List.range' lo k).map f) none := by
  induction k generalizing lo with
  | zero => trivial
  | succ k ih =>
    rw [List.range'_succ, List.map_cons]
    refine ⟨?_, ih fun i hlo hi => ?_⟩
    · rw [h lo (Nat.le_refl _) (by omega)]
      cases k with
      | zero => simp
      | succ k => simp [List.range'_succ]
    · rw [h i (by omega) (by omega)]
      have : lo + 1 + k = lo + (k + 1) := by omega
      rw [this]

/-- The last list that keeps its first part: all the others are down to one. -/
theorem spread_stuck {m total b : Nat} {l : List Nat} (h : Spread (m + 1) total (b :: l))
    (hstuck : ∀ x ∈ l, x ≤ 1) : b = total - m ∧ l = List.replicate m 1 := by
  have hlen : l.length = m := by simpa using h.length_eq
  have hones : l = List.replicate m 1 := by
    refine List.eq_replicate_iff.mpr ⟨hlen, fun x hx => ?_⟩
    have := h.pos x (List.mem_cons_of_mem b hx)
    have := hstuck x hx
    omega
  refine ⟨?_, hones⟩
  have := h.sum_eq
  rw [hones, List.sum_cons, List.sum_replicate_nat] at this
  omega

/-- The lists that are reached from `b :: firstParts m total`: the first part is the last one to grow. -/
def spreadsFrom (b : Nat) : Nat → Nat → List (List Nat)
  | 0, _ => [[b]]
  | m + 1, total =>
    (spreads (m + 1) total).map (b :: ·) ++
      (List.range' (b + 1) (total - (m + 1))).map fun a =>
        a :: (b + total - m - a) :: List.replicate m 1

theorem spreads_eq_from {m total : Nat} (h : 0 < total) :
    spreads (m + 2) total = spreadsFrom 1 (m + 1) (total - 1) := by
  have hcount : total - (m + 2) = total - 1 - (m + 1) := by omega
  have hsum : 1 + (total - 1) = total := by omega
  rw [spreads, spreadsFrom, hcount, hsum]

theorem spreadsFrom_walks_of {b m total : Nat} (hle : m + 1 ≤ total)
    (h : WalksTo shift (spreads (m + 1) total) none) :
    WalksTo shift (spreadsFrom b (m + 1) total) none := by
  rw [spreadsFrom]
  refine (walksTo_append _ _ _).mpr ⟨walksTo_map _ _ _ _ ?_ h, ?_⟩
  · intro t ht
    have hspread := (mem_spreads (Nat.succ_pos m) hle).mp ht
    obtain ⟨c, t, rfl⟩ := List.exists_cons_of_length_eq_add_one hspread.length_eq
    rw [shift, Option.or_none]
    cases hs : shift (c :: t) with
    | some s => rfl
    | none =>
      obtain ⟨rfl, rfl⟩ := spread_stuck hspread (shift_eq_none.mp hs)
      rw [Option.map_none, Option.none_or, Option.none_or]
      cases hk : total - (m + 1) with
      | zero =>
        rw [if_neg (by omega)]
        rfl
      | succ k =>
        have hgiver : k + 1 = b + total - m - (b + 1) := by omega
        rw [if_pos (by omega), List.range'_succ, List.map_cons, List.head?_cons, hgiver]
  · apply range'_walks
    intro a hlo hhi
    rw [shift, shift_eq_none.mpr (by simp), Option.map_none, Option.none_or]
    by_cases hend : a + 1 < b + 1 + (total - (m + 1))
    · have : b + total - m - a - 1 = b + total - m - (a + 1) := by omega
      rw [if_pos hend, if_pos (by omega), this]
    · rw [if_neg hend, if_neg (by omega)]

theorem shift_walks (m total : Nat) (hle : m ≤ total) :
    WalksTo shift (spreads m total) none := by
  induction m generalizing total with
  | zero => exact ⟨rfl, trivial⟩
  | succ m ih =>
    cases m with
    | zero => exact ⟨rfl, trivial⟩
    | succ m =>
      rw [spreads_eq_from (by omega)]
      exact spreadsFrom_walks_of (by omega) (ih (total - 1) (by omega))

section From
variable {b m total : Nat}

theorem spreadsFrom_walks (hle : m ≤ total) : WalksTo shift (spreadsFrom b m total) none := by
  cases m with
  | zero => exact ⟨rfl, trivial⟩
  | succ m => exact spreadsFrom_walks_of hle (shift_walks (m + 1) total hle)

theorem spreadsFrom_head (hle : m ≤ total) :
    (spreadsFrom b m total).head? = some (b :: firstParts m total) := by
  cases m with
  | zero => rfl
  | succ m =>
    rw [spreadsFrom, List.head?_append, List.head?_map, spreads_head (m + 1) total hle]
    rfl

theorem spreadsFrom_self (b m : Nat) : (spreadsFrom b m m).tail = [] := by
  cases m with
  | zero => rfl
  | succ m =>
    rw [spreadsFrom, spreads_self, Nat.sub_self]
    rfl

theorem spreadsFrom_nodup : (spreadsFrom b m total).Nodup := by
  cases m with
  | zero => exact List.nodup_singleton [b]
  | succ m =>
    rw [spreadsFrom]
    exact nodup_larger_first (spreads_nodup (m + 1) total)

/-- There is something to move when two parts share more than they need. -/
theorem spreads_tail_ne_nil_iff (hle : m ≤ total) :
    (spreads m total).tail ≠ [] ↔ 2 ≤ m ∧ m < total := by
  rcases Nat.eq_or_lt_of_le hle with rfl | hlt
  · rw [spreads_self]
    exact iff_of_false (fun h => h rfl) (by omega)
  match m with
  | 0 => exact iff_of_false (fun h => h rfl) (by omega)
  | 1 => exact iff_of_false (fun h => h rfl) (by omega)
  | m + 2 =>
    obtain ⟨rest, hrest⟩ := List.head?_eq_some_iff.mp (spreads_head (m + 1) (total - 1) (by omega))
    refine iff_of_true (fun hnil => ?_) ⟨by omega, hlt⟩
    rw [spreads, hrest, List.map_cons, List.cons_append, List.tail_cons] at hnil
    have hrange := List.map_eq_nil_iff.mp (List.append_eq_nil_iff.mp hnil).2
    rw [List.range'_eq_nil_iff] at hrange
    omega

/-- A list that is reached: the first part does not get smaller, the sum is kept. -/
structure SpreadFrom (b m total : Nat) (l : List Nat) : Prop where
  length_eq : l.length = m + 1
  sum_eq : l.sum = b + total
  pos : ∀ x ∈ l, 0 < x
  head_le : ∃ a t, l = a :: t ∧ b ≤ a

theorem spreadFrom_of_mem (hb : 0 < b) (hle : m ≤ total) (hzero : m = 0 → total = 0) {l : List Nat}
    (h : l ∈ spreadsFrom b m total) : SpreadFrom b m total l := by
  cases m with
  | zero =>
    rw [List.mem_singleton.mp h, hzero rfl]
    exact ⟨rfl, rfl, by simpa using hb, b, [], rfl, Nat.le_refl b⟩
  | succ m =>
    rw [spreadsFrom] at h
    rcases List.mem_append.mp h with h | h
    · obtain ⟨t, ht, rfl⟩ := List.mem_map.mp h
      have hspread := (mem_spreads (Nat.succ_pos m) hle).mp ht
      refine ⟨by simpa using hspread.length_eq, ?_, ?_, b, t, rfl, Nat.le_refl b⟩
      · rw [List.sum_cons, hspread.sum_eq]
      · exact List.forall_mem_cons.mpr ⟨hb, hspread.pos⟩
    · obtain ⟨a, ha, rfl⟩ := List.mem_map.mp h
      have ha := List.mem_range'_1.mp ha
      refine ⟨by simp, ?_, ?_, a, _, rfl, by omega⟩
      · simp only [List.sum_cons, List.sum_replicate_nat, Nat.mul_one]
        omega
      · intro x hx
        simp only [List.mem_cons, List.mem_replicate] at hx
        omega

theorem spreadsFrom_part (hb : 0 < b) (hle : m ≤ total) {l : List Nat}
    (h : l ∈ spreadsFrom b m total) : l.length = m + 1 ∧ ∀ x ∈ l, 0 < x := by
  cases m with
  | zero =>
    rw [List.mem_singleton.mp h]
    exact ⟨rfl, by simpa using hb⟩
  | succ m =>
    have hspread := spreadFrom_of_mem hb hle (fun h => absurd h (Nat.succ_ne_zero m)) h
    exact ⟨hspread.length_eq, hspread.pos⟩

end From

/-! ## Parts that hit given positions -/

/-- The `r`-th position lies in the `r`-th part, parts being laid out from `base` on. -/
def Hits : Nat → List Nat → List Nat → Prop
  | _, [], [] => True
  | base, x :: l, k :: ks => base ≤ k ∧ k < base + x ∧ Hits (base + x) l ks
  | _, _, _ => False

/-- All but two neighbouring positions are as far left or as far right as they can be. -/
def Hugs (base total : Nat) (ks : List Nat) : Prop :=
  ∃ j, (∀ r k, ks[r]? = some k → r < j → k = base + r) ∧
    ∀ r k, ks[r]? = some k → j + 1 < r → k + ks.length = total + r

theorem hugs_cons_cons (base total k k' : Nat) (ks : List Nat) :
    Hugs base total (k :: k' :: ks) ↔
      (k = base ∧ Hugs (base + 1) total (k' :: ks)) ∨
      ∀ r x, ks[r]? = some x → x + ks.length = total + r := by
  constructor
  · rintro ⟨j, hleft, hright⟩
    cases j with
    | zero =>
      refine Or.inr fun r x hx => ?_
      have := hright (r + 2) x (by simpa using hx) (by omega)
      simp only [List.length_cons] at this
      omega
    | succ j =>
      refine Or.inl ⟨by simpa using hleft 0 k rfl (by omega), j, ?_, ?_⟩
      · intro r x hx hr
        have := hleft (r + 1) x (by simpa using hx) (by omega)
        omega
      · intro r x hx hr
        have := hright (r + 1) x (by simpa using hx) (by omega)
        simp only [List.length_cons] at this ⊢
        omega
  · rintro (⟨rfl, j, hleft, hright⟩ | h)
    · refine ⟨j + 1, ?_, ?_⟩
      · intro r x hx hr
        cases r with
        | zero => simpa using hx.symm
        | succ r =>
          have := hleft r x (by simpa using hx) (by omega)
          omega
      · intro r x hx hr
        obtain ⟨r, rfl⟩ : ∃ r', r = r' + 1 := ⟨r - 1, by omega⟩
        have := hright r x (by simpa using hx) (by omega)
        simp only [List.length_cons] at this ⊢
        omega
    · refine ⟨0, fun r x _ hr => by omega, fun r x hx hr => ?_⟩
      obtain ⟨r, rfl⟩ : ∃ r', r = r' + 2 := ⟨r - 2, by omega⟩
      have := h r x (by simpa using hx)
      simp only [List.length_cons]
      omega

theorem hugs_of_length_le {base total : Nat} {ks : List Nat} (h : ks.length ≤ 2) :
    Hugs base total ks := by
  refine ⟨0, fun r k _ hr => by omega, fun r k hk hr => ?_⟩
  have := (List.getElem?_eq_some_iff.mp hk).1
  omega

theorem hits_length {base : Nat} {l ks : List Nat} (h : Hits base l ks) : l.length = ks.length := by
  induction l generalizing base ks with
  | nil =>
    cases ks with
    | nil => rfl
    | cons k ks => exact h.elim
  | cons x l ih =>
    cases ks with
    | nil => exact h.elim
    | cons k ks => simpa using ih h.2.2

theorem hits_iff {base : Nat} {l ks : List Nat} :
    Hits base l ks ↔ l.length = ks.length ∧ ∀ r k, ks[r]? = some k →
      base + (l.take r).sum ≤ k ∧ k < base + (l.take (r + 1)).sum := by
  induction l generalizing base ks with
  | nil =>
    cases ks with
    | nil => simp [Hits]
    | cons k ks => simp [Hits]
  | cons x l ih =>
    cases ks with
    | nil => simp [Hits]
    | cons k ks =>
      simp only [Hits, ih, List.length_cons, Nat.add_right_cancel_iff, List.take_succ_cons,
        List.sum_cons]
      constructor
      · intro h
        obtain ⟨hlo, hhi, hlen, hrest⟩ := h
        refine ⟨hlen, fun r y hy => ?_⟩
        cases r with
        | zero =>
          obtain rfl : k = y := by simpa using hy
          simp only [List.take_zero, List.sum_nil]
          omega
        | succ r =>
          have := hrest r y (by simpa using hy)
          rw [List.take_succ_cons, List.sum_cons]
          omega
      · intro h
        obtain ⟨hlen, hall⟩ := h
        have h0 := hall 0 k rfl
        simp only [List.take_zero, List.sum_nil] at h0
        refine ⟨by omega, by omega, hlen, fun r y hy => ?_⟩
        have := hall (r + 1) y (by simpa using hy)
        rw [List.take_succ_cons, List.sum_cons] at this
        omega

theorem hits_ones_iff {base : Nat} {ks : List Nat} :
    Hits base (List.replicate ks.length 1) ks ↔ ∀ r x, ks[r]? = some x → x = base + r := by
  induction ks generalizing base with
  | nil => simp [Hits]
  | cons k ks ih =>
    simp only [List.length_cons, List.replicate_succ, Hits, ih]
    constructor
    · rintro ⟨hlo, hhi, hrest⟩ r x hx
      cases r with
      | zero =>
        obtain rfl : k = x := by simpa using hx
        omega
      | succ r =>
        have := hrest r x (by simpa using hx)
        omega
    · intro h
      have := h 0 k rfl
      refine ⟨by omega, by omega, fun r x hx => ?_⟩
      have := h (r + 1) x (by simpa using hx)
      omega

theorem head_add_length_lt {k bound : Nat} {ks : List Nat} (hinc : (k :: ks).Pairwise (· < ·))
    (hlt : ∀ x ∈ k :: ks, x < bound) : k + ks.length < bound := by
  induction ks generalizing k with
  | nil => simpa using hlt
  | cons k' ks ih =>
    obtain ⟨hk, hks⟩ := List.pairwise_cons.mp hinc
    have := ih hks fun x hx => hlt x (List.mem_cons_of_mem k hx)
    have := hk k' List.mem_cons_self
    simp only [List.length_cons]
    omega

section Hitting
variable {m base total k k' : Nat} {ks : List Nat}

theorem spread_cons_one {l : List Nat} (h : Spread m total l) (hm : 0 < m) :
    Spread (m + 1) (total + 1) (1 :: l) := by
  obtain ⟨b, t, rfl⟩ := List.exists_cons_of_length_pos (by rw [h.length_eq]; exact hm)
  refine ⟨by simp [h.length_eq], ?_, List.forall_mem_cons.mpr ⟨Nat.one_pos, h.pos⟩,
    (twoAdjacent_cons_cons _ _ _).mpr (Or.inl ⟨rfl, h.adjacent⟩)⟩
  rw [List.sum_cons, h.sum_eq, Nat.add_comm]

theorem spread_tail_of_one {b : Nat} {t : List Nat} (h : Spread (m + 2) total (1 :: b :: t))
    (hadj : TwoAdjacent (b :: t)) : Spread (m + 1) (total - 1) (b :: t) := by
  refine ⟨by simpa using h.length_eq, ?_, (List.forall_mem_cons.mp h.pos).2, hadj⟩
  have := h.sum_eq
  rw [List.sum_cons] at this
  omega

/-- Two free parts followed by unit parts hit everything that is flush right behind them. -/
theorem hits_two_free (hk : base ≤ k) (hkk : k < k') (hroom : k' + ks.length < base + total)
    (hright : ∀ r x, ks[r]? = some x → x + ks.length = base + total + r) :
    ∃ l, Spread (ks.length + 2) total l ∧ Hits base l (k :: k' :: ks) := by
  refine ⟨(k - base + 1) :: (total - ks.length - (k - base + 1)) :: List.replicate ks.length 1,
    spread_two_free (by omega) (by omega) (by omega), by omega, by omega, by omega, by omega, ?_⟩
  refine hits_ones_iff.mpr fun r x hx => ?_
  have := hright r x hx
  omega

/-- Positions can be hit by a reachable list of parts exactly when they hug the ends. -/
theorem exists_spread_hits (hm : ks.length = m + 1) (hinc : ks.Pairwise (· < ·))
    (hbase : ∀ k ∈ ks, base ≤ k) (htotal : ∀ k ∈ ks, k < base + total) :
    (∃ l, Spread (m + 1) total l ∧ Hits base l ks) ↔ Hugs base (base + total) ks := by
  induction m generalizing base total ks with
  | zero =>
    obtain ⟨k, rfl⟩ := List.length_eq_one_iff.mp hm
    have hlo := hbase k List.mem_cons_self
    have hhi := htotal k List.mem_cons_self
    refine ⟨fun _ => hugs_of_length_le (by simp), fun _ => ⟨[total], ⟨rfl, by simp, ?_,
      twoAdjacent_of_length_le (by simp)⟩, hlo, hhi, trivial⟩⟩
    intro x hx
    rw [List.mem_singleton.mp hx]
    omega
  | succ m ih =>
    obtain ⟨k, ks, rfl⟩ := List.exists_cons_of_length_eq_add_one hm
    have hm' : ks.length = m + 1 := by simpa using hm
    obtain ⟨k', ks, rfl⟩ := List.exists_cons_of_length_eq_add_one hm'
    obtain ⟨hk, hinc'⟩ := List.pairwise_cons.mp hinc
    have hlo := hbase k List.mem_cons_self
    have hkk := hk k' List.mem_cons_self
    have hroom := head_add_length_lt hinc' fun x hx => htotal x (List.mem_cons_of_mem k hx)
    have ih := @ih (base + 1) (total - 1) (k' :: ks) hm' hinc'
      (fun x hx => by have := hk x hx; omega)
      (fun x hx => by have := htotal x (List.mem_cons_of_mem k hx); omega)
    have hend : base + 1 + (total - 1) = base + total := by omega
    rw [hend] at ih
    rw [hugs_cons_cons]
    constructor
    · rintro ⟨l, hl, hhits⟩
      obtain ⟨a, l, rfl⟩ := List.exists_cons_of_length_eq_add_one hl.length_eq
      have hlen : l.length = m + 1 := by simpa using hl.length_eq
      obtain ⟨b, t, rfl⟩ := List.exists_cons_of_length_eq_add_one hlen
      obtain ⟨_, hlt, hhits⟩ := hhits
      rcases (twoAdjacent_cons_cons _ _ _).mp hl.adjacent with ⟨rfl, hadj⟩ | hones
      · exact Or.inl ⟨by omega, ih.mp ⟨b :: t, spread_tail_of_one hl hadj, hhits⟩⟩
      · refine Or.inr fun r x hx => ?_
        have ht : t = List.replicate ks.length 1 :=
          List.eq_replicate_iff.mpr ⟨hits_length hhits.2.2, hones⟩
        have hsum := hl.sum_eq
        have hrest := hhits.2.2
        rw [ht] at hsum hrest
        have := hits_ones_iff.mp hrest r x hx
        simp only [List.sum_cons, List.sum_replicate_nat] at hsum
        omega
    · rintro (⟨rfl, hhugs⟩ | hright)
      · obtain ⟨l, hl, hhits⟩ := ih.mpr hhugs
        have htot : total - 1 + 1 = total := by omega
        exact ⟨1 :: l, htot ▸ spread_cons_one hl (by omega), by omega, by omega, hhits⟩
      · have hlen : ks.length = m := by simpa using hm'
        obtain ⟨l, hl, hhits⟩ := hits_two_free hlo hkk hroom hright
        exact ⟨l, hlen ▸ hl, hhits⟩

end Hitting

end Period.Parts
