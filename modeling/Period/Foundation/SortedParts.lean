import Mathlib.Algebra.GroupWithZero.Nat
import Mathlib.Data.List.Perm.Subperm
import Mathlib.Data.List.SplitLengths
import Period.Foundation.Rearrangement

/-!
# Sorted parts of a multiset

A list is cut into sorted parts of given lengths. In lexicographic order the least cut takes the
parts one after another from the sorted list. A larger part is had by exchanging its last element
that is below a free one for the least such; what stands behind is kept, so this is the next part
only if nothing smaller could have stood there.
-/

namespace Period.SortedParts

open Rearrangement
set_option autoImplicit false

universe u
variable {α : Type u} [LinearOrder α]

/-- A step within `P` goes up, and stops only at the greatest. -/
def Advances (P : List α → Prop) (a : List α) : Option (List α) → Prop
  | none => ∀ c, P c → c ≤ a
  | some b => P b ∧ a < b

def NoGap (P : List α → Prop) (a : List α) (next : Option (List α)) : Prop :=
  ∀ b ∈ next, ∀ c, P c → a < c → b ≤ c

/-- Such a step leads to the next element of a list of what `P` holds for. -/
theorem succeeds_of_advances {P : List α → Prop} {l : List (List α)} (hP : ∀ c, P c ↔ c ∈ l) {a : List α}
    {next : Option (List α)} (h : Advances P a next) (hgap : NoGap P a next) : Succeeds l a next := by
  cases next with
  | none => exact fun c hc => h c ((hP c).mpr hc)
  | some b => exact ⟨(hP b).mp h.1, h.2, fun c hc hac => hgap b rfl c ((hP c).mpr hc) hac⟩

section Cons
variable {P : List α → Prop} {x y : α} {r r' : List α}

theorem advances_cons (h : Advances (fun r => P (x :: r)) r (some r')) :
    Advances P (x :: r) (some (x :: r')) :=
  ⟨h.1, lt_cons_iff.mpr (Or.inr ⟨rfl, h.2⟩)⟩

theorem noGap_cons (h : NoGap (fun r => P (x :: r)) r (some r')) : NoGap P (x :: r) (some (x :: r')) := by
  intro b hb c hc hlt
  obtain rfl : x :: r' = b := Option.some.inj hb
  cases c with
  | nil => exact absurd hlt (List.not_lt_nil _)
  | cons z c =>
    rcases lt_cons_iff.mp hlt with hxz | ⟨rfl, htail⟩
    · exact le_of_lt (lt_cons_iff.mpr (Or.inl hxz))
    · exact cons_le_cons _ (h r' rfl c hc htail)

theorem advances_cons_none (h : Advances (fun r => P (x :: r)) r none)
    (hx : ∀ z c, P (z :: c) → z ≤ x) : Advances P (x :: r) none := by
  intro c hc
  cases c with
  | nil => exact not_lt.mp (List.not_lt_nil _)
  | cons z c =>
    rcases lt_or_eq_of_le (hx z c hc) with hzx | rfl
    · exact le_of_lt (lt_cons_iff.mpr (Or.inl hzx))
    · exact cons_le_cons _ (h c hc)

/-- The rest is at its greatest: the next first letter with the least rest. -/
theorem noGap_head (h : Advances (fun r => P (x :: r)) r none) (hy : ∀ z c, P (z :: c) → x < z → y ≤ z)
    (hr' : ∀ c, P (y :: c) → r' ≤ c) : NoGap P (x :: r) (some (y :: r')) := by
  intro b hb c hc hlt
  obtain rfl : y :: r' = b := Option.some.inj hb
  cases c with
  | nil => exact absurd hlt (List.not_lt_nil _)
  | cons z c =>
    rcases lt_cons_iff.mp hlt with hxz | ⟨rfl, htail⟩
    · rcases lt_or_eq_of_le (hy z c hc hxz) with hyz | rfl
      · exact le_of_lt (lt_cons_iff.mpr (Or.inl hyz))
      · exact cons_le_cons _ (hr' c hc)
    · exact absurd htail (not_lt.mpr (h c hc))

end Cons

theorem take_le_take {l l' : List α} (h : l ≤ l') (k : Nat) : l.take k ≤ l'.take k := by
  induction k generalizing l l' with
  | zero => exact le_refl _
  | succ k ih =>
    cases l with
    | nil => exact not_lt.mp (List.not_lt_nil _)
    | cons a l =>
      cases l' with
      | nil => exact absurd h (not_le.mpr (List.nil_lt_cons a l))
      | cons b l' =>
        rw [List.take_succ_cons, List.take_succ_cons]
        rcases le_cons_iff.mp h with hab | ⟨rfl, htail⟩
        · exact le_of_lt (lt_cons_iff.mpr (Or.inl hab))
        · exact cons_le_cons _ (ih htail)

/-- The least part is what the sorted list begins with. -/
theorem take_le {s c r : List α} (hs : s.Pairwise (· ≤ ·)) (hc : (c ++ r).Perm s) : s.take c.length ≤ c := by
  have hle := take_le_take (le_of_perm hs hc) c.length
  rwa [List.take_left] at hle

/-- No free element is above an element of the part: the part is the greatest. -/
theorem le_of_no_rise {a c free free' : List α} (ha : a.Pairwise (· ≤ ·)) (hc : c.Pairwise (· ≤ ·))
    (hlen : c.length = a.length) (hperm : (c ++ free').Perm (a ++ free))
    (hfree : ∀ x ∈ a, ∀ y ∈ free, y ≤ x) : c ≤ a := by
  induction a generalizing c with
  | nil =>
    rw [List.length_eq_zero_iff.mp hlen]
  | cons x a ih =>
    cases c with
    | nil => exact not_lt.mp (List.not_lt_nil _)
    | cons z c =>
      rcases lt_trichotomy z x with hzx | rfl | hxz
      · exact le_of_lt (lt_cons_iff.mpr (Or.inl hzx))
      · apply cons_le_cons
        exact ih ha.of_cons hc.of_cons (Nat.succ.inj hlen) (List.Perm.cons_inv hperm)
          fun w hw => hfree w (List.mem_cons_of_mem z hw)
      · -- too few elements are above `x`
        have hall : (z :: c).countP (x < ·) = (z :: c).length := by
          apply List.countP_eq_length.mpr
          intro w hw
          rcases List.mem_cons.mp hw with rfl | hw
          · exact decide_eq_true hxz
          · exact decide_eq_true (lt_of_lt_of_le hxz ((List.pairwise_cons.mp hc).1 w hw))
        have hnone : free.countP (x < ·) = 0 := by
          apply List.countP_eq_zero.mpr
          intro w hw
          have hwx := hfree x List.mem_cons_self w hw
          simpa using hwx
        have hcount := hperm.countP_eq (x < ·)
        rw [List.countP_append, List.countP_append, hall, hnone, List.countP_cons_of_neg (by simp)] at hcount
        have hle := @List.countP_le_length _ (x < ·) a
        rw [hlen, List.length_cons] at hcount
        omega

/-- The part `pre ++ x :: post` with the free elements `free`: the last element below a free one is
`x`, and `y` is the least free one above it. -/
structure Exchange (x : α) (post : List α) (y : α) (free : List α) : Prop where
  mem : y ∈ free
  lt : x < y
  least : ∀ z ∈ free, x < z → y ≤ z
  last : ∀ w ∈ post, ∀ z ∈ free, z ≤ w

namespace Exchange
variable {x y : α} {pre post free : List α}

theorem lt_append (h : Exchange x post y free) (pre : List α) : pre ++ x :: post < pre ++ y :: post :=
  append_lt_append pre (lt_cons_iff.mpr (Or.inl h.lt))

theorem sorted (h : Exchange x post y free) (ha : (pre ++ x :: post).Pairwise (· ≤ ·)) :
    (pre ++ y :: post).Pairwise (· ≤ ·) := by
  obtain ⟨hpre, hpost, hcross⟩ := List.pairwise_append.mp ha
  refine List.pairwise_append.mpr ⟨hpre, List.pairwise_cons.mpr ⟨fun w hw => h.last w hw y h.mem,
    hpost.of_cons⟩, fun w hw z hz => ?_⟩
  have hwx : w ≤ x := hcross w hw x List.mem_cons_self
  rcases List.mem_cons.mp hz with rfl | hz
  · exact le_trans hwx (le_of_lt h.lt)
  · exact hcross w hw z (List.mem_cons_of_mem x hz)

theorem perm (h : Exchange x post y free) (pre : List α) :
    (pre ++ y :: post ++ x :: free.erase y).Perm (pre ++ x :: post ++ free) := by
  have hfree := List.perm_cons_erase h.mem
  rw [List.append_assoc, List.append_assoc, List.cons_append, List.cons_append]
  apply List.Perm.append_left
  calc (y :: (post ++ x :: free.erase y)).Perm (y :: x :: (post ++ free.erase y)) :=
        List.perm_middle.cons y
    _ |>.Perm (x :: y :: (post ++ free.erase y)) := List.Perm.swap x y _
    _ |>.Perm (x :: (post ++ y :: free.erase y)) := List.perm_middle.symm.cons x
    _ |>.Perm (x :: (post ++ free)) := (hfree.symm.append_left post).cons x

/-- Nothing smaller could stand behind: the exchange gives the next part. -/
theorem le_of_lt (h : Exchange x post y free) (ha : (pre ++ x :: post).Pairwise (· ≤ ·))
    (hpost : post = [] ∨ ∀ c ∈ post ++ free.erase y, ∀ d ∈ post ++ free.erase y, y ≤ c → y ≤ d → c = d)
    {b free' : List α} (hc : b.Pairwise (· ≤ ·)) (hlen : b.length = (pre ++ x :: post).length)
    (hperm : (b ++ free').Perm (pre ++ x :: post ++ free)) (hlt : pre ++ x :: post < b) :
    pre ++ y :: post ≤ b := by
  induction pre generalizing b with
  | nil =>
    cases b with
    | nil => exact absurd hlt (List.not_lt_nil _)
    | cons z b =>
      rw [List.nil_append] at ha hlen hperm hlt ⊢
      have htaillen := Nat.succ.inj hlen
      rcases lt_cons_iff.mp hlt with hxz | ⟨rfl, htail⟩
      · have hyz : y ≤ z := by
          have hz : z ∈ x :: post ++ free := hperm.subset List.mem_cons_self
          rcases List.mem_append.mp hz with hz | hz
          · rcases List.mem_cons.mp hz with rfl | hz
            · exact absurd hxz (lt_irrefl z)
            · exact h.last z hz y h.mem
          · exact h.least z hz hxz
        rcases lt_or_eq_of_le hyz with hyz | rfl
        · exact (lt_cons_iff.mpr (Or.inl hyz)).le
        · -- all that can stand behind is the same
          apply cons_le_cons
          have hrest : (b ++ free').Perm (x :: (post ++ free.erase y)) := by
            have hall := hperm.trans (h.perm []).symm
            rw [List.nil_append, List.cons_append, List.cons_append, List.perm_cons] at hall
            exact hall.trans List.perm_middle
          have hmem : ∀ w ∈ b, w ∈ post ++ free.erase y ∧ y ≤ w := by
            intro w hw
            have hyw := (List.pairwise_cons.mp hc).1 w hw
            rcases List.mem_cons.mp (hrest.subset (List.mem_append_left free' hw)) with rfl | hmem
            · exact absurd h.lt (not_lt.mpr hyw)
            · exact ⟨hmem, hyw⟩
          rcases hpost with rfl | hsame
          · exact not_lt.mp (List.not_lt_nil _)
          · apply Eq.le
            apply List.ext_getElem htaillen.symm
            intro i hi hi'
            have hw := hmem b[i] (List.getElem_mem hi')
            exact hsame post[i] (List.mem_append_left _ (List.getElem_mem hi)) b[i] hw.1
              (h.last post[i] (List.getElem_mem hi) y h.mem) hw.2
      · have hle := le_of_no_rise ha.of_cons hc.of_cons htaillen (List.Perm.cons_inv hperm) h.last
        exact absurd htail (not_lt.mpr hle)
  | cons p pre ih =>
    cases b with
    | nil => exact absurd hlt (List.not_lt_nil _)
    | cons z b =>
      rcases lt_cons_iff.mp hlt with hpz | ⟨rfl, htail⟩
      · exact (lt_cons_iff.mpr (Or.inl hpz)).le
      · exact cons_le_cons _ (ih ha.of_cons hc.of_cons (Nat.succ.inj hlen) (List.Perm.cons_inv hperm) htail)

end Exchange

/-- There are no four elements of which the middle two lie strictly between the outer two. -/
def Thin (s : List α) : Prop := ∀ a b c d, a < b → b ≤ c → c < d → ¬ [a, b, c, d].Subperm s

theorem Thin.subperm {s t : List α} (hs : Thin s) (ht : t.Subperm s) : Thin t :=
  fun a b c d hab hbc hcd h => hs a b c d hab hbc hcd (h.trans ht)

/-- In a thin multiset nothing smaller can stand behind an exchanged element. -/
theorem Exchange.same_of_thin {x y : α} {post free s : List α} (h : Exchange x post y free) (hs : Thin s)
    (hsub : (x :: post ++ free).Subperm s) : ∀ c ∈ post ++ free.erase y, ∀ d ∈ post ++ free.erase y,
      y ≤ c → y ≤ d → c = d := by
  have hlt : ∀ c ∈ post ++ free.erase y, ∀ d ∈ post ++ free.erase y, y ≤ c → ¬ c < d := by
    intro c hc d hd hyc hcd
    apply hs x y c d h.lt hyc hcd
    have htwo : [c, d].Subperm (post ++ free.erase y) := by
      apply List.Nodup.subperm (by simp [ne_of_lt hcd])
      intro w hw
      rcases List.mem_cons.mp hw with rfl | hw
      · exact hc
      · rw [List.mem_singleton.mp hw]
        exact hd
    have hall : (x :: y :: (post ++ free.erase y)).Perm (x :: post ++ free) :=
      (List.perm_middle.symm.trans ((List.perm_cons_erase h.mem).symm.append_left post)).cons x
    have hfour : [x, y, c, d].Subperm (x :: y :: (post ++ free.erase y)) :=
      (List.subperm_cons x).mpr ((List.subperm_cons y).mpr htwo)
    exact (hfour.trans hall.subperm).trans hsub
  intro c hc d hd hyc hyd
  exact le_antisymm (not_lt.mp (hlt d hd c hc hyd)) (not_lt.mp (hlt c hc d hd hyc))

/-! ## All parts -/

/-- A list is cut into sorted parts of the given sizes. -/
structure Cuts (sizes : List Nat) (s : List α) (C : List (List α)) : Prop where
  lengths : C.map List.length = sizes
  perm : C.flatten.Perm s
  sorted : ∀ c ∈ C, c.Pairwise (· ≤ ·)

section Cuts
variable {k : Nat} {sizes : List Nat} {s t a : List α} {C C' : List (List α)}

theorem Cuts.tail (h : Cuts (k :: sizes) s (a :: C)) : Cuts sizes C.flatten C where
  lengths := (List.cons.inj h.lengths).2
  perm := List.Perm.refl _
  sorted c hc := h.sorted c (List.mem_cons_of_mem a hc)

theorem cuts_cons {c : List α} (hlen : c.length = k) (hc : c.Pairwise (· ≤ ·)) (hs : (c ++ t).Perm s)
    (h : Cuts sizes t C) : Cuts (k :: sizes) s (c :: C) where
  lengths := by rw [List.map_cons, hlen, h.lengths]
  perm := (h.perm.append_left c).trans hs
  sorted d hd := by
    rcases List.mem_cons.mp hd with rfl | hd
    · exact hc
    · exact h.sorted d hd

/-- What stands behind a part is a cut of what it leaves. -/
theorem cuts_cons_iff (h : Cuts (k :: sizes) s (a :: C)) :
    Cuts (k :: sizes) s (a :: C') ↔ Cuts sizes C.flatten C' := by
  constructor
  · intro h'
    refine ⟨(List.cons.inj h'.lengths).2, ?_, fun c hc => h'.sorted c (List.mem_cons_of_mem a hc)⟩
    exact (List.perm_append_left_iff a).mp (h'.perm.trans h.perm.symm)
  · intro h'
    exact cuts_cons (List.cons.inj h.lengths).1 (h.sorted a List.mem_cons_self) h.perm h'

theorem cuts_splitLengths (hs : s.Pairwise (· ≤ ·)) (hsum : sizes.sum = s.length) :
    Cuts sizes s (sizes.splitLengths s) where
  lengths := List.map_splitLengths_length s sizes (Nat.le_of_eq hsum)
  perm := by rw [List.flatten_splitLengths s sizes (Nat.le_of_eq hsum.symm)]
  sorted := by
    induction sizes generalizing s with
    | nil => exact nofun
    | cons k sizes ih =>
      rw [List.sum_cons] at hsum
      intro c hc
      rw [List.splitLengths_cons] at hc
      rcases List.mem_cons.mp hc with rfl | hc
      · exact hs.sublist (List.take_sublist k s)
      · exact ih (hs.sublist (List.drop_sublist k s)) (by rw [List.length_drop]; omega) c hc

omit [LinearOrder α] in
theorem splitLengths_flatten (C : List (List α)) : (C.map List.length).splitLengths C.flatten = C := by
  induction C with
  | nil => rfl
  | cons c C ih => rw [List.map_cons, List.splitLengths_cons, List.flatten_cons, List.take_left, List.drop_left, ih]

theorem splitLengths_le (hs : s.Pairwise (· ≤ ·)) (h : Cuts sizes s C) : sizes.splitLengths s ≤ C := by
  induction sizes generalizing s C with
  | nil => exact not_lt.mp (List.not_lt_nil _)
  | cons k sizes ih =>
    cases C with
    | nil => exact absurd h.lengths nofun
    | cons c C =>
      have hlen : c.length = k := (List.cons.inj h.lengths).1
      have hle := take_le hs h.perm
      rw [List.splitLengths_cons]
      rw [hlen] at hle
      rcases lt_or_eq_of_le hle with hlt | heq
      · exact le_of_lt (lt_cons_iff.mpr (Or.inl hlt))
      · have hperm := h.perm
        rw [← List.take_append_drop k s, heq, List.flatten_cons, List.perm_append_left_iff] at hperm
        rw [heq]
        exact cons_le_cons _ (ih (hs.sublist (List.drop_sublist k s))
          ⟨(List.cons.inj h.lengths).2, hperm, fun d hd => h.sorted d (List.mem_cons_of_mem c hd)⟩)

theorem Cuts.advances_tail (h : Cuts (k :: sizes) s (a :: C))
    (hC : Advances (Cuts sizes C.flatten) C (some C')) :
    Advances (Cuts (k :: sizes) s) (a :: C) (some (a :: C')) :=
  advances_cons ⟨(cuts_cons_iff h).mpr hC.1, hC.2⟩

theorem Cuts.noGap_tail (h : Cuts (k :: sizes) s (a :: C)) (hC : NoGap (Cuts sizes C.flatten) C (some C')) :
    NoGap (Cuts (k :: sizes) s) (a :: C) (some (a :: C')) :=
  noGap_cons fun b hb c hc => hC b hb c ((cuts_cons_iff h).mp hc)

theorem Cuts.tail_greatest (h : Cuts (k :: sizes) s (a :: C)) (hC : Advances (Cuts sizes C.flatten) C none) :
    Advances (fun C' => Cuts (k :: sizes) s (a :: C')) C none :=
  fun c hc => hC c ((cuts_cons_iff h).mp hc)

theorem Cuts.head_of (h : Cuts (k :: sizes) s (a :: C)) {c : List α} (h' : Cuts (k :: sizes) s (c :: C')) :
    c.Pairwise (· ≤ ·) ∧ c.length = a.length ∧ (c ++ C'.flatten).Perm (a ++ C.flatten) :=
  ⟨h'.sorted c List.mem_cons_self, ((List.cons.inj h'.lengths).1).trans (List.cons.inj h.lengths).1.symm,
    h'.perm.trans h.perm.symm⟩

theorem Cuts.advances_none (h : Cuts (k :: sizes) s (a :: C)) (hC : Advances (Cuts sizes C.flatten) C none)
    (hfree : ∀ x ∈ a, ∀ y ∈ C.flatten, y ≤ x) : Advances (Cuts (k :: sizes) s) (a :: C) none := by
  apply advances_cons_none (h.tail_greatest hC)
  intro c C' h'
  obtain ⟨hc, hlen, hperm⟩ := h.head_of h'
  exact le_of_no_rise (h.sorted a List.mem_cons_self) hc hlen hperm hfree

section Exchanged
variable {x y : α} {pre post : List α} (h : Cuts (k :: sizes) s ((pre ++ x :: post) :: C))
  (he : Exchange x post y C.flatten) (ht : t.Pairwise (· ≤ ·)) (hperm : t.Perm (x :: C.flatten.erase y))
include h he hperm

theorem Cuts.exchange_perm : (pre ++ y :: post ++ t).Perm s :=
  ((hperm.append_left _).trans (he.perm pre)).trans h.perm

include ht

theorem Cuts.advances_exchange :
    Advances (Cuts (k :: sizes) s) ((pre ++ x :: post) :: C) (some ((pre ++ y :: post) :: sizes.splitLengths t)) := by
  refine ⟨?_, lt_cons_iff.mpr (Or.inl (he.lt_append pre))⟩
  have hlen := (List.cons.inj h.lengths).1
  apply cuts_cons _ (he.sorted (h.sorted _ List.mem_cons_self)) (h.exchange_perm he hperm)
  · apply cuts_splitLengths ht
    have hsum := congrArg List.sum h.tail.lengths
    rw [← List.length_flatten] at hsum
    rw [← hsum, hperm.length_eq, List.length_cons, List.length_erase_of_mem he.mem]
    have hpos := List.length_pos_of_mem he.mem
    omega
  · rw [← hlen, List.length_append, List.length_append]
    rfl

theorem Cuts.noGap_exchange (hC : Advances (Cuts sizes C.flatten) C none) (hthin : Thin s ∨ k = 1) :
    NoGap (Cuts (k :: sizes) s) ((pre ++ x :: post) :: C)
      (some ((pre ++ y :: post) :: sizes.splitLengths t)) := by
  have hsame : post = [] ∨ ∀ c ∈ post ++ C.flatten.erase y, ∀ d ∈ post ++ C.flatten.erase y,
      y ≤ c → y ≤ d → c = d := by
    rcases hthin with hthin | hone
    · right
      apply he.same_of_thin hthin
      apply List.Subperm.trans _ h.perm.subperm
      rw [List.flatten_cons, List.append_assoc]
      exact (List.sublist_append_right pre _).subperm
    · left
      have hlen := (List.cons.inj h.lengths).1
      rw [hone, List.length_append, List.length_cons] at hlen
      exact List.length_eq_zero_iff.mp (by omega)
  apply noGap_head (h.tail_greatest hC)
  · intro c C' h' hlt
    obtain ⟨hc, hlen, hall⟩ := h.head_of h'
    exact he.le_of_lt (h.sorted _ List.mem_cons_self) hsame hc hlen hall hlt
  · intro C' h'
    apply splitLengths_le ht
    refine ⟨(List.cons.inj h'.lengths).2, ?_, fun c hc => h'.sorted c (List.mem_cons_of_mem _ hc)⟩
    exact (List.perm_append_left_iff _).mp (h'.perm.trans (h.exchange_perm he hperm).symm)

end Exchanged

end Cuts

end Period.SortedParts
