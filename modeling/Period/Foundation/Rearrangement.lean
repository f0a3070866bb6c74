import Mathlib.Data.Finset.Sort
import Mathlib.Data.List.Lex
import Mathlib.Data.List.Permutation
import Mathlib.Data.Nat.Factorial.Basic
import Period.Foundation.Enumeration

/-!
# Rearrangements in lexicographic order

The rearrangements of a list form a finite linear order. The least one is sorted, the
greatest one is sorted backwards, and the next one after a list changes the part behind
the last rise.
-/

namespace Period.Rearrangement

open Enumeration
set_option autoImplicit false

universe u v
variable {α : Type u} [LinearOrder α]

theorem lt_cons_iff {a b : α} {l l' : List α} :
    a :: l < b :: l' ↔ a < b ∨ a = b ∧ l < l' := List.cons_lt_cons_iff

theorem le_cons_iff {a b : α} {l l' : List α} :
    a :: l ≤ b :: l' ↔ a < b ∨ a = b ∧ l ≤ l' := by
  rw [← not_lt, lt_cons_iff, not_or, not_and, not_lt, not_lt, le_iff_lt_or_eq]
  constructor
  · rintro ⟨hlt | rfl, htail⟩
    · exact Or.inl hlt
    · exact Or.inr ⟨rfl, htail rfl⟩
  · rintro (hlt | ⟨rfl, htail⟩)
    · exact ⟨Or.inl hlt, fun heq => absurd heq (ne_of_gt hlt)⟩
    · exact ⟨Or.inr rfl, fun _ => htail⟩

theorem cons_le_cons (a : α) {l l' : List α} (h : l ≤ l') : a :: l ≤ a :: l' :=
  le_cons_iff.mpr (Or.inr ⟨rfl, h⟩)

/-- Lists with rising first elements, each followed by sorted rests. -/
theorem flatMap_cons_sorted {β : Type v} {xs : List β} {first : β → α} {rests : β → List (List α)}
    (hxs : xs.Pairwise fun x y => first x < first y) (hrests : ∀ x ∈ xs, (rests x).Pairwise (· < ·)) :
    (xs.flatMap fun x => (rests x).map (first x :: ·)).Pairwise (· < ·) := by
  rw [List.pairwise_flatMap]
  constructor
  · intro x hx
    rw [List.pairwise_map]
    exact (hrests x hx).imp fun h => lt_cons_iff.mpr (Or.inr ⟨rfl, h⟩)
  · apply hxs.imp
    intro x y hlt l hl l' hl'
    obtain ⟨r, _, rfl⟩ := List.mem_map.mp hl
    obtain ⟨r', _, rfl⟩ := List.mem_map.mp hl'
    exact lt_cons_iff.mpr (Or.inl hlt)

theorem append_lt_append (pre : List α) {l l' : List α} (h : l < l') : pre ++ l < pre ++ l' := by
  induction pre with
  | nil => exact h
  | cons a pre ih => exact lt_cons_iff.mpr (Or.inr ⟨rfl, ih⟩)

theorem le_of_perm {s l : List α} (hs : s.Pairwise (· ≤ ·)) (hl : l.Perm s) : s ≤ l := by
  induction s generalizing l with
  | nil => rw [List.perm_nil.mp hl]
  | cons a s ih =>
    obtain ⟨ha, hs⟩ := List.pairwise_cons.mp hs
    cases l with
    | nil => exact absurd hl.length_eq (Nat.succ_ne_zero _).symm
    | cons b l =>
      have hall : ∀ c ∈ a :: s, a ≤ c := List.forall_mem_cons.mpr ⟨le_refl a, ha⟩
      have hb := hall b (hl.mem_iff.mp List.mem_cons_self)
      rcases lt_or_eq_of_le hb with hlt | rfl
      · exact le_of_lt (lt_cons_iff.mpr (Or.inl hlt))
      · exact cons_le_cons _ (ih hs (List.Perm.cons_inv hl))

/-- A list sorted backwards is the greatest of its rearrangements. -/
theorem ge_of_perm {s l : List α} (hs : s.Pairwise (· ≥ ·)) (hl : l.Perm s) : l ≤ s := by
  induction s generalizing l with
  | nil => rw [List.perm_nil.mp hl]
  | cons a s ih =>
    obtain ⟨ha, htail⟩ := List.pairwise_cons.mp hs
    cases l with
    | nil => exact absurd hl.length_eq (Nat.succ_ne_zero _).symm
    | cons b l =>
      have hall : ∀ c ∈ a :: s, c ≤ a := List.forall_mem_cons.mpr ⟨le_refl a, ha⟩
      have hb := hall b (hl.mem_iff.mp List.mem_cons_self)
      rcases lt_or_eq_of_le hb with hlt | rfl
      · exact le_of_lt (lt_cons_iff.mpr (Or.inl hlt))
      · exact cons_le_cons _ (ih htail (List.Perm.cons_inv hl))

/-- `x` stands before a part that falls; read backwards that part is `lows`, none above `x`,
then `y`, above `x`, then `highs`. -/
structure LastRise (x y : α) (lows highs : List α) : Prop where
  sorted : (lows ++ y :: highs).Pairwise (· ≤ ·)
  lows_le : ∀ z ∈ lows, z ≤ x
  lt : x < y

namespace LastRise
variable {x y : α} {lows highs front : List α}

/-- The list with the rise, and its successor. -/
def before (front : List α) (x y : α) (lows highs : List α) : List α :=
  front ++ x :: (lows ++ y :: highs).reverse

def after (front : List α) (x y : α) (lows highs : List α) : List α :=
  front ++ y :: (lows ++ x :: highs)

theorem tail_sorted (h : LastRise x y lows highs) : (lows ++ x :: highs).Pairwise (· ≤ ·) := by
  have hsorted := h.sorted
  rw [List.pairwise_append, List.pairwise_cons] at hsorted ⊢
  obtain ⟨hlows, ⟨hy, hhighs⟩, hcross⟩ := hsorted
  refine ⟨hlows, ⟨fun z hz => le_of_lt (lt_of_lt_of_le h.lt (hy z hz)), hhighs⟩, fun z hz w hw => ?_⟩
  rcases List.mem_cons.mp hw with rfl | hw
  · exact h.lows_le z hz
  · exact hcross z hz w (List.mem_cons_of_mem y hw)

omit [LinearOrder α] in
theorem tail_perm : (y :: (lows ++ x :: highs)).Perm (x :: (lows ++ y :: highs).reverse) := by
  have hrev := (List.reverse_perm (lows ++ y :: highs)).cons x
  apply List.Perm.trans _ hrev.symm
  have hx : (y :: (lows ++ x :: highs)).Perm (y :: x :: (lows ++ highs)) := List.perm_middle.cons y
  have hy : (x :: (lows ++ y :: highs)).Perm (x :: y :: (lows ++ highs)) := List.perm_middle.cons x
  exact hx.trans ((List.Perm.swap x y _).trans hy.symm)

omit [LinearOrder α] in
theorem after_perm : (after front x y lows highs).Perm (before front x y lows highs) :=
  tail_perm.append_left front

theorem before_lt_after (h : LastRise x y lows highs) :
    before front x y lows highs < after front x y lows highs :=
  append_lt_append front (lt_cons_iff.mpr (Or.inl h.lt))

/-- Nothing lies between. The front can only change when the part behind it is used up. -/
theorem after_le (h : LastRise x y lows highs) {l : List α}
    (hl : l.Perm (before front x y lows highs)) (hlt : before front x y lows highs < l) :
    after front x y lows highs ≤ l := by
  induction front generalizing l with
  | nil =>
    cases l with
    | nil => exact absurd hlt (List.not_lt_nil _)
    | cons b l =>
      rcases lt_cons_iff.mp hlt with hxb | ⟨rfl, htail⟩
      · have hb : b ∈ lows ++ y :: highs := by
          rcases List.mem_cons.mp (hl.mem_iff.mp List.mem_cons_self) with rfl | hb
          · exact absurd hxb (lt_irrefl b)
          · exact List.mem_reverse.mp hb
        have hyb : y ≤ b := by
          rcases List.mem_append.mp hb with hlow | hhigh
          · exact absurd (h.lows_le b hlow) (not_le.mpr hxb)
          · rcases List.mem_cons.mp hhigh with rfl | hhigh
            · exact le_refl b
            · exact (List.pairwise_cons.mp (List.pairwise_append.mp h.sorted).2.1).1 b hhigh
        rcases lt_or_eq_of_le hyb with hlt | rfl
        · exact le_of_lt (lt_cons_iff.mpr (Or.inl hlt))
        · have hrest : l.Perm (lows ++ x :: highs) := List.Perm.cons_inv (hl.trans tail_perm.symm)
          exact cons_le_cons _ (le_of_perm h.tail_sorted hrest)
      · -- the falling part has no greater rearrangement
        have hfall : ((lows ++ y :: highs).reverse).Pairwise (· ≥ ·) := List.pairwise_reverse.mpr h.sorted
        exact absurd htail (not_lt.mpr (ge_of_perm hfall (List.Perm.cons_inv hl)))
  | cons a front ih =>
    cases l with
    | nil => exact absurd hlt (List.not_lt_nil _)
    | cons b l =>
      rcases lt_cons_iff.mp hlt with hab | ⟨rfl, htail⟩
      · exact le_of_lt (lt_cons_iff.mpr (Or.inl hab))
      · exact cons_le_cons _ (ih (List.Perm.cons_inv hl) htail)

end LastRise

/-! ## Walking through a sorted list -/

/-- `b` is what comes after `a` among the elements of `l`, if anything does. -/
def Succeeds (l : List α) (a : α) : Option α → Prop
  | none => ∀ c ∈ l, c ≤ a
  | some b => b ∈ l ∧ a < b ∧ ∀ c ∈ l, a < c → b ≤ c

theorem mem_after_of_lt {pre post : List α} {a c : α} (hl : (pre ++ a :: post).Pairwise (· < ·))
    (hc : c ∈ pre ++ a :: post) (hac : a < c) : c ∈ post := by
  rcases List.mem_append.mp hc with hc | hc
  · have hca := (List.pairwise_append.mp hl).2.2 c hc a List.mem_cons_self
    exact absurd hca (not_lt.mpr (le_of_lt hac))
  · rcases List.mem_cons.mp hc with rfl | hc
    · exact absurd hac (lt_irrefl c)
    · exact hc

theorem walksTo_of_succeeds {next : α → Option α} {l : List α} (hl : l.Pairwise (· < ·))
    (hnext : ∀ a ∈ l, Succeeds l a (next a)) : WalksTo next l none := by
  have hwalk : ∀ post pre, l = pre ++ post → WalksTo next post none := by
    intro post
    induction post with
    | nil => exact fun _ _ => trivial
    | cons a post ih =>
      intro pre hsplit
      refine ⟨?_, ih (pre ++ [a]) (by rw [hsplit, List.append_assoc]; rfl)⟩
      have ha : a ∈ l := by simp [hsplit]
      have hgreater : ∀ c ∈ l, a < c → c ∈ post := by
        rw [hsplit] at hl ⊢
        exact fun c hc hac => mem_after_of_lt hl hc hac
      have hsorted := hl
      rw [hsplit, List.pairwise_append, List.pairwise_cons] at hsorted
      obtain ⟨_, ⟨hafter, hpost⟩, _⟩ := hsorted
      have hsucc := hnext a ha
      cases hb : next a with
      | none =>
        rw [hb] at hsucc
        cases post with
        | nil => rfl
        | cons c post =>
          have hc : c ∈ l := by simp [hsplit]
          exact absurd (hafter c List.mem_cons_self) (not_lt.mpr (hsucc c hc))
      | some b =>
        rw [hb] at hsucc
        obtain ⟨hbl, hab, hleast⟩ := hsucc
        have hbpost := hgreater b hbl hab
        cases post with
        | nil => exact absurd hbpost List.not_mem_nil
        | cons c post =>
          have hc : c ∈ l := by simp [hsplit]
          have hbc : b ≤ c := hleast c hc (hafter c List.mem_cons_self)
          have hcb : c ≤ b := by
            rcases List.mem_cons.mp hbpost with rfl | hbpost
            · exact le_refl b
            · exact le_of_lt ((List.pairwise_cons.mp hpost).1 b hbpost)
          rw [le_antisymm hbc hcb]
          rfl
  exact hwalk l [] rfl

theorem succeeds_of_walksTo {next : α → Option α} {l : List α} (hl : l.Pairwise (· < ·))
    (hw : WalksTo next l none) {a : α} (ha : a ∈ l) : Succeeds l a (next a) := by
  obtain ⟨pre, post, rfl⟩ := List.append_of_mem ha
  have hgreater : ∀ c ∈ pre ++ a :: post, a < c → c ∈ post := fun c hc hac => mem_after_of_lt hl hc hac
  rw [List.pairwise_append, List.pairwise_cons] at hl
  obtain ⟨_, ⟨hafter, hpost⟩, _⟩ := hl
  rw [walksTo_at hw rfl, Option.or_none]
  cases post with
  | nil => exact fun c hc => not_lt.mp fun hac => List.not_mem_nil (hgreater c hc hac)
  | cons b post =>
    refine ⟨by simp, hafter b List.mem_cons_self, fun c hc hac => ?_⟩
    rcases List.mem_cons.mp (hgreater c hc hac) with rfl | hc
    · exact le_refl c
    · exact le_of_lt ((List.pairwise_cons.mp hpost).1 c hc)

section Least
variable {l : List α} {a b : α} {next : Option α}

theorem head?_eq_some_iff_isLeast (hl : l.Pairwise (· < ·)) : l.head? = some a ↔ IsLeast {c | c ∈ l} a := by
  cases l with
  | nil => exact ⟨nofun, fun h => absurd h.1 List.not_mem_nil⟩
  | cons b l =>
    have hleast : IsLeast {c | c ∈ b :: l} b := by
      refine ⟨List.mem_cons_self, fun c hc => ?_⟩
      rcases List.mem_cons.mp hc with rfl | hc
      · exact le_refl c
      · exact le_of_lt ((List.pairwise_cons.mp hl).1 c hc)
    rw [List.head?_cons, Option.some.injEq]
    constructor
    · rintro rfl
      exact hleast
    · exact hleast.unique

theorem Succeeds.eq_some_iff (h : Succeeds l a next) : next = some b ↔ IsLeast {c | c ∈ l ∧ a < c} b := by
  cases next with
  | none =>
    refine ⟨nofun, fun hleast => ?_⟩
    exact absurd hleast.1.2 (not_lt.mpr (h b hleast.1.1))
  | some c =>
    obtain ⟨hc, hac, hleast⟩ := h
    have hleast : IsLeast {c | c ∈ l ∧ a < c} c := ⟨⟨hc, hac⟩, fun d hd => hleast d hd.1 hd.2⟩
    rw [Option.some.injEq]
    constructor
    · rintro rfl
      exact hleast
    · exact hleast.unique

theorem Succeeds.eq_none_iff (h : Succeeds l a next) : next = none ↔ ∀ c ∈ l, c ≤ a := by
  cases next with
  | none => exact ⟨fun _ => h, fun _ => rfl⟩
  | some c => exact ⟨nofun, fun hle => absurd h.2.1 (not_lt.mpr (hle c h.1))⟩

end Least

def rearrangements (l : List α) : List (List α) := l.permutations.toFinset.sort

theorem mem_rearrangements {l l' : List α} : l' ∈ rearrangements l ↔ l'.Perm l := by
  rw [rearrangements, Finset.mem_sort, List.mem_toFinset, List.mem_permutations]

theorem rearrangements_sorted (l : List α) : (rearrangements l).Pairwise (· < ·) :=
  (Finset.sortedLT_sort _).pairwise

theorem rearrangements_eq_cons {s : List α} (hs : s.Pairwise (· ≤ ·)) :
    ∃ rest, rearrangements s = s :: rest := by
  have hleast : IsLeast {l | l ∈ rearrangements s} s :=
    ⟨mem_rearrangements.mpr (List.Perm.refl s), fun l hl => le_of_perm hs (mem_rearrangements.mp hl)⟩
  exact List.head?_eq_some_iff.mp ((head?_eq_some_iff_isLeast (rearrangements_sorted s)).mpr hleast)

theorem eq_of_sorted {ls ls' : List (List α)} (hls : ls.Pairwise (· < ·)) (hls' : ls'.Pairwise (· < ·))
    (h : ∀ l, l ∈ ls ↔ l ∈ ls') : ls = ls' := by
  apply List.Perm.eq_of_pairwise' (hls.imp le_of_lt) (hls'.imp le_of_lt)
  exact (List.perm_ext_iff_of_nodup (hls.imp ne_of_lt) (hls'.imp ne_of_lt)).mpr h

/-- A strictly sorted list of all rearrangements is this one. -/
theorem eq_rearrangements {l : List α} {out : List (List α)} (hsorted : out.Pairwise (· < ·))
    (hmem : ∀ l', l' ∈ out ↔ l'.Perm l) : out = rearrangements l :=
  eq_of_sorted hsorted (rearrangements_sorted l) fun l' => (hmem l').trans mem_rearrangements.symm

def later (l : List α) : List (List α) := (rearrangements l).filter (l < ·)

theorem mem_later {l l' : List α} : l' ∈ later l ↔ l'.Perm l ∧ l < l' := by
  rw [later, List.mem_filter, mem_rearrangements, decide_eq_true_iff]

theorem later_sorted (l : List α) : (l :: later l).Pairwise (· < ·) :=
  List.pairwise_cons.mpr ⟨fun _ hl => (mem_later.mp hl).2, (rearrangements_sorted l).filter _⟩

theorem rearrangements_eq_later (l : List α) :
    rearrangements l = (rearrangements l).filter (· < l) ++ l :: later l := by
  apply eq_of_sorted (rearrangements_sorted l)
  · refine List.pairwise_append.mpr ⟨(rearrangements_sorted l).filter _, later_sorted l, ?_⟩
    intro a ha b hb
    have ha : a < l := by simpa using (List.mem_filter.mp ha).2
    rcases List.mem_cons.mp hb with rfl | hb
    · exact ha
    · exact lt_trans ha (mem_later.mp hb).2
  · intro a
    rw [List.mem_append, List.mem_cons, List.mem_filter, mem_later, mem_rearrangements]
    simp only [decide_eq_true_iff]
    constructor
    · intro ha
      rcases lt_trichotomy a l with hlt | rfl | hgt
      · exact Or.inl ⟨ha, hlt⟩
      · exact Or.inr (Or.inl rfl)
      · exact Or.inr (Or.inr ⟨ha, hgt⟩)
    · rintro (⟨ha, _⟩ | rfl | ⟨ha, _⟩)
      · exact ha
      · exact List.Perm.refl a
      · exact ha

theorem length_later_lt (l : List α) : (later l).length < l.length.factorial := by
  have hlen : (rearrangements l).length ≤ l.length.factorial := by
    rw [rearrangements, Finset.length_sort, ← List.length_permutations]
    exact List.toFinset_card_le _
  rw [rearrangements_eq_later, List.length_append, List.length_cons] at hlen
  omega

/-- A word that comes later leaves the prefix where it has a greater letter. -/
theorem leaves_iff {pre s l : List α} :
    pre ++ s < l ∧ ¬ pre <+: l ↔
      ∃ front y back z rest, pre = front ++ y :: back ∧ l = front ++ z :: rest ∧ y < z := by
  constructor
  · rintro ⟨hlt, hl⟩
    induction pre generalizing l with
    | nil => exact absurd List.nil_prefix hl
    | cons a pre ih =>
      cases l with
      | nil => exact absurd hlt (List.not_lt_nil _)
      | cons b l =>
        rcases lt_cons_iff.mp hlt with hab | ⟨rfl, htail⟩
        · exact ⟨[], a, pre, b, l, rfl, rfl, hab⟩
        · obtain ⟨front, y, back, z, rest, rfl, rfl, hyz⟩ :=
            ih htail fun h => hl (List.cons_prefix_cons.mpr ⟨rfl, h⟩)
          exact ⟨a :: front, y, back, z, rest, rfl, rfl, hyz⟩
  · rintro ⟨front, y, back, z, rest, rfl, rfl, hyz⟩
    rw [List.append_assoc, List.cons_append, List.prefix_append_right_inj]
    refine ⟨append_lt_append front (lt_cons_iff.mpr (Or.inl hyz)), fun h => ?_⟩
    exact absurd (List.cons_prefix_cons.mp h).1 (ne_of_lt hyz)

theorem lt_of_leaves {pre s t l : List α} (hlt : pre ++ s < l) (hl : ¬ pre <+: l) : pre ++ t < l :=
  (leaves_iff.mpr (leaves_iff.mp ⟨hlt, hl⟩)).1

/-- The words from `pre ++ s` on: those that keep the prefix, then those that have left it. -/
theorem cons_later_append {pre s : List α} (hs : s.Pairwise (· ≤ ·)) :
    (pre ++ s) :: later (pre ++ s) =
      (rearrangements s).map (pre ++ ·) ++ (later (pre ++ s)).filter (¬ pre <+: ·) := by
  have hle : ∀ t : List α, t.Perm s → pre ++ t = pre ++ s ∨ (pre ++ t).Perm (pre ++ s) ∧ pre ++ s < pre ++ t := by
    intro t ht
    rcases eq_or_lt_of_le (le_of_perm hs ht) with rfl | hlt
    · exact Or.inl rfl
    · exact Or.inr ⟨ht.append_left pre, append_lt_append pre hlt⟩
  apply eq_of_sorted (later_sorted _)
  · refine List.pairwise_append.mpr ⟨?_, ((later_sorted _).of_cons).filter _, ?_⟩
    · rw [List.pairwise_map]
      exact (rearrangements_sorted s).imp (append_lt_append pre)
    · intro a ha b hb
      obtain ⟨t, _, rfl⟩ := List.mem_map.mp ha
      obtain ⟨hb, hleft⟩ := List.mem_filter.mp hb
      exact lt_of_leaves (mem_later.mp hb).2 (of_decide_eq_true hleft)
  · intro l
    simp only [List.mem_cons, List.mem_append, List.mem_map, List.mem_filter, mem_later, mem_rearrangements,
      decide_eq_true_iff]
    constructor
    · rintro (rfl | ⟨hperm, hlt⟩)
      · exact Or.inl ⟨s, List.Perm.refl s, rfl⟩
      · by_cases hpre : pre <+: l
        · obtain ⟨t, rfl⟩ := hpre
          exact Or.inl ⟨t, (List.perm_append_left_iff pre).mp hperm, rfl⟩
        · exact Or.inr ⟨⟨hperm, hlt⟩, hpre⟩
    · rintro (⟨t, ht, rfl⟩ | ⟨hl, _⟩)
      · exact hle t ht
      · exact Or.inr hl

theorem count_flatMap_replicate (f : Nat → Nat) (n t : Nat) :
    ((List.range n).flatMap fun i => List.replicate (f i) i).count t = if t < n then f t else 0 := by
  induction n with
  | zero => rfl
  | succ n ih =>
    rw [List.range_succ, List.flatMap_append, List.flatMap_singleton, List.count_append, ih,
      List.count_replicate]
    simp only [beq_iff_eq]
    rcases Nat.lt_trichotomy t n with h | h | h
    · rw [if_pos h, if_neg (by omega), if_pos (by omega), Nat.add_zero]
    · subst h
      rw [if_neg (Nat.lt_irrefl t), if_pos rfl, if_pos (Nat.lt_succ_self t), Nat.zero_add]
    · rw [if_neg (by omega), if_neg (by omega), if_neg (by omega)]

theorem pairwise_flatMap_replicate (f : Nat → Nat) (n : Nat) :
    ((List.range n).flatMap fun i => List.replicate (f i) i).Pairwise (· ≤ ·) := by
  induction n with
  | zero => exact List.Pairwise.nil
  | succ n ih =>
    rw [List.range_succ, List.flatMap_append, List.flatMap_singleton]
    apply List.pairwise_append.mpr
    refine ⟨ih, List.pairwise_replicate.mpr (Or.inr (Nat.le_refl n)), ?_⟩
    intro a ha b hb
    obtain ⟨i, hi, ha⟩ := List.mem_flatMap.mp ha
    obtain rfl := List.eq_of_mem_replicate ha
    obtain rfl := List.eq_of_mem_replicate hb
    exact Nat.le_of_lt (List.mem_range.mp hi)

end Period.Rearrangement
