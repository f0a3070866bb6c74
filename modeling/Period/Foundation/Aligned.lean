import Mathlib.Data.List.Basic
import Mathlib.Data.List.Forall2
import Mathlib.Data.List.Perm.Basic
import Mathlib.Logic.Function.Basic

/-!
# Threads on aligned periods

All threads have periods of the same length that begin together. A thread that gives up
running sleeps until the next period begins; a thread that is awake when a period ends has
missed its end. What a thread does is then placed by two counters.
-/

namespace Period.Aligned

set_option autoImplicit false

universe u
variable {ι : Type u}

structure Clock (ι : Type u) where
  /-- The number of the period. -/
  now : Nat
  asleep : ι → Bool
  /-- How often a thread has gone to sleep. -/
  naps : ι → Nat
  /-- How many period ends have found a thread awake. -/
  missed : ι → Nat

namespace Clock

def start : Clock ι where
  now := 0
  asleep := fun _ => false
  naps := fun _ => 0
  missed := fun _ => 0

def yield [DecidableEq ι] (c : Clock ι) (i : ι) : Clock ι :=
  { c with
    asleep := Function.update c.asleep i true
    naps := Function.update c.naps i (c.naps i + 1) }

def tick (c : Clock ι) : Clock ι where
  now := c.now + 1
  asleep := fun _ => false
  naps := c.naps
  missed := fun i => if c.asleep i then c.missed i else c.missed i + 1

/-- Every period end has found every thread asleep or awake. -/
def Even (c : Clock ι) : Prop :=
  ∀ i, c.now + (if c.asleep i then 1 else 0) = c.naps i + c.missed i

theorem even_start : (start : Clock ι).Even := fun _ => rfl

theorem Even.yield [DecidableEq ι] {c : Clock ι} (h : c.Even) {i : ι} (hi : c.asleep i = false) :
    (c.yield i).Even := by
  intro j
  have hj := h j
  by_cases hji : j = i
  · subst hji
    simp only [hi, Bool.false_eq_true, if_false] at hj
    simp only [Clock.yield, Function.update_self, if_true]
    omega
  · simpa only [Clock.yield, Function.update_of_ne hji] using hj

theorem Even.tick {c : Clock ι} (h : c.Even) : c.tick.Even := by
  intro i
  have hi := h i
  simp only [Clock.tick, Bool.false_eq_true, if_false]
  by_cases hasleep : c.asleep i = true
  · rw [if_pos hasleep] at hi ⊢
    exact hi
  · rw [if_neg hasleep] at hi ⊢
    omega

/-- A thread that runs is in the period given by its naps and the ends it has missed. -/
theorem Even.now_eq {c : Clock ι} (h : c.Even) {i : ι} (hi : c.asleep i = false) :
    c.now = c.naps i + c.missed i := by
  have := h i
  rwa [hi] at this

end Clock

section Timeline
variable {α : Type u} {period : α → Nat} {log : List α}
  (hlog : log.Pairwise fun a b => period a ≤ period b)
include hlog

theorem eq_before_append (n : Nat) :
    log = (log.filter fun a => period a < n) ++ log.filter fun a => n ≤ period a := by
  induction log with
  | nil => rfl
  | cons a log ih =>
    obtain ⟨ha, hlog⟩ := List.pairwise_cons.mp hlog
    by_cases han : period a < n
    · rw [List.filter_cons_of_pos (by simpa using han), List.filter_cons_of_neg (by simpa using han),
        List.cons_append, ← ih hlog]
    · have hnone : log.filter (fun b => period b < n) = [] :=
        List.filter_eq_nil_iff.mpr fun b hb => by
          have := ha b hb
          simp
          omega
      have hrest := ih hlog
      rw [hnone, List.nil_append] at hrest
      rw [List.filter_cons_of_neg (by simpa using han), List.filter_cons_of_pos (by simpa using han),
        hnone, List.nil_append, ← hrest]

/-- A log in the order of its periods is the logs of the periods one after the other. -/
theorem eq_flatMap_filter {n : Nat} (hn : ∀ a ∈ log, period a < n) :
    log = (List.range n).flatMap fun j => log.filter fun a => period a = j := by
  induction n generalizing log with
  | zero =>
    cases log with
    | nil => rfl
    | cons a log => exact absurd (hn a List.mem_cons_self) (Nat.not_lt_zero _)
  | succ n ih =>
    have hbefore := ih (hlog.filter fun a => period a < n) fun a ha => by
      simpa using (List.mem_filter.mp ha).2
    have hsame : ∀ j ∈ List.range n, ((log.filter fun a => period a < n).filter fun a => period a = j) =
        log.filter fun a => period a = j := by
      intro j hj
      have hj := List.mem_range.mp hj
      rw [List.filter_filter]
      apply List.filter_congr
      intro a _
      by_cases ha : period a = j
      · simp [ha, hj]
      · simp [ha]
    have hlast : (log.filter fun a => n ≤ period a) = log.filter fun a => period a = n := by
      apply List.filter_congr
      intro a ha
      have := hn a ha
      simp only [decide_eq_decide]
      omega
    rw [List.flatMap_congr hsame] at hbefore
    rw [List.range_succ, List.flatMap_append, List.flatMap_singleton, ← hbefore, ← hlast]
    exact eq_before_append hlog n

/-- Logs of the periods that agree with blocks up to their order are an arrangement of the blocks. -/
theorem exists_arrangement {β : Type u} {f : α → β} {blocks : List (List β)}
    (hn : ∀ a ∈ log, period a < blocks.length)
    (hblocks : ∀ j block, blocks[j]? = some block →
      ((log.filter fun a => period a = j).map f).Perm block) :
    ∃ order, List.Forall₂ List.Perm order blocks ∧ log.map f = order.flatten := by
  refine ⟨(List.range blocks.length).map fun j => (log.filter fun a => period a = j).map f, ?_, ?_⟩
  · rw [List.forall₂_iff_get]
    refine ⟨by simp, fun j hj hj' => ?_⟩
    simpa using hblocks j blocks[j] (List.getElem?_eq_getElem hj')
  · conv_lhs => rw [eq_flatMap_filter hlog hn]
    rw [List.map_flatMap, List.flatMap_def]

end Timeline

/-- What is ordered by `lt` comes in this order in a list in which nothing is behind a later one. -/
theorem sublist_of_respected {α : Type u} {lt : α → α → Prop} (hirrefl : ∀ a, ¬ lt a a) {log chain : List α}
    (hlog : log.Pairwise fun a b => ¬ lt b a) (hchain : chain.Pairwise lt)
    (hmem : ∀ a ∈ chain, a ∈ log) : chain.Sublist log := by
  induction log generalizing chain with
  | nil =>
    cases chain with
    | nil => exact List.Sublist.refl []
    | cons a chain => exact absurd (hmem a List.mem_cons_self) List.not_mem_nil
  | cons b log ih =>
    obtain ⟨hb, htail⟩ := List.pairwise_cons.mp hlog
    cases chain with
    | nil => exact List.nil_sublist _
    | cons a chain =>
      obtain ⟨ha, hrest⟩ := List.pairwise_cons.mp hchain
      have hbehind : ∀ c ∈ chain, c ∈ log := by
        intro c hc
        rcases List.mem_cons.mp (hmem c (List.mem_cons_of_mem a hc)) with rfl | hin
        · rcases List.mem_cons.mp (hmem a List.mem_cons_self) with rfl | hin
          · exact absurd (ha a hc) (hirrefl a)
          · exact absurd (ha c hc) (hb a hin)
        · exact hin
      rcases List.mem_cons.mp (hmem a List.mem_cons_self) with rfl | hin
      · exact List.Sublist.cons_cons a (ih htail hrest hbehind)
      · refine List.Sublist.cons b (ih htail hchain fun c hc => ?_)
        rcases List.mem_cons.mp hc with rfl | hc
        · exact hin
        · exact hbehind c hc

section Arrangements
variable {β : Type u}

theorem eq_of_perm_uniform {l l' : List β} (h : l.Perm l') (hl : ∀ a ∈ l', ∀ b ∈ l', a = b) : l = l' := by
  cases l' with
  | nil => exact h.eq_nil
  | cons b l' =>
    have hrep : b :: l' = List.replicate (l'.length + 1) b :=
      List.eq_replicate_iff.mpr ⟨rfl, fun a ha => hl a ha b List.mem_cons_self⟩
    rw [hrep] at h ⊢
    exact List.perm_replicate.mp h

theorem arrangement_refl (blocks : List (List β)) : List.Forall₂ List.Perm blocks blocks :=
  List.forall₂_same.mpr fun block _ => List.Perm.refl block

theorem eq_of_arrangement {order blocks : List (List β)} (horder : List.Forall₂ List.Perm order blocks)
    (h : ∀ block ∈ blocks, ∀ a ∈ block, ∀ b ∈ block, a = b) : order = blocks := by
  induction horder with
  | nil => rfl
  | cons hperm _ ih =>
    rw [eq_of_perm_uniform hperm (h _ List.mem_cons_self),
      ih fun block hblock => h block (List.mem_cons_of_mem _ hblock)]

/-- Blocks can be arranged in one way only exactly when no block has two different elements. -/
theorem arrangement_unique_iff {blocks : List (List β)} :
    (∀ order order', List.Forall₂ List.Perm order blocks → List.Forall₂ List.Perm order' blocks →
      order.flatten = order'.flatten) ↔ ∀ block ∈ blocks, ∀ a ∈ block, ∀ b ∈ block, a = b := by
  constructor
  · intro h block hblock a ha b hb
    obtain ⟨before, after, rfl⟩ := List.append_of_mem hblock
    have hfirst : ∀ c ∈ block, ∃ rest, List.Forall₂ List.Perm (before ++ (c :: rest) :: after)
        (before ++ block :: after) := by
      intro c hc
      obtain ⟨l, r, rfl⟩ := List.append_of_mem hc
      exact ⟨l ++ r, List.rel_append (arrangement_refl before)
        (List.Forall₂.cons List.perm_middle.symm (arrangement_refl after))⟩
    obtain ⟨rest, horder⟩ := hfirst a ha
    obtain ⟨rest', horder'⟩ := hfirst b hb
    have hflat := h _ _ horder horder'
    rw [List.flatten_append, List.flatten_append, List.append_cancel_left_eq, List.flatten_cons,
      List.flatten_cons, List.cons_append, List.cons_append] at hflat
    exact (List.cons.inj hflat).1
  · intro h order order' horder horder'
    rw [eq_of_arrangement horder h, eq_of_arrangement horder' h]

end Arrangements

end Period.Aligned
