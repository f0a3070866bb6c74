import Period.Foundation.Aligned
import Period.Scheduler.BugDepth

/-!
# Arrangements of a schedule

Within a period the key points may come in any order. A chain of key points is passed in its
order in every arrangement when each of its key points lies in a later period than the one
before, or comes after it in the same thread.
-/

namespace Period.Scheduler

open Aligned
set_option autoImplicit false

/-- The periods of the schedule with their key points in some order. -/
def Arranges (order sched : Schedule) : Prop := List.Forall₂ List.Perm order sched

/-- The key points of a word, `c t` ones of thread `t` being passed before. -/
def numberedFrom (c : Nat → Nat) : List Nat → List KeyPoint
  | [] => []
  | t :: w => (t, c t) :: numberedFrom (Function.update c t (c t + 1)) w

/-- The key points of a word: each thread with the number of its key point. -/
def numbered (w : List Nat) : List KeyPoint := numberedFrom (fun _ => 0) w

theorem update_add_count (c : Nat → Nat) (t : Nat) (w : List Nat) (u : Nat) :
    Function.update c t (c t + 1) u + w.count u = c u + (t :: w).count u := by
  by_cases hu : u = t
  · subst hu
    rw [Function.update_self, List.count_cons_self]
    omega
  · rw [Function.update_of_ne hu, List.count_cons_of_ne (Ne.symm hu)]

theorem numberedFrom_append (c : Nat → Nat) (w w' : List Nat) :
    numberedFrom c (w ++ w') = numberedFrom c w ++ numberedFrom (fun t => c t + w.count t) w' := by
  induction w generalizing c with
  | nil => rfl
  | cons t w ih =>
    have hcount := funext (update_add_count c t w)
    rw [List.cons_append, numberedFrom, numberedFrom, ih, hcount]
    rfl

theorem mem_numberedFrom {c : Nat → Nat} {w : List Nat} {x : KeyPoint} :
    x ∈ numberedFrom c w ↔ c x.1 ≤ x.2 ∧ x.2 < c x.1 + w.count x.1 := by
  induction w generalizing c with
  | nil =>
    rw [numberedFrom, List.count_nil]
    constructor
    · intro h
      cases h
    · omega
  | cons t w ih =>
    rw [numberedFrom, List.mem_cons, ih, update_add_count]
    by_cases ht : x.1 = t
    · subst ht
      rw [Function.update_self, List.count_cons_self, Prod.ext_iff]
      simp only [true_and]
      omega
    · rw [Function.update_of_ne ht, List.count_cons_of_ne (Ne.symm ht), Prod.ext_iff]
      simp [ht]

theorem mem_of_mem_numberedFrom {c : Nat → Nat} {w : List Nat} {x : KeyPoint} (h : x ∈ numberedFrom c w) :
    x.1 ∈ w := by
  obtain ⟨hlo, hhi⟩ := mem_numberedFrom.mp h
  exact List.count_pos_iff.mp (by omega)

theorem numberedFrom_increasing (c : Nat → Nat) (w : List Nat) :
    (numberedFrom c w).Pairwise fun a b => a.1 = b.1 → a.2 < b.2 := by
  induction w generalizing c with
  | nil => exact List.Pairwise.nil
  | cons t w ih =>
    refine List.Pairwise.cons (fun b hb hsame => ?_) (ih _)
    have hlo := (mem_numberedFrom.mp hb).1
    rw [← show t = b.1 from hsame, Function.update_self] at hlo
    exact hlo

section Periods
variable {sched : Schedule} {P : KeyPoint → KeyPoint → Prop}

theorem periodOf_of_mem_block {done todo : Schedule} {period block : List Nat}
    (hparts : sched = done ++ period :: todo) (hperm : block.Perm period) {x : KeyPoint}
    (hx : x ∈ numberedFrom (fun t => done.flatten.count t) block) : periodOf sched x.1 x.2 = done.length := by
  obtain ⟨hlo, hhi⟩ := mem_numberedFrom.mp hx
  apply periodOf_eq_of_liesIn
  refine ⟨?_, ?_⟩
  · rwa [hparts, List.take_left]
  · rw [hparts, List.take_length_add_append, List.flatten_append, List.count_append]
    rw [hperm.count_eq] at hhi
    simpa using hhi

/-- What holds between periods and within each of them holds along the whole word. -/
theorem numberedFrom_pairwise (done : Schedule) {todo order : Schedule} (hparts : sched = done ++ todo)
    (horder : Arranges order todo)
    (hlater : ∀ a b : KeyPoint, periodOf sched a.1 a.2 < periodOf sched b.1 b.2 → P a b)
    (hblock : ∀ c, ∀ block ∈ order,
      (∀ a ∈ numberedFrom c block, ∀ b ∈ numberedFrom c block,
        periodOf sched a.1 a.2 = periodOf sched b.1 b.2) → (numberedFrom c block).Pairwise P) :
    (numberedFrom (fun t => done.flatten.count t) order.flatten).Pairwise P ∧
      ∀ x ∈ numberedFrom (fun t => done.flatten.count t) order.flatten,
        done.length ≤ periodOf sched x.1 x.2 := by
  induction horder generalizing done with
  | nil => exact ⟨List.Pairwise.nil, fun _ hx => (nomatch hx)⟩
  | @cons block period order todo hperm horder ih =>
    have hcount : (fun t => done.flatten.count t + block.count t) =
        fun t => (done ++ [period]).flatten.count t := by
      funext t
      rw [List.flatten_append, List.count_append, List.flatten_singleton, hperm.count_eq]
    obtain ⟨hpair, hle⟩ := ih (done ++ [period]) (by rw [hparts, List.append_assoc]; rfl)
      fun c block hmem => hblock c block (List.mem_cons_of_mem _ hmem)
    have hhere := fun {x : KeyPoint} => @periodOf_of_mem_block sched done todo period block hparts hperm x
    rw [List.length_append, List.length_singleton] at hle
    rw [List.flatten_cons, numberedFrom_append, hcount]
    refine ⟨List.pairwise_append.mpr ⟨?_, hpair, fun a ha b hb => ?_⟩, fun x hx => ?_⟩
    · exact hblock _ block List.mem_cons_self fun a ha b hb => (hhere ha).trans (hhere hb).symm
    · apply hlater
      rw [hhere ha]
      exact hle b hb
    · rcases List.mem_append.mp hx with hx | hx
      · exact (hhere hx).ge
      · exact Nat.le_of_succ_le (hle x hx)

theorem numbered_pairwise {order : Schedule} (horder : Arranges order sched)
    (hlater : ∀ a b : KeyPoint, periodOf sched a.1 a.2 < periodOf sched b.1 b.2 → P a b)
    (hblock : ∀ c, ∀ block ∈ order,
      (∀ a ∈ numberedFrom c block, ∀ b ∈ numberedFrom c block,
        periodOf sched a.1 a.2 = periodOf sched b.1 b.2) → (numberedFrom c block).Pairwise P) :
    (numbered order.flatten).Pairwise P :=
  (numberedFrom_pairwise [] rfl horder hlater hblock).1

end Periods

/-- The second key point cannot come before the first one. -/
def After (sched : Schedule) (a b : KeyPoint) : Prop :=
  a.1 = b.1 ∧ a.2 < b.2 ∨ periodOf sched a.1 a.2 < periodOf sched b.1 b.2

theorem periodOf_mono (sched : Schedule) (t : Nat) {k k' : Nat} (h : k ≤ k') :
    periodOf sched t k ≤ periodOf sched t k' :=
  List.countP_mono_left fun _ _ hj =>
    decide_eq_true (Nat.le_trans (of_decide_eq_true hj) h)

theorem After.irrefl {sched : Schedule} (a : KeyPoint) : ¬ After sched a a := by
  rintro (⟨_, hlt⟩ | hlt) <;> exact Nat.lt_irrefl _ hlt

theorem count_of_arranges {order sched : Schedule} (h : Arranges order sched) (t : Nat) :
    order.flatten.count t = sched.flatten.count t :=
  (List.Perm.flatten_congr h).count_eq t

theorem mem_numbered {w : List Nat} {x : KeyPoint} : x ∈ numbered w ↔ x.2 < w.count x.1 := by
  rw [numbered, mem_numberedFrom, Nat.zero_add]
  exact ⟨fun h => h.2, fun h => ⟨Nat.zero_le _, h⟩⟩

theorem numbered_respects {order sched : Schedule} (horder : Arranges order sched) :
    (numbered order.flatten).Pairwise fun a b => ¬ After sched b a := by
  refine numbered_pairwise horder (fun a b hlt => ?_) fun c block _ hsame => ?_
  · rintro (⟨hthread, hnumber⟩ | hlt')
    · have := periodOf_mono sched a.1 (Nat.le_of_lt hnumber)
      rw [hthread] at hlt
      omega
    · omega
  · refine (numberedFrom_increasing c block).imp_of_mem fun {a b} ha hb hincr => ?_
    rintro (⟨hthread, hnumber⟩ | hlt)
    · have := hincr hthread.symm
      omega
    · rw [hsame a ha b hb] at hlt
      exact Nat.lt_irrefl _ hlt

/-- The arrangement in which thread `t` comes first in every period. -/
def threadFirst (t : Nat) (sched : Schedule) : Schedule :=
  sched.map fun period => period.filter (· = t) ++ period.filter (· ≠ t)

theorem arranges_threadFirst (t : Nat) (sched : Schedule) : Arranges (threadFirst t sched) sched := by
  rw [Arranges, threadFirst, List.forall₂_map_left_iff, List.forall₂_same]
  intro period _
  simpa using List.filter_append_perm (· = t) period

/-- Nothing of another thread comes before what thread `t` does in the same period. -/
theorem threadFirst_pairwise (t : Nat) (sched : Schedule) :
    (numbered (threadFirst t sched).flatten).Pairwise fun a b =>
      b.1 = t → a.1 ≠ t → periodOf sched a.1 a.2 ≠ periodOf sched b.1 b.2 := by
  refine numbered_pairwise (arranges_threadFirst t sched) (fun a b hlt _ _ => Nat.ne_of_lt hlt)
    fun c block hblock _ => ?_
  obtain ⟨period, _, rfl⟩ := List.mem_map.mp hblock
  rw [numberedFrom_append]
  have hfirst : ∀ a ∈ numberedFrom c (period.filter (· = t)), a.1 = t := fun a ha => by
    simpa using (List.mem_filter.mp (mem_of_mem_numberedFrom ha)).2
  have hrest : ∀ a ∈ numberedFrom (fun u => c u + (period.filter (· = t)).count u) (period.filter (· ≠ t)),
      a.1 ≠ t := fun a ha => by
    simpa using (List.mem_filter.mp (mem_of_mem_numberedFrom ha)).2
  refine List.pairwise_append.mpr ⟨?_, ?_, fun a ha b hb hbt hat => absurd (hfirst a ha) hat⟩
  · exact List.Pairwise.imp_of_mem (fun ha _ _ _ hat => absurd (hfirst _ ha) hat)
      (List.pairwise_of_forall fun _ _ => trivial : (numberedFrom _ _).Pairwise fun _ _ => True)
  · exact List.Pairwise.imp_of_mem (fun _ hb _ hbt _ => absurd hbt (hrest _ hb))
      (List.pairwise_of_forall fun _ _ => trivial : (numberedFrom _ _).Pairwise fun _ _ => True)

/-- The chains that are passed in their order whatever the arrangement. -/
theorem sublist_arrangements_iff {sched : Schedule} {chain : List KeyPoint} :
    (∀ order, Arranges order sched → chain.Sublist (numbered order.flatten)) ↔
      (∀ x ∈ chain, x.2 < sched.flatten.count x.1) ∧ chain.Pairwise (After sched) := by
  constructor
  · intro h
    refine ⟨fun x hx => mem_numbered.mp ((h sched (arrangement_refl sched)).subset hx), ?_⟩
    rw [List.pairwise_iff_forall_sublist]
    intro x y hxy
    -- the thread of the second one goes as early as it can
    have horder := arranges_threadFirst y.1 sched
    have hsub := hxy.trans (h _ horder)
    by_cases hsame : x.1 = y.1
    · exact Or.inl ⟨hsame,
        List.pairwise_iff_forall_sublist.mp (numberedFrom_increasing _ _) hsub hsame⟩
    · have hne := List.pairwise_iff_forall_sublist.mp (threadFirst_pairwise y.1 sched) hsub rfl hsame
      have hnot := List.pairwise_iff_forall_sublist.mp (numbered_respects horder) hsub
      exact Or.inr (Nat.lt_of_le_of_ne (Nat.not_lt.mp fun hlt => hnot (Or.inr hlt)) hne)
  · rintro ⟨hmem, hchain⟩ order horder
    refine sublist_of_respected After.irrefl (numbered_respects horder) hchain fun x hx => ?_
    rw [mem_numbered, count_of_arranges horder]
    exact hmem x hx

end Period.Scheduler
