import Period.Scheduler.Bounded

/-!
# The sizes of the periods

`_init_pattern` is the least list of sizes and `_next_pattern` steps to the next one.
-/

namespace Period.Scheduler.BPSched

open Enumeration Parts SortedParts
set_option autoImplicit false

/-- The sizes of `np` non-empty periods with `nkp` key points. -/
structure Sizes (nkp np : Nat) (pattern : List Nat) : Prop where
  length_eq : pattern.length = np
  pos : ∀ x ∈ pattern, 0 < x
  sum_eq : pattern.sum = nkp

section Sizes
variable {nkp np k : Nat} {pattern : List Nat}

theorem sizes_cons_iff : Sizes nkp (np + 1) (k :: pattern) ↔ 0 < k ∧ k ≤ nkp ∧ Sizes (nkp - k) np pattern := by
  constructor
  · intro h
    have hsum := h.sum_eq
    rw [List.sum_cons] at hsum
    refine ⟨h.pos k List.mem_cons_self, by omega, Nat.succ.inj h.length_eq,
      fun x hx => h.pos x (List.mem_cons_of_mem k hx), by omega⟩
  · rintro ⟨hk, hle, h⟩
    refine ⟨congrArg (· + 1) h.length_eq, ?_, ?_⟩
    · intro x hx
      rcases List.mem_cons.mp hx with rfl | hx
      · exact hk
      · exact h.pos x hx
    · rw [List.sum_cons, h.sum_eq]
      omega

def sizesList : Nat → Nat → List (List Nat)
  | nkp, 0 => if nkp = 0 then [[]] else []
  | nkp, np + 1 => (List.range nkp).flatMap fun k => (sizesList (nkp - (k + 1)) np).map ((k + 1) :: ·)

theorem mem_sizesList : pattern ∈ sizesList nkp np ↔ Sizes nkp np pattern := by
  induction np generalizing nkp pattern with
  | zero =>
    rw [sizesList]
    constructor
    · intro h
      split at h
      · next hzero =>
        obtain rfl := List.mem_singleton.mp h
        exact ⟨rfl, nofun, hzero.symm⟩
      · exact absurd h List.not_mem_nil
    · intro h
      obtain rfl := List.length_eq_zero_iff.mp h.length_eq
      have hzero : nkp = 0 := h.sum_eq.symm
      rw [if_pos hzero]
      exact List.mem_cons_self
  | succ np ih =>
    rw [sizesList, List.mem_flatMap]
    constructor
    · rintro ⟨k, hk, h⟩
      obtain ⟨pattern, hpattern, rfl⟩ := List.mem_map.mp h
      exact sizes_cons_iff.mpr ⟨Nat.succ_pos k, List.mem_range.mp hk, ih.mp hpattern⟩
    · intro h
      cases pattern with
      | nil => exact absurd h.length_eq nofun
      | cons k pattern =>
        obtain ⟨hk, hle, htail⟩ := sizes_cons_iff.mp h
        obtain ⟨k, rfl⟩ := Nat.exists_eq_succ_of_ne_zero (Nat.ne_of_gt hk)
        exact ⟨k, List.mem_range.mpr hle, List.mem_map.mpr ⟨pattern, ih.mpr htail, rfl⟩⟩

theorem initPattern_succ (nkp np : Nat) (hnp : 0 < np) : initPattern (nkp + 1) (np + 1) = 1 :: initPattern nkp np := by
  obtain ⟨np, rfl⟩ := Nat.exists_eq_succ_of_ne_zero (Nat.ne_of_gt hnp)
  have hlast : nkp + 1 + 1 - (np + 1 + 1) = nkp + 1 - (np + 1) := by omega
  rw [initPattern, initPattern, Nat.add_sub_cancel, Nat.succ_eq_add_one, hlast, Nat.add_sub_cancel,
    List.replicate_succ, List.cons_append]

theorem initPattern_sizes (hnp : 0 < np) (hle : np ≤ nkp) : Sizes nkp np (initPattern nkp np) := by
  refine ⟨?_, ?_, ?_⟩
  · rw [initPattern, List.length_append, List.length_replicate, List.length_singleton]
    omega
  · intro x hx
    rcases List.mem_append.mp hx with hx | hx
    · rw [List.eq_of_mem_replicate hx]
      exact Nat.one_pos
    · rw [List.mem_singleton.mp hx]
      omega
  · rw [initPattern, List.sum_append, List.sum_replicate_nat, List.sum_singleton]
    omega

theorem initPattern_le (hnp : 0 < np) (h : Sizes nkp np pattern) : initPattern nkp np ≤ pattern := by
  induction pattern generalizing nkp np with
  | nil => exact absurd h.length_eq (Nat.ne_of_lt hnp)
  | cons k pattern ih =>
    obtain ⟨np, rfl⟩ := Nat.exists_eq_succ_of_ne_zero (Nat.ne_of_gt hnp)
    obtain ⟨hk, hle, htail⟩ := sizes_cons_iff.mp h
    obtain ⟨nkp, rfl⟩ := Nat.exists_eq_succ_of_ne_zero (Nat.ne_of_gt (Nat.lt_of_lt_of_le hk hle))
    rcases Nat.eq_zero_or_pos np with rfl | hpos
    · -- one period holds everything
      obtain rfl := List.length_eq_zero_iff.mp htail.length_eq
      have hsum := htail.sum_eq
      rw [List.sum_nil] at hsum
      obtain rfl : k = nkp + 1 := by omega
      exact le_refl _
    · rw [Nat.succ_eq_add_one, Nat.succ_eq_add_one, initPattern_succ nkp np hpos]
      rcases Nat.lt_or_eq_of_le hk with hk | rfl
      · exact le_of_lt (Rearrangement.lt_cons_iff.mpr (Or.inl hk))
      · exact Rearrangement.cons_le_cons 1 (ih hpos htail)

/-- All sizes of the rest are one: nothing can be moved to the front. -/
theorem head_le_of_ones {c : List Nat} (hones : pattern.sum = pattern.length)
    (h : Sizes nkp np (k :: pattern)) {z : Nat} (h' : Sizes nkp np (z :: c)) : z ≤ k := by
  have hc := Parts.length_le_sum fun x hx => h'.pos x (List.mem_cons_of_mem z hx)
  have hlen := h'.length_eq.trans h.length_eq.symm
  have hsum := h'.sum_eq.trans h.sum_eq.symm
  rw [List.length_cons, List.length_cons] at hlen
  rw [List.sum_cons, List.sum_cons] at hsum
  omega

theorem sizes_tail (h : Sizes nkp np (k :: pattern)) {c : List Nat} :
    Sizes nkp np (k :: c) ↔ Sizes pattern.sum pattern.length c := by
  have hlen := h.length_eq
  have hsum := h.sum_eq
  rw [List.length_cons] at hlen
  rw [List.sum_cons] at hsum
  subst hlen hsum
  rw [sizes_cons_iff, Nat.add_sub_cancel_left]
  exact ⟨fun hc => hc.2.2, fun hc => ⟨h.pos k List.mem_cons_self, Nat.le_add_right _ _, hc⟩⟩

theorem nextPattern_spec (h : Sizes nkp np pattern) :
    Advances (Sizes nkp np) pattern (nextPattern pattern) ∧
    NoGap (Sizes nkp np) pattern (nextPattern pattern) := by
  induction pattern generalizing nkp np with
  | nil =>
    refine ⟨fun c hc => ?_, nofun⟩
    have hlen := hc.length_eq.trans h.length_eq.symm
    rw [List.length_eq_zero_iff.mp hlen]
  | cons k pattern ih =>
    cases pattern with
    | nil =>
      refine ⟨fun c hc => ?_, nofun⟩
      obtain ⟨z, rfl⟩ := List.length_eq_one_iff.mp (hc.length_eq.trans h.length_eq.symm)
      have hsum := hc.sum_eq.trans h.sum_eq.symm
      rw [List.sum_singleton, List.sum_singleton] at hsum
      rw [hsum]
    | cons l pattern =>
      have hpos := fun x hx => h.pos x (List.mem_cons_of_mem k hx)
      obtain ⟨hadv, hgap⟩ := ih ⟨rfl, hpos, rfl⟩
      rw [nextPattern]
      cases hnext : nextPattern (l :: pattern) with
      | some subPattern =>
        rw [hnext] at hadv hgap
        refine ⟨advances_cons ⟨(sizes_tail h).mpr hadv.1, hadv.2⟩, noGap_cons fun b hb c hc => ?_⟩
        exact hgap b hb c ((sizes_tail h).mp hc)
      | none =>
        rw [hnext] at hadv
        have hgreatest : Advances (fun c => Sizes nkp np (k :: c)) (l :: pattern) none :=
          fun c hc => hadv c ((sizes_tail h).mp hc)
        simp only
        by_cases hones : (l :: pattern).sum = (l :: pattern).length
        · rw [if_pos hones]
          exact ⟨advances_cons_none hgreatest fun z c hc => head_le_of_ones hones h hc, nofun⟩
        · -- one key point is moved to the first period
          rw [if_neg hones]
          have hle := Parts.length_le_sum hpos
          have hlen := h.length_eq
          have hsum := h.sum_eq
          rw [List.length_cons] at hlen
          rw [List.sum_cons] at hsum
          have hrest : nkp - (k + 1) = (l :: pattern).sum - 1 := by omega
          refine ⟨⟨?_, Rearrangement.lt_cons_iff.mpr (Or.inl (Nat.lt_succ_self k))⟩, ?_⟩
          · rw [← hlen, sizes_cons_iff, hrest]
            exact ⟨Nat.succ_pos k, by omega, initPattern_sizes (Nat.succ_pos pattern.length) (by omega)⟩
          · apply noGap_head hgreatest (fun z c _ hlt => hlt)
            intro c hc
            rw [← hlen, sizes_cons_iff, hrest] at hc
            exact initPattern_le (Nat.succ_pos _) hc.2.2

theorem sizesList_sorted (nkp np : Nat) : (sizesList nkp np).Pairwise (· < ·) := by
  induction np generalizing nkp with
  | zero =>
    rw [sizesList]
    split
    · exact List.pairwise_singleton _ _
    · exact List.Pairwise.nil
  | succ np ih =>
    rw [sizesList]
    apply Rearrangement.flatMap_cons_sorted
    · exact List.pairwise_lt_range.imp Nat.succ_lt_succ
    · exact fun k _ => ih (nkp - (k + 1))

theorem sizesList_head (hnp : 0 < np) (hle : np ≤ nkp) :
    (sizesList nkp np).head? = some (initPattern nkp np) := by
  rw [Rearrangement.head?_eq_some_iff_isLeast (sizesList_sorted nkp np)]
  refine ⟨mem_sizesList.mpr (initPattern_sizes hnp hle), fun c hc => ?_⟩
  exact initPattern_le hnp (mem_sizesList.mp hc)

theorem nextPattern_walks (nkp np : Nat) : WalksTo nextPattern (sizesList nkp np) none := by
  apply Rearrangement.walksTo_of_succeeds (sizesList_sorted nkp np)
  intro pattern hpattern
  obtain ⟨hadv, hgap⟩ := nextPattern_spec (mem_sizesList.mp hpattern)
  exact succeeds_of_advances (fun c => mem_sizesList.symm) hadv hgap

/-- From `_init_pattern`, `_next_pattern` yields every list of sizes once, in lexicographic order,
and then stops. -/
theorem sizes_exact (hnp : 1 ≤ np) (hle : np ≤ nkp) : ∃ rounds out,
    (∀ fuel, rounds ≤ fuel → walk nextPattern fuel (initPattern nkp np) = some out) ∧
    (∀ pattern : List Nat, pattern.length = np → (∀ x ∈ pattern, 0 < x) → pattern.sum = nkp →
      out.count pattern = 1) ∧
    (∀ pattern ∈ out, pattern.length = np ∧ (∀ x ∈ pattern, 0 < x) ∧ pattern.sum = nkp) ∧
    out.Pairwise (· < ·) := by
  have hhead := sizesList_head hnp hle
  have hwalks := nextPattern_walks nkp np
  have hsorted := sizesList_sorted nkp np
  cases hlist : sizesList nkp np with
  | nil =>
    rw [hlist] at hhead
    cases hhead
  | cons first rest =>
    rw [hlist] at hhead hwalks hsorted
    obtain rfl := Option.some.inj hhead
    refine ⟨rest.length + 1, _, fun fuel hfuel => walk_eq hwalks hfuel, fun pattern hlen hpos hsum => ?_,
      fun pattern hpattern => ?_, hsorted⟩
    · have hmem : pattern ∈ sizesList nkp np := mem_sizesList.mpr ⟨hlen, hpos, hsum⟩
      rw [hlist] at hmem
      exact List.count_eq_one_of_mem (hsorted.imp ne_of_lt) hmem
    · rw [← hlist] at hpattern
      have h := mem_sizesList.mp hpattern
      exact ⟨h.length_eq, h.pos, h.sum_eq⟩

theorem sizes_exact_two : ∃ rounds out,
    (∀ fuel, rounds ≤ fuel → walk nextPattern fuel (initPattern 4 2) = some out) ∧
    (∀ pattern : List Nat, pattern.length = 2 → (∀ x ∈ pattern, 0 < x) → pattern.sum = 4 →
      out.count pattern = 1) ∧
    (∀ pattern ∈ out, pattern.length = 2 ∧ (∀ x ∈ pattern, 0 < x) ∧ pattern.sum = 4) ∧
    out.Pairwise (· < ·) :=
  sizes_exact (by decide) (by decide)

end Sizes

end Period.Scheduler.BPSched
