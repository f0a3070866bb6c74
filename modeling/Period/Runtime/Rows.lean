import Period.Runtime.Target

/-!
# Rows of the key point arrays

Child `t` owns the slots from `(t-1)*num_kp` up to `t*num_kp`; what it hits beyond them
belongs into the overflow slot `num_td*num_kp`. The index of a child leaves its row
through the first slot of the next one.
-/

namespace Period.Runtime

set_option autoImplicit false

/-- The slot belongs to the row of child `t`. -/
def RowOf (numKp t slot : Nat) : Prop := (t - 1) * numKp ≤ slot ∧ slot < t * numKp

/-- The access stays in the child's row or goes to the overflow slot, and away from the
rows of the other children. -/
structure Isolated (numTd numKp : Nat) (a : Access) : Prop where
  own : RowOf numKp a.schedTid a.slot ∨ a.slot = numTd * numKp
  others : ∀ t, 1 ≤ t → t ≤ numTd → t ≠ a.schedTid → ¬ RowOf numKp t a.slot

/-- The call is counted while the index of its child stands right behind its row, and
something else than the overflow slot is there. -/
def Overruns (s : Target) : Call → Prop
  | .pthreadCall _ => False
  | .locString t intHash =>
    t ≠ 0 ∧ loopUnwinded s t intHash = true ∧
      s.idxKpMap t = s.idxOriginalKpMap t + s.numKp ∧ s.idxKpMap t ≠ s.numTd * s.numKp

theorem rowOf_unique {numKp t u slot : Nat} (h : RowOf numKp t slot) (h' : RowOf numKp u slot) :
    t = u := by
  have hle : ∀ a b, RowOf numKp a slot → RowOf numKp b slot → ¬ a < b := by
    intro a b ha hb hlt
    have hmul : a * numKp ≤ (b - 1) * numKp := Nat.mul_le_mul_right numKp (by omega)
    have := ha.2
    have := hb.1
    omega
  have := hle t u h h'
  have := hle u t h' h
  omega

theorem not_rowOf_overflow {numTd numKp t : Nat} (ht : t ≤ numTd) :
    ¬ RowOf numKp t (numTd * numKp) := by
  intro h
  have := h.2
  have hmul : t * numKp ≤ numTd * numKp := Nat.mul_le_mul_right numKp ht
  omega

theorem isolated_of_own {numTd numKp : Nat} {a : Access}
    (h : RowOf numKp a.schedTid a.slot ∨ a.slot = numTd * numKp) : Isolated numTd numKp a := by
  refine ⟨h, fun t _ ht hne hrow => ?_⟩
  rcases h with h | h
  · exact hne (rowOf_unique hrow h)
  · rw [h] at hrow
    exact not_rowOf_overflow ht hrow

/-- Where the index of a registered child can be. -/
structure ChildInv (numTd numKp t original idx : Nat) : Prop where
  pos : 1 ≤ t
  le : t ≤ numTd
  original_eq : original = (t - 1) * numKp
  place : original ≤ idx ∧ idx ≤ original + numKp ∨ idx = numTd * numKp

structure RowInv (numTd numKp : Nat) (s : Target) : Prop where
  numTd_eq : s.numTd = numTd
  numKp_eq : s.numKp = numKp
  child : ∀ t, s.myTidMap t = true →
    ChildInv numTd numKp t (s.idxOriginalKpMap t) (s.idxKpMap t)

theorem row_end {numKp t : Nat} (ht : 1 ≤ t) : (t - 1) * numKp + numKp = t * numKp := by
  obtain ⟨t, rfl⟩ := Nat.exists_eq_add_of_le' ht
  rw [Nat.add_sub_cancel, Nat.succ_mul]

section Steps
variable {numTd numKp : Nat} {s : Target}

theorem rowInv_traceBegin (siN siM loopUnwindedNum : Nat) (kp : Nat → Nat) :
    RowInv siN siM (traceBegin siN siM loopUnwindedNum kp) :=
  ⟨rfl, rfl, fun _ ht => Bool.noConfusion ht⟩

theorem rowInv_advance {t : Nat} (h : RowInv numTd numKp s) (ht : s.myTidMap t = true) :
    ChildInv numTd numKp t (s.idxOriginalKpMap t) (advance s t) := by
  have hchild := h.child t ht
  refine ⟨hchild.pos, hchild.le, hchild.original_eq, ?_⟩
  unfold advance
  rw [h.numTd_eq, h.numKp_eq]
  split
  · exact Or.inr rfl
  · rcases hchild.place with hplace | hplace
    · exact Or.inl ⟨by omega, by omega⟩
    · rename_i hlt
      have hmul : t * numKp ≤ numTd * numKp := Nat.mul_le_mul_right numKp hchild.le
      have := @row_end numKp t hchild.pos
      have := hchild.original_eq
      omega

/-- Every admissible call keeps the indices in place. -/
theorem rowInv_perform {c : Call} (h : RowInv numTd numKp s) (hc : c.Admissible numTd s) :
    RowInv numTd numKp (c.perform s).1 := by
  have hout := c.perform_outcome s
  generalize c.perform s = r at hout
  cases hout with
  | quiet m _ => exact ⟨h.numTd_eq, h.numKp_eq, h.child⟩
  | registers t hcall hpos hnew =>
    subst hcall
    refine ⟨h.numTd_eq, h.numKp_eq, fun u hu => ?_⟩
    by_cases htu : u = t
    · subst htu
      simp only [Function.update_self, h.numKp_eq]
      exact ⟨hc.1, hc.2, rfl, Or.inl ⟨Nat.le_refl _, Nat.le_add_right _ _⟩⟩
    · simp only [Function.update_of_ne htu] at hu ⊢
      exact h.child u hu
  | hits t intHash hcall hpos _ =>
    subst hcall
    have ht := hc.resolve_left hpos
    refine ⟨h.numTd_eq, h.numKp_eq, fun u hu => ?_⟩
    by_cases htu : u = t
    · subst htu
      rw [Target.hit_idxKpMap, Function.update_self]
      exact rowInv_advance h ht
    · rw [Target.hit_idxKpMap, Function.update_of_ne htu]
      exact h.child u hu

/-- One call is isolated exactly when it does not overrun its row. -/
theorem isolated_perform_iff {c : Call} (h : RowInv numTd numKp s) (hc : c.Admissible numTd s) :
    (∀ a ∈ (c.perform s).2, Isolated numTd numKp a) ↔ ¬ Overruns s c := by
  cases c with
  | pthreadCall t => simp [Call.perform, Overruns]
  | locString t intHash =>
    rw [locString_access]
    by_cases hcounted : t ≠ 0 ∧ loopUnwinded s t intHash = true
    · have hchild := h.child t (hc.resolve_left hcounted.1)
      have hend := @row_end numKp t hchild.pos
      have horiginal := hchild.original_eq
      rw [if_pos hcounted, Overruns, h.numTd_eq, h.numKp_eq]
      constructor
      · intro hiso hover
        rcases (hiso _ rfl).own with hrow | hlast
        · have hhi : s.idxKpMap t < t * numKp := hrow.2
          omega
        · exact hover.2.2.2 hlast
      · intro hover a ha
        obtain rfl := Option.some.inj ha
        apply isolated_of_own
        rcases hchild.place with hplace | hlast
        · by_cases hedge : s.idxKpMap t = s.idxOriginalKpMap t + numKp
          · refine Or.inr ?_
            by_contra hne
            exact hover ⟨hcounted.1, hcounted.2, hedge, hne⟩
          · exact Or.inl ⟨by show (t - 1) * numKp ≤ s.idxKpMap t; omega,
              by show s.idxKpMap t < t * numKp; omega⟩
        · exact Or.inr hlast
    · rw [if_neg hcounted]
      refine ⟨fun _ hover => hcounted ⟨hover.1, hover.2.1⟩, fun _ a ha => ?_⟩
      cases ha

/-- All calls of a run are isolated exactly when none of them overruns its row. -/
theorem isolated_performAll_iff {calls : List Call} (h : RowInv numTd numKp s)
    (hcalls : Along (Call.Admissible numTd) calls s) :
    (∀ a ∈ (performAll calls s).2, Isolated numTd numKp a) ↔
      Along (fun c s => ¬ Overruns s c) calls s := by
  induction calls generalizing s with
  | nil => simp [performAll, Along]
  | cons c calls ih =>
    obtain ⟨hc, hcalls⟩ := hcalls
    have hstep := isolated_perform_iff h hc
    have hrest := ih (rowInv_perform h hc) hcalls
    rw [performAll, Along, ← hrest, ← hstep, List.forall_mem_append]
    simp only [Option.mem_toList, Option.mem_def]

end Steps

end Period.Runtime
