import Period.Foundation.RowMajor
import Period.Runtime.Target

/-!
# The yields of a child

As long as no child hits more key points than its row has slots, a child yields before
its `k`-th key point as often as slot `k` of its row says, whatever the other children do.
-/

namespace Period.Runtime

open RowMajor
set_option autoImplicit false

/-- How often child `t` yields before each of its key points. -/
def yieldsOf (t : Nat) (accesses : List Access) : List Nat :=
  (accesses.filter fun a => a.schedTid = t).map (·.yields)

/-- What is still to come of `kpYield`: the slots of a row behind the key points its child
has hit. -/
structure Untouched (numKp : Nat) (table : Nat → Nat) (s : Target) : Prop where
  numKp_eq : s.numKp = numKp
  registered : ∀ t, s.myTidMap t = true → t ≠ 0 ∧
    s.idxOriginalKpMap t = (t - 1) * numKp ∧ s.idxKpMap t = (t - 1) * numKp + s.mapTid t
  unregistered : ∀ t, t ≠ 0 → s.myTidMap t = false → s.mapTid t = 0
  rows : ∀ t k, t ≠ 0 → s.mapTid t ≤ k → k < numKp →
    s.kpYield ((t - 1) * numKp + k) = table ((t - 1) * numKp + k)

theorem untouched_traceBegin (siN siM loopUnwindedNum : Nat) (kp : Nat → Nat) :
    Untouched siM (loadYield siN siM kp) (traceBegin siN siM loopUnwindedNum kp) :=
  ⟨rfl, fun _ ht => Bool.noConfusion ht, fun _ _ _ => rfl, fun _ _ _ _ _ => rfl⟩

section Steps
variable {numTd numKp : Nat} {table : Nat → Nat} {s : Target}

theorem untouched_registers (h : Untouched numKp table s) {t : Nat} (hpos : t ≠ 0)
    (hnew : s.myTidMap t = false) :
    Untouched numKp table { s with
      myTidMap := Function.update s.myTidMap t true
      idxKpMap := Function.update s.idxKpMap t ((t - 1) * s.numKp)
      idxOriginalKpMap := Function.update s.idxOriginalKpMap t ((t - 1) * s.numKp) } := by
  refine ⟨h.numKp_eq, fun u hu => ?_, fun u hu0 hu => ?_, h.rows⟩
  · by_cases htu : u = t
    · subst htu
      have hzero := h.unregistered u hpos hnew
      exact ⟨hpos, by simp [h.numKp_eq], by simp [h.numKp_eq, hzero]⟩
    · simp only [Function.update_of_ne htu] at hu ⊢
      exact h.registered u hu
  · by_cases htu : u = t
    · subst htu
      simp at hu
    · simp only [Function.update_of_ne htu] at hu
      exact h.unregistered u hu0 hu

theorem untouched_hit (h : Untouched numKp table s) {t : Nat} (ht : s.myTidMap t = true)
    (hroom : s.mapTid t < numKp) (intHash : Nat) : Untouched numKp table (s.hit t intHash) := by
  obtain ⟨hpos, horiginal, hidx⟩ := h.registered t ht
  have hadvance : advance s t = (t - 1) * numKp + (s.mapTid t + 1) := by
    rw [advance, if_neg (by rw [horiginal, hidx, h.numKp_eq]; omega), hidx, Nat.add_assoc]
  refine ⟨h.numKp_eq, fun u hu => ?_, fun u hu0 hu => ?_, fun u k hu hk hkm => ?_⟩
  · by_cases htu : u = t
    · subst htu
      refine ⟨hpos, horiginal, ?_⟩
      rw [Target.hit_idxKpMap, Target.hit_mapTid, Function.update_self, Function.update_self, hadvance]
    · rw [Target.hit_idxKpMap, Target.hit_mapTid, Function.update_of_ne htu, Function.update_of_ne htu]
      exact h.registered u hu
  · rw [Target.hit_mapTid, Function.update_of_ne (Target.ne_of_registered ht hu)]
    exact h.unregistered u hu0 hu
  · rw [Target.hit_mapTid] at hk
    have hne : (u - 1) * numKp + k ≠ (t - 1) * numKp + s.mapTid t := by
      intro heq
      obtain ⟨hut, hkt⟩ := index_unique hkm hroom heq
      obtain rfl : u = t := by omega
      rw [Function.update_self] at hk
      omega
    rw [Target.hit_kpYield, hidx, Function.update_of_ne hne]
    refine h.rows u k hu ?_ hkm
    by_cases htu : u = t
    · subst htu
      rw [Function.update_self] at hk
      omega
    · rwa [Function.update_of_ne htu] at hk

theorem untouched_quiet (h : Untouched numKp table s) {m : Nat → Nat} (hm : ∀ t, t ≠ 0 → m t = s.mapTid t) :
    Untouched numKp table { s with mapTid := m } := by
  refine ⟨h.numKp_eq, fun u hu => ?_, fun u hu0 hu => (hm u hu0).trans (h.unregistered u hu0 hu),
    fun u k hu0 hk => h.rows u k hu0 (hm u hu0 ▸ hk)⟩
  obtain ⟨hu0, horiginal, hidx⟩ := h.registered u hu
  exact ⟨hu0, horiginal, hidx.trans (by rw [← hm u hu0])⟩

theorem yieldsOf_cons (t : Nat) (a : Access) (accesses : List Access) :
    yieldsOf t (a :: accesses) = if a.schedTid = t then a.yields :: yieldsOf t accesses
      else yieldsOf t accesses := by
  by_cases h : a.schedTid = t <;> simp [yieldsOf, h]

/-- The yields of a child over a run in which no child leaves its row. -/
theorem yieldsOf_performAll {calls : List Call} (h : Untouched numKp table s)
    (hcalls : Along (Call.Admissible numTd) calls s)
    (hroom : ∀ t, t ≠ 0 → s.mapTid t + (yieldsOf t (performAll calls s).2).length ≤ numKp)
    {t : Nat} (ht : t ≠ 0) :
    yieldsOf t (performAll calls s).2 =
      (List.range' (s.mapTid t) (yieldsOf t (performAll calls s).2).length).map
        fun k => table ((t - 1) * numKp + k) := by
  induction calls generalizing s with
  | nil => rfl
  | cons c calls ih =>
    obtain ⟨hc, hcalls⟩ := hcalls
    rw [performAll] at hroom ⊢
    have hout := c.perform_outcome s
    generalize c.perform s = r at hout hcalls hroom ⊢
    cases hout with
    | quiet m hm =>
      simp only [Option.toList_none, List.nil_append] at hroom ⊢
      have := ih (untouched_quiet h hm) hcalls fun u hu0 => by
        have := hroom u hu0
        rwa [← hm u hu0] at this
      rwa [show ({ s with mapTid := m } : Target).mapTid t = s.mapTid t from hm t ht] at this
    | registers u _ hpos hnew =>
      simp only [Option.toList_none, List.nil_append] at hroom ⊢
      exact ih (untouched_registers h hpos hnew) hcalls hroom
    | hits u intHash hcall hpos _ =>
      subst hcall
      have hu := hc.resolve_left hpos
      simp only [Option.toList_some, List.singleton_append, yieldsOf_cons] at hroom ⊢
      have hfree : s.mapTid u < numKp := by
        have := hroom u hpos
        rw [if_pos rfl, List.length_cons] at this
        omega
      have hkeep := untouched_hit h hu hfree intHash
      have hcount : ∀ v, (s.hit u intHash).mapTid v = if v = u then s.mapTid u + 1 else s.mapTid v := by
        intro v
        rw [Target.hit_mapTid, Function.update_apply]
      have ih := ih hkeep hcalls fun v hv => by
        have := hroom v hv
        rw [hcount]
        by_cases hvu : v = u
        · subst hvu
          rw [if_pos rfl]
          rw [if_pos rfl, List.length_cons] at this
          omega
        · rw [if_neg hvu]
          rwa [if_neg (Ne.symm hvu)] at this
      rw [hcount] at ih
      by_cases htu : t = u
      · subst htu
        obtain ⟨_, _, hidx⟩ := h.registered t hu
        rw [if_pos rfl] at ih
        rw [if_pos rfl, List.length_cons, List.range'_succ, List.map_cons, ← ih, hidx,
          h.rows t _ ht (Nat.le_refl _) hfree]
      · rw [if_neg htu] at ih
        rwa [if_neg (Ne.symm htu)]

end Steps

end Period.Runtime
