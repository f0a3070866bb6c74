import Period.Runtime.Rows

/-!
# The bound on loops

`isBoundedLocHash` looks for earlier hits of a location between the first slot of the child
and its index. While every counted key point finds room in its row, these slots hold the
counted key points of the child and nothing else.
-/

namespace Period.Runtime

set_option autoImplicit false

theorem isBoundedLocHashFrom_iff {loopUnwindedNum : Nat} {kpLoc : Nat → Nat} {intHash : Nat}
    (slots : List Nat) {hitCount : Nat} (h : hitCount < loopUnwindedNum) :
    isBoundedLocHashFrom loopUnwindedNum kpLoc intHash hitCount slots = true ↔
      hitCount + slots.countP (kpLoc · = intHash) < loopUnwindedNum := by
  induction slots generalizing hitCount with
  | nil => exact iff_of_true rfl h
  | cons i slots ih =>
    rw [isBoundedLocHashFrom, List.countP_cons]
    by_cases hi : kpLoc i = intHash
    · simp only [hi, if_true, decide_true]
      by_cases hfull : loopUnwindedNum ≤ hitCount + 1
      · rw [if_pos hfull]
        apply iff_of_false Bool.false_ne_true
        omega
      · rw [if_neg hfull, ih (Nat.lt_of_not_le hfull)]
        omega
    · simp only [hi, if_false, decide_false]
      rw [if_neg (Nat.not_le_of_lt h), ih h]
      simp

/-- How many slots between the first one of the child and its index hold the hash. -/
def windowCount (s : Target) (t intHash : Nat) : Nat :=
  (List.range' (s.idxOriginalKpMap t) (s.idxKpMap t - s.idxOriginalKpMap t)).countP
    (s.kpLoc · = intHash)

theorem loopUnwinded_iff {s : Target} (h : 0 < s.loopUnwindedNum) (t intHash : Nat) :
    loopUnwinded s t intHash = true ↔ windowCount s t intHash < s.loopUnwindedNum := by
  rw [loopUnwinded, isBoundedLocHash, isBoundedLocHashFrom_iff _ h, Nat.zero_add, windowCount]

/-- The call is a key point of the thread with this hash, and `mapTid` counts it. -/
def Counts (t intHash : Nat) (c : Call) (s : Target) : Prop :=
  c = .locString t intHash ∧ (c.perform s).1.mapTid t = s.mapTid t + 1

instance (t intHash : Nat) (c : Call) (s : Target) : Decidable (Counts t intHash c s) :=
  inferInstanceAs (Decidable (_ ∧ _))

def timesCounted (t intHash : Nat) : List Call → Target → Nat
  | [], _ => 0
  | c :: calls, s =>
    (if Counts t intHash c s then 1 else 0) + timesCounted t intHash calls (c.perform s).1

/-- If the call is counted for a child, the index is still inside its row and the array. -/
def HasRoom : Call → Target → Prop
  | .pthreadCall _, _ => True
  | .locString t intHash, s => t ≠ 0 → loopUnwinded s t intHash = true →
    s.idxKpMap t < s.idxOriginalKpMap t + s.numKp ∧ s.idxKpMap t < shareMemoryArraySize

/-- The index of every child lies in the child's row or right behind it. -/
structure Windows (s : Target) : Prop where
  registered : ∀ t, s.myTidMap t = true → 1 ≤ t ∧ s.idxOriginalKpMap t = (t - 1) * s.numKp ∧
    s.idxOriginalKpMap t ≤ s.idxKpMap t ∧ s.idxKpMap t ≤ s.idxOriginalKpMap t + s.numKp
  unregistered : ∀ t, s.myTidMap t = false → s.idxKpMap t = s.idxOriginalKpMap t

theorem windows_traceBegin (siN siM loopUnwindedNum : Nat) (kp : Nat → Nat) :
    Windows (traceBegin siN siM loopUnwindedNum kp) :=
  ⟨fun _ ht => Bool.noConfusion ht, fun _ _ => rfl⟩

section Steps
variable {s : Target}

theorem windowCount_eq_zero {t : Nat} (h : s.idxKpMap t = s.idxOriginalKpMap t) (intHash : Nat) :
    windowCount s t intHash = 0 := by
  rw [windowCount, h, Nat.sub_self]
  rfl

theorem Windows.rowOf (h : Windows s) {t slot : Nat} (ht : s.myTidMap t = true)
    (hlo : s.idxOriginalKpMap t ≤ slot) (hhi : slot < s.idxOriginalKpMap t + s.numKp) :
    RowOf s.numKp t slot := by
  obtain ⟨hpos, horiginal, _, _⟩ := h.registered t ht
  have hend := @row_end s.numKp t hpos
  exact ⟨by omega, by omega⟩

theorem windows_registers (h : Windows s) {t : Nat} (hpos : t ≠ 0) :
    Windows { s with
      myTidMap := Function.update s.myTidMap t true
      idxKpMap := Function.update s.idxKpMap t ((t - 1) * s.numKp)
      idxOriginalKpMap := Function.update s.idxOriginalKpMap t ((t - 1) * s.numKp) } := by
  refine ⟨fun u hu => ?_, fun u hu => ?_⟩
  · by_cases htu : u = t
    · subst htu
      simp only [Function.update_self]
      exact ⟨Nat.pos_of_ne_zero hpos, trivial, Nat.le_refl _, Nat.le_add_right _ _⟩
    · simp only [Function.update_of_ne htu] at hu ⊢
      exact h.registered u hu
  · by_cases htu : u = t
    · subst htu
      simp at hu
    · simp only [Function.update_of_ne htu] at hu ⊢
      exact h.unregistered u hu

section Hit
variable {t intHash : Nat} (h : Windows s) (ht : s.myTidMap t = true)
  (hroom : s.idxKpMap t < s.idxOriginalKpMap t + s.numKp)
include h ht hroom

theorem windows_hit : Windows (s.hit t intHash) := by
  have hadvance : advance s t = s.idxKpMap t + 1 := if_neg (Nat.not_le_of_lt hroom)
  obtain ⟨hpos, horiginal, hlo, hhi⟩ := h.registered t ht
  refine ⟨fun u hu => ?_, fun u hu => ?_⟩
  · by_cases htu : u = t
    · subst htu
      rw [Target.hit_idxKpMap, Function.update_self, hadvance]
      exact ⟨hpos, horiginal, Nat.le_succ_of_le hlo, hroom⟩
    · rw [Target.hit_idxKpMap, Function.update_of_ne htu]
      exact h.registered u hu
  · rw [Target.hit_idxKpMap, Function.update_of_ne (Target.ne_of_registered ht hu)]
    exact h.unregistered u hu

/-- A counted key point goes into the window of its child, and into no other window. -/
theorem windowCount_hit (u hash : Nat) : windowCount (s.hit t intHash) u hash =
    windowCount s u hash + if u = t ∧ intHash = hash then 1 else 0 := by
  have hadvance : advance s t = s.idxKpMap t + 1 := if_neg (Nat.not_le_of_lt hroom)
  obtain ⟨hpos, horiginal, hlo, hhi⟩ := h.registered t ht
  have hkeep : ∀ slots : List Nat, (∀ i ∈ slots, i ≠ s.idxKpMap t) →
      slots.countP ((s.hit t intHash).kpLoc · = hash) = slots.countP (s.kpLoc · = hash) := by
    intro slots hslots
    apply List.countP_congr
    intro i hi
    rw [Target.hit_kpLoc, Function.update_of_ne (hslots i hi)]
  by_cases htu : u = t
  · subst htu
    have hidx : (s.hit u intHash).idxKpMap u - (s.hit u intHash).idxOriginalKpMap u =
        (s.idxKpMap u - s.idxOriginalKpMap u) + 1 := by
      rw [Target.hit_idxKpMap, Function.update_self, hadvance]
      exact Nat.succ_sub hlo
    have hlast : s.idxOriginalKpMap u + 1 * (s.idxKpMap u - s.idxOriginalKpMap u) = s.idxKpMap u := by
      omega
    have horig : (s.hit u intHash).idxOriginalKpMap u = s.idxOriginalKpMap u := rfl
    rw [windowCount, hidx, List.range'_concat, List.countP_append, horig, hlast, hkeep]
    · congr 1
      simp
    · intro i hi
      have := (List.mem_range'_1.mp hi).2
      omega
  · have hidx : (s.hit t intHash).idxKpMap u = s.idxKpMap u := Function.update_of_ne htu _ _
    have horig : (s.hit t intHash).idxOriginalKpMap u = s.idxOriginalKpMap u := rfl
    rw [if_neg (fun hu => htu hu.1), Nat.add_zero]
    cases hu : s.myTidMap u with
    | false =>
      rw [windowCount_eq_zero (h.unregistered u hu), windowCount_eq_zero]
      rw [hidx, h.unregistered u hu, horig]
    | true =>
      rw [windowCount, hidx, horig, hkeep, windowCount]
      rintro i hi rfl
      obtain ⟨_, _, _, hend⟩ := h.registered u hu
      obtain ⟨hlo', hhi'⟩ := List.mem_range'_1.mp hi
      have hrow := h.rowOf hu hlo' (by omega)
      exact htu (rowOf_unique hrow (h.rowOf ht hlo hroom))

end Hit

/-- What a call with room does to the windows of the children. -/
theorem windows_perform {c : Call} (h : Windows s) (hc : c.InOrder s) (hroom : HasRoom c s) :
    Windows (c.perform s).1 ∧ ∀ t, t ≠ 0 → ∀ intHash, windowCount (c.perform s).1 t intHash =
      windowCount s t intHash + if Counts t intHash c s then 1 else 0 := by
  have hout := c.perform_outcome s
  generalize hr : c.perform s = r at hout
  simp only [Counts, hr]
  cases hout with
  | quiet m hm =>
    refine ⟨⟨h.registered, h.unregistered⟩, fun t ht intHash => ?_⟩
    have hsame : ¬ (c = .locString t intHash ∧ m t = s.mapTid t + 1) := by
      rw [hm t ht]
      omega
    rw [if_neg hsame]
    rfl
  | registers t hcall hpos hnew =>
    subst hcall
    refine ⟨windows_registers h hpos, fun u _ intHash => ?_⟩
    rw [if_neg (fun hu => Call.noConfusion hu.1), Nat.add_zero]
    by_cases htu : u = t
    · subst htu
      rw [windowCount_eq_zero (h.unregistered u hnew), windowCount_eq_zero]
      simp
    · simp only [windowCount, Function.update_of_ne htu]
  | hits t hash hcall hpos hcounted =>
    subst hcall
    have ht := hc.resolve_left hpos
    have hroom := (hroom hpos hcounted).1
    refine ⟨windows_hit h ht hroom, fun u _ intHash => ?_⟩
    rw [windowCount_hit h ht hroom]
    congr 2
    rw [Target.hit_mapTid, eq_iff_iff]
    constructor
    · rintro ⟨rfl, rfl⟩
      exact ⟨rfl, Function.update_self ..⟩
    · rintro ⟨hcall, _⟩
      cases hcall
      exact ⟨rfl, rfl⟩

theorem windowCount_performAll {calls : List Call} (h : Windows s)
    (hcalls : Along Call.InOrder calls s) (hroom : Along HasRoom calls s) {t : Nat} (ht : t ≠ 0)
    (intHash : Nat) :
    windowCount (performAll calls s).1 t intHash =
      windowCount s t intHash + timesCounted t intHash calls s := by
  induction calls generalizing s with
  | nil => rfl
  | cons c calls ih =>
    obtain ⟨hkeep, hcount⟩ := windows_perform h hcalls.1 hroom.1
    rw [performAll, timesCounted, ih hkeep hcalls.2 hroom.2, hcount t ht, Nat.add_assoc]

theorem loopUnwindedNum_perform (c : Call) (s : Target) :
    (c.perform s).1.loopUnwindedNum = s.loopUnwindedNum := by
  have hout := c.perform_outcome s
  generalize c.perform s = r at hout
  cases hout <;> rfl

theorem Counts.lt {t intHash : Nat} {c : Call} (h : Counts t intHash c s)
    (hpos : 0 < s.loopUnwindedNum) : windowCount s t intHash < s.loopUnwindedNum := by
  obtain ⟨rfl, hmapTid⟩ := h
  by_contra hfull
  have hbounded := mt (loopUnwinded_iff hpos t intHash).mp hfull
  rw [Call.perform, instrLOCString, if_neg hbounded] at hmapTid
  exact Nat.ne_of_lt (Nat.lt_succ_self _) hmapTid

theorem windowCount_performAll_le {calls : List Call} (h : Windows s) (hpos : 0 < s.loopUnwindedNum)
    (hcalls : Along Call.InOrder calls s) (hroom : Along HasRoom calls s) {t : Nat} (ht : t ≠ 0)
    {intHash : Nat} (hle : windowCount s t intHash ≤ s.loopUnwindedNum) :
    windowCount (performAll calls s).1 t intHash ≤ s.loopUnwindedNum := by
  induction calls generalizing s with
  | nil => exact hle
  | cons c calls ih =>
    obtain ⟨hkeep, hcount⟩ := windows_perform h hcalls.1 hroom.1
    have hnum := loopUnwindedNum_perform c s
    rw [performAll, ← hnum]
    apply ih hkeep (hnum ▸ hpos) hcalls.2 hroom.2
    rw [hcount t ht, hnum]
    split
    · next hcounts => exact hcounts.lt hpos
    · exact hle

end Steps

/-- While every counted key point finds room in its row, no location is counted more than
`LOOP_UNWINDED_NUM` times for one child. -/
theorem timesCounted_le (siN siM : Nat) {loopUnwindedNum : Nat} (hpos : 0 < loopUnwindedNum)
    (kp : Nat → Nat) {calls : List Call}
    (hcalls : Along Call.InOrder calls (traceBegin siN siM loopUnwindedNum kp))
    (hroom : Along HasRoom calls (traceBegin siN siM loopUnwindedNum kp)) {t : Nat} (ht : t ≠ 0)
    (intHash : Nat) :
    timesCounted t intHash calls (traceBegin siN siM loopUnwindedNum kp) ≤ loopUnwindedNum := by
  have hstart := windows_traceBegin siN siM loopUnwindedNum kp
  have hempty : windowCount (traceBegin siN siM loopUnwindedNum kp) t intHash = 0 :=
    windowCount_eq_zero (hstart.unregistered t rfl) intHash
  have hend := windowCount_performAll hstart hcalls hroom ht intHash
  have hle := @windowCount_performAll_le _ _ hstart hpos hcalls hroom t ht intHash (by omega)
  rw [hend, hempty, Nat.zero_add] at hle
  exact hle

/-- The second hit is not counted any more. -/
theorem timesCounted_le_once : timesCounted 1 7
    [.pthreadCall 1, .locString 1 7, .locString 1 7] (traceBegin 2 1 1 fun _ => 0) ≤ 1 :=
  @timesCounted_le 2 1 1 (by decide) (fun _ => 0) [.pthreadCall 1, .locString 1 7, .locString 1 7]
    ⟨Nat.le_refl 1, Or.inr rfl, Or.inr rfl, trivial⟩
    ⟨trivial, fun _ _ => by decide, fun _ h => absurd h (by decide), trivial⟩ 1 (by decide) 7

/-- Behind its row of one slot, child 1 hits one location in a loop. From the second hit on
the new ones are stored in the overflow slot, which the test does not look at. -/
theorem timesCounted_exceeds :
    Along Call.InOrder (.pthreadCall 1 :: List.replicate 5 (.locString 1 7))
      (traceBegin 2 1 4 fun _ => 0) ∧
    ¬ timesCounted 1 7 (.pthreadCall 1 :: List.replicate 5 (.locString 1 7))
      (traceBegin 2 1 4 fun _ => 0) ≤ 4 := by
  refine ⟨⟨Nat.le_refl 1, Or.inr rfl, Or.inr rfl, Or.inr rfl, Or.inr rfl, Or.inr rfl, trivial⟩, ?_⟩
  decide

end Period.Runtime
