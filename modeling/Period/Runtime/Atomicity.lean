import Period.Runtime.Execution
import Period.Runtime.Yields

/-!
# Calls take effect at once

While a child drains the count of a key point, the others may hit theirs. As long as every
child stays in its row this cannot be told from executions in which each call of
`instr_LOC_string` is one step, taken when the slot is written.
-/

namespace Period.Runtime

open Aligned Runs RowMajor
set_option autoImplicit false

theorem isBoundedLocHashFrom_congr {kpLoc kpLoc' : Nat → Nat} {slots : List Nat}
    (h : ∀ i ∈ slots, kpLoc i = kpLoc' i) (loopUnwindedNum intHash hitCount : Nat) :
    isBoundedLocHashFrom loopUnwindedNum kpLoc intHash hitCount slots =
      isBoundedLocHashFrom loopUnwindedNum kpLoc' intHash hitCount slots := by
  induction slots generalizing hitCount with
  | nil => rfl
  | cons i slots ih =>
    simp only [isBoundedLocHashFrom, h i List.mem_cons_self,
      ih fun j hj => h j (List.mem_cons_of_mem i hj)]

/-- The test looks at nothing but the window of the thread. -/
theorem loopUnwinded_congr (s s' : Target) {t : Nat}
    (horiginal : s.idxOriginalKpMap t = s'.idxOriginalKpMap t) (hidx : s.idxKpMap t = s'.idxKpMap t)
    (hnum : s.loopUnwindedNum = s'.loopUnwindedNum)
    (hloc : ∀ i, s.idxOriginalKpMap t ≤ i → i < s.idxKpMap t → s.kpLoc i = s'.kpLoc i)
    (intHash : Nat) : loopUnwinded s t intHash = loopUnwinded s' t intHash := by
  unfold loopUnwinded isBoundedLocHash
  rw [← hnum, ← horiginal, ← hidx]
  apply isBoundedLocHashFrom_congr
  intro i hi
  obtain ⟨hlo, hhi⟩ := List.mem_range'_1.mp hi
  exact hloc i hlo (by omega)

/-- The hash and the rounds of a call in the loop. -/
def Point.inLoop : Point → Option (Nat × Nat)
  | .outside => none
  | .draining intHash yields | .yielding intHash yields => some (intHash, yields)

theorem Target.register_of_ne (a : Target) {t u : Nat} (hut : u ≠ t) :
    (a.register t).myTidMap u = a.myTidMap u ∧ (a.register t).idxKpMap u = a.idxKpMap u ∧
      (a.register t).idxOriginalKpMap u = a.idxOriginalKpMap u :=
  ⟨Function.update_of_ne hut _ _, Function.update_of_ne hut _ _, Function.update_of_ne hut _ _⟩

theorem instrPthreadCall_old {a : Target} {t : Nat} (hold : a.myTidMap t = true) :
    instrPthreadCall t a = a := by
  rw [instrPthreadCall, if_pos (Or.inr hold)]

/-- A child in the loop, beside a target that does not know of the call yet. -/
structure Inside (numKp : Nat) (s : Execution) (a : Target) (t intHash yields : Nat) : Prop where
  pos : t ≠ 0
  registered : a.myTidMap t = true
  mapTid_eq : s.target.mapTid t = a.mapTid t + 1
  room : a.mapTid t < numKp
  counted : loopUnwinded a t intHash = true
  drained : a.kpYield (a.idxKpMap t) = s.target.kpYield (a.idxKpMap t) + yields
  left : s.point t = .yielding intHash yields → 0 < s.target.kpYield (a.idxKpMap t)

/-- The execution and a target whose calls are one step each. -/
structure Sim (numKp : Nat) (table : Nat → Nat) (s : Execution) (a : Target) : Prop where
  untouched : Untouched numKp table a
  same : s.target = { a with mapTid := s.target.mapTid, kpYield := s.target.kpYield }
  outside : ∀ t, s.point t = .outside → s.target.mapTid t = a.mapTid t
  inside : ∀ t intHash yields, (s.point t).inLoop = some (intHash, yields) →
    Inside numKp s a t intHash yields
  kpYield_eq : ∀ i, (∀ t, s.point t ≠ .outside → i ≠ a.idxKpMap t) → s.target.kpYield i = a.kpYield i
  bounded : ∀ t, t ≠ 0 → a.mapTid t ≤ numKp

theorem sim_start {numKp : Nat} {table : Nat → Nat} {a : Target} (h : Untouched numKp table a)
    (hbounded : ∀ t, t ≠ 0 → a.mapTid t ≤ numKp) : Sim numKp table (Execution.start a) a :=
  ⟨h, rfl, fun _ _ => rfl, fun _ _ _ hin => (nomatch hin), fun _ _ => rfl, hbounded⟩

theorem inLoop_of_ne {p : Point} (h : p ≠ .outside) : ∃ intHash yields, p.inLoop = some (intHash, yields) := by
  cases p with
  | outside => exact absurd rfl h
  | draining intHash yields => exact ⟨intHash, yields, rfl⟩
  | yielding intHash yields => exact ⟨intHash, yields, rfl⟩

section Sim
variable {numTd numKp : Nat} {table : Nat → Nat} {s : Execution} {a : Target}

theorem Sim.loopUnwinded_eq (h : Sim numKp table s a) (t intHash : Nat) :
    loopUnwinded s.target t intHash = loopUnwinded a t intHash := by
  rw [h.same]
  rfl

/-- Children with room in their rows are at different slots. -/
theorem slot_ne (h : Untouched numKp table a) {t u : Nat} (ht : a.myTidMap t = true)
    (htroom : a.mapTid t < numKp) (hu : a.myTidMap u = true) (huroom : a.mapTid u < numKp)
    (hut : u ≠ t) : a.idxKpMap u ≠ a.idxKpMap t := by
  obtain ⟨htpos, _, htidx⟩ := h.registered t ht
  obtain ⟨hupos, _, huidx⟩ := h.registered u hu
  rw [htidx, huidx]
  intro heq
  have := (index_unique huroom htroom heq).1
  omega

theorem slot_notMem_window (h : Untouched numKp table a) {t u : Nat} (ht : a.myTidMap t = true)
    (htroom : a.mapTid t < numKp) (hu : a.myTidMap u = true) (huroom : a.mapTid u < numKp)
    (hut : u ≠ t) : ¬ (a.idxOriginalKpMap u ≤ a.idxKpMap t ∧ a.idxKpMap t < a.idxKpMap u) := by
  obtain ⟨htpos, _, htidx⟩ := h.registered t ht
  obtain ⟨hupos, huoriginal, huidx⟩ := h.registered u hu
  rw [htidx, huidx, huoriginal]
  rintro ⟨hlo, hhi⟩
  obtain ⟨k, hk⟩ := Nat.exists_eq_add_of_le hlo
  have := (index_unique htroom (l := k) (u := u - 1) (by omega) hk).1
  omega

/-- What other threads do does not concern a child in the loop. -/
theorem Inside.frame {s' : Execution} {a' : Target} {u intHash yields : Nat}
    (h : Inside numKp s a u intHash yields) (hmap : a'.myTidMap u = a.myTidMap u)
    (hmapTid : a'.mapTid u = a.mapTid u) (hidx : a'.idxKpMap u = a.idxKpMap u)
    (hcounted : loopUnwinded a' u intHash = loopUnwinded a u intHash)
    (hyield : a'.kpYield (a.idxKpMap u) = a.kpYield (a.idxKpMap u))
    (hmapTid' : s'.target.mapTid u = s.target.mapTid u)
    (hyield' : s'.target.kpYield (a.idxKpMap u) = s.target.kpYield (a.idxKpMap u))
    (hpoint : s'.point u = s.point u) : Inside numKp s' a' u intHash yields where
  pos := h.pos
  registered := hmap.trans h.registered
  mapTid_eq := by rw [hmapTid, hmapTid', h.mapTid_eq]
  room := hmapTid.symm ▸ h.room
  counted := hcounted.trans h.counted
  drained := by rw [hidx, hyield, hyield', h.drained]
  left hp := by
    rw [hidx, hyield']
    exact h.left (hpoint.symm.trans hp)

theorem Sim.registered (h : Sim numKp table s a) {u : Nat} (hu : s.point u ≠ .outside) :
    a.myTidMap u = true := by
  obtain ⟨intHash, yields, hloop⟩ := inLoop_of_ne hu
  exact (h.inside u intHash yields hloop).registered

theorem Sim.myTidMap_eq (h : Sim numKp table s a) : s.target.myTidMap = a.myTidMap := by rw [h.same]

theorem sim_creates (h : Sim numKp table s a) {t : Nat} (ht : t ≠ 0) :
    Sim numKp table { s with target := instrPthreadCall t s.target } (instrPthreadCall t a) := by
  cases hold : a.myTidMap t with
  | true =>
    rw [instrPthreadCall_old hold, instrPthreadCall_old (by rw [h.myTidMap_eq, hold])]
    exact h
  | false =>
    have hne : ∀ u, s.point u ≠ .outside → u ≠ t := by
      rintro u hu rfl
      exact Bool.noConfusion ((h.registered hu).symm.trans hold)
    rw [instrPthreadCall_new ht hold, instrPthreadCall_new ht (by rw [h.myTidMap_eq, hold])]
    refine ⟨untouched_registers h.untouched ht hold, ?_, h.outside, fun u intHash yields hu => ?_,
      fun i hi => h.kpYield_eq i fun u hu => ?_, h.bounded⟩
    · unfold Target.register
      rw [h.same]
    · obtain ⟨hmap, hidx, horiginal⟩ := a.register_of_ne (hne u fun hout => by rw [hout] at hu; cases hu)
      have hcounted : loopUnwinded (a.register t) u intHash = loopUnwinded a u intHash :=
        loopUnwinded_congr _ _ horiginal hidx rfl (fun _ _ _ => rfl) intHash
      exact (h.inside u intHash yields hu).frame hmap rfl hidx hcounted rfl rfl rfl rfl
    · have hslot := hi u hu
      rwa [(a.register_of_ne (hne u hu)).2.1] at hslot

theorem sim_counts (h : Sim numKp table s a) (hout : s.point 0 = .outside) :
    Sim numKp table (s.count 0) { a with mapTid := Function.update a.mapTid 0 (a.mapTid 0 + 1) } := by
  have hother : ∀ u, u ≠ 0 → Function.update a.mapTid 0 (a.mapTid 0 + 1) u = a.mapTid u :=
    fun u hu => Function.update_of_ne hu _ _
  refine ⟨untouched_quiet h.untouched hother, ?_, fun u hu => ?_, fun u intHash yields hu => ?_,
    h.kpYield_eq, fun u hu => Nat.le_trans (Nat.le_of_eq (hother u hu)) (h.bounded u hu)⟩
  · unfold Execution.count
    rw [h.same]
  · by_cases hu0 : u = 0
    · subst hu0
      simp only [Execution.count, Function.update_self, h.outside 0 hout]
    · simp only [Execution.count, Function.update_of_ne hu0]
      exact h.outside u hu
  · have hin := h.inside u intHash yields hu
    exact hin.frame rfl (hother u hin.pos) rfl rfl rfl (Function.update_of_ne hin.pos _ _) rfl rfl

/-- A child that comes or goes is the only one whose point changes. -/
theorem goto_outside {s : Execution} {t u : Nat} {p : Point} (hp : p ≠ .outside)
    (hu : (s.goto t p).point u = .outside) : u ≠ t ∧ s.point u = .outside := by
  have hut : u ≠ t := by
    rintro rfl
    exact hp ((s.goto_self u p).symm.trans hu)
  exact ⟨hut, (s.goto_other p hut).symm.trans hu⟩

theorem goto_inside {s : Execution} {t u : Nat} {p : Point} (hp : p ≠ .outside)
    (hu : s.point u ≠ .outside) : (s.goto t p).point u ≠ .outside :=
  fun hout => hu (goto_outside hp hout).2

theorem Sim.slot_eq (h : Sim numKp table s a) (t : Nat) : s.slot t = a.idxKpMap t := by
  unfold Execution.slot
  rw [h.same]

theorem sim_enters (h : Sim numKp table s a) {t intHash : Nat} (hpos : t ≠ 0)
    (hout : s.point t = .outside) (hreg : a.myTidMap t = true) (hroom : a.mapTid t < numKp)
    (hcounted : loopUnwinded a t intHash = true) :
    Sim numKp table ((s.count t).goto t (.draining intHash 0)) a := by
  have hmapTid : ∀ u, u ≠ t → (s.count t).target.mapTid u = s.target.mapTid u :=
    fun u hu => Function.update_of_ne hu _ _
  refine ⟨h.untouched, ?_, fun u hu => ?_, fun u intHash' yields hu => ?_,
    fun i hi => h.kpYield_eq i fun u hu => hi u (goto_inside (by nofun) hu), h.bounded⟩
  · unfold Execution.goto Execution.count
    rw [h.same]
  · obtain ⟨hut, hu⟩ := goto_outside (by nofun) hu
    exact (hmapTid u hut).trans (h.outside u hu)
  · by_cases hut : u = t
    · subst hut
      rw [Execution.goto_self] at hu
      cases hu
      -- nobody else is at the slot
      have hown : s.target.kpYield (a.idxKpMap u) = a.kpYield (a.idxKpMap u) := by
        refine h.kpYield_eq _ fun v hv => ?_
        obtain ⟨intHash', yields', hloop⟩ := inLoop_of_ne hv
        have hin := h.inside v intHash' yields' hloop
        refine slot_ne h.untouched hin.registered hin.room hreg hroom ?_
        rintro rfl
        exact hv hout
      refine ⟨hpos, hreg, ?_, hroom, hcounted, hown.symm, fun hp => ?_⟩
      · rw [← h.outside u hout]
        exact Function.update_self ..
      · rw [Execution.goto_self] at hp
        cases hp
    · rw [Execution.goto_other _ _ hut] at hu
      exact (h.inside u intHash' yields hu).frame rfl rfl rfl rfl rfl (hmapTid u hut) rfl
        (Execution.goto_other _ _ hut)

theorem sim_sleeps (h : Sim numKp table s a) {t intHash yields : Nat}
    (hp : s.point t = .draining intHash yields) (hleft : 0 < s.target.kpYield (s.slot t)) :
    Sim numKp table { s.goto t (.yielding intHash yields) with clock := s.clock.yield t } a := by
  refine ⟨h.untouched, h.same, fun u hu => h.outside u (goto_outside (by nofun) hu).2,
    fun u intHash' yields' hu => ?_, fun i hi => h.kpYield_eq i fun u hu => hi u (goto_inside (by nofun) hu),
    h.bounded⟩
  by_cases hut : u = t
  · subst hut
    rw [Execution.goto_self] at hu
    cases hu
    have hin := h.inside u intHash yields (by rw [hp]; rfl)
    exact ⟨hin.pos, hin.registered, hin.mapTid_eq, hin.room, hin.counted, hin.drained,
      fun _ => h.slot_eq u ▸ hleft⟩
  · rw [Execution.goto_other _ _ hut] at hu
    exact (h.inside u intHash' yields' hu).frame rfl rfl rfl rfl rfl rfl rfl
      (Execution.goto_other _ _ hut)

theorem Sim.own_slot (h : Sim numKp table s a) {t u : Nat} (ht : s.point t ≠ .outside)
    (hu : s.point u ≠ .outside) (hut : u ≠ t) : a.idxKpMap u ≠ a.idxKpMap t := by
  obtain ⟨intHash, yields, hloop⟩ := inLoop_of_ne ht
  obtain ⟨intHash', yields', hloop'⟩ := inLoop_of_ne hu
  have hin := h.inside t intHash yields hloop
  have hin' := h.inside u intHash' yields' hloop'
  exact slot_ne h.untouched hin.registered hin.room hin'.registered hin'.room hut

theorem sim_wakes (h : Sim numKp table s a) {t intHash yields : Nat}
    (hp : s.point t = .yielding intHash yields) :
    Sim numKp table ((s.drain t).goto t (.draining intHash (yields + 1))) a := by
  have ht : s.point t ≠ .outside := by rw [hp]; nofun
  have hin := h.inside t intHash yields (by rw [hp]; rfl)
  have hleft := hin.left hp
  have hdrained := hin.drained
  have hother : ∀ i, i ≠ a.idxKpMap t → (s.drain t).target.kpYield i = s.target.kpYield i :=
    fun i hi => Function.update_of_ne (by rw [h.slot_eq]; exact hi) _ _
  have hself : (s.drain t).target.kpYield (a.idxKpMap t) = s.target.kpYield (a.idxKpMap t) - 1 := by
    rw [← h.slot_eq]
    exact Function.update_self ..
  refine ⟨h.untouched, ?_, fun u hu => h.outside u (goto_outside (by nofun) hu).2,
    fun u intHash' yields' hu => ?_, fun i hi => ?_, h.bounded⟩
  · unfold Execution.goto Execution.drain
    rw [h.same]
  · by_cases hut : u = t
    · subst hut
      rw [Execution.goto_self] at hu
      cases hu
      refine ⟨hin.pos, hin.registered, hin.mapTid_eq, hin.room, hin.counted, ?_, fun hp' => ?_⟩
      · show _ = (s.drain u).target.kpYield (a.idxKpMap u) + (yields + 1)
        rw [hself]
        omega
      · rw [Execution.goto_self] at hp'
        cases hp'
    · rw [Execution.goto_other _ _ hut] at hu
      have hu' : s.point u ≠ .outside := fun hout => by
        have hnone : (s.point u).inLoop = some (intHash', yields') := hu
        rw [hout] at hnone
        cases hnone
      exact (h.inside u intHash' yields' hu).frame rfl rfl rfl rfl rfl rfl
        (hother _ (h.own_slot ht hu' hut)) (Execution.goto_other _ _ hut)
  · have hit : i ≠ a.idxKpMap t := hi t (goto_inside (by nofun) ht)
    show (s.drain t).target.kpYield i = a.kpYield i
    rw [hother i hit]
    exact h.kpYield_eq i fun u hu => hi u (goto_inside (by nofun) hu)

theorem sim_records (h : Sim numKp table s a) {t intHash yields : Nat}
    (hp : s.point t = .draining intHash yields) (hdrained : s.target.kpYield (s.slot t) = 0) :
    Sim numKp table (s.leave t intHash yields) (a.hit t intHash) := by
  have ht : s.point t ≠ .outside := by rw [hp]; nofun
  have hin := h.inside t intHash yields (by rw [hp]; rfl)
  have hslot := h.slot_eq t
  have hself : (s.leave t intHash yields).point t = .outside := s.goto_self t .outside
  have hother : ∀ u, u ≠ t → (s.leave t intHash yields).point u = s.point u :=
    fun u hut => s.goto_other .outside hut
  have hidx : ∀ u, u ≠ t → (a.hit t intHash).idxKpMap u = a.idxKpMap u :=
    fun u hut => Function.update_of_ne hut _ _
  have hmapTid : ∀ u, u ≠ t → (a.hit t intHash).mapTid u = a.mapTid u :=
    fun u hut => Function.update_of_ne hut _ _
  refine ⟨untouched_hit h.untouched hin.registered hin.room intHash, ?_, fun u hu => ?_,
    fun u intHash' yields' hu => ?_, fun i hi => ?_, fun u hu => ?_⟩
  · unfold Execution.leave Execution.goto Execution.slot Target.hit
    rw [h.same]
    rfl
  · by_cases hut : u = t
    · subst hut
      rw [Target.hit_mapTid, Function.update_self]
      exact hin.mapTid_eq
    · rw [hmapTid u hut]
      exact h.outside u (hother u hut ▸ hu)
  · have hut : u ≠ t := by
      rintro rfl
      rw [hself] at hu
      cases hu
    rw [hother u hut] at hu
    have hin' := h.inside u intHash' yields' hu
    have hne := slot_ne h.untouched hin.registered hin.room hin'.registered hin'.room hut
    have hcounted : loopUnwinded (a.hit t intHash) u intHash' = loopUnwinded a u intHash' := by
      refine loopUnwinded_congr (a.hit t intHash) a rfl (hidx u hut) rfl (fun i hlo hhi => ?_) intHash'
      rw [hidx u hut] at hhi
      refine Function.update_of_ne ?_ _ _
      rintro rfl
      exact slot_notMem_window h.untouched hin.registered hin.room hin'.registered hin'.room hut
        ⟨hlo, hhi⟩
    exact hin'.frame rfl (hmapTid u hut) (hidx u hut) hcounted (Function.update_of_ne hne _ _) rfl rfl
      (hother u hut)
  · show s.target.kpYield i = (a.hit t intHash).kpYield i
    rw [Target.hit_kpYield]
    by_cases hit : i = a.idxKpMap t
    · subst hit
      rw [Function.update_self, ← hslot]
      exact hdrained
    · rw [Function.update_of_ne hit]
      refine h.kpYield_eq i fun u hu => ?_
      by_cases hut : u = t
      · subst hut
        exact hit
      · exact hidx u hut ▸ hi u (by rwa [hother u hut])
  · by_cases hut : u = t
    · subst hut
      rw [Target.hit_mapTid, Function.update_self]
      exact hin.room
    · rw [hmapTid u hut]
      exact h.bounded u hu

theorem performAll_singleton (c : Call) (a : Target) :
    performAll [c] a = ((c.perform a).1, (c.perform a).2.toList) := by
  simp [performAll]

/-- What an act does is what the calls do that take effect with it. -/
theorem sim_step {act : Act} {calls : List Call} {s' : Execution}
    (hout : s.StepOutcome act calls s') (hact : act.InRow numTd s) (h : Sim numKp table s a) :
    Along (Call.Admissible numTd) calls a ∧ Sim numKp table s' (performAll calls a).1 ∧
      s'.log.map (·.access) = s.log.map (·.access) ++ (performAll calls a).2 := by
  have hnil : s.log.map (·.access) = s.log.map (·.access) ++ (performAll [] a).2 :=
    (List.append_nil _).symm
  cases hout with
  | idle _ => exact ⟨trivial, h, hnil⟩
  | ticks => exact ⟨trivial, ⟨h.untouched, h.same, h.outside,
      fun u intHash yields hu => (h.inside u intHash yields hu).frame rfl rfl rfl rfl rfl rfl rfl rfl,
      h.kpYield_eq, h.bounded⟩, hnil⟩
  | creates t =>
    rw [performAll_singleton]
    exact ⟨⟨hact, trivial⟩, sim_creates h (by have := hact.1; omega), hnil⟩
  | skips t intHash hcounted =>
    have hperform : (Call.locString t intHash).perform a = (a, none) := by
      rw [Call.perform, instrLOCString, if_neg (by rw [← h.loopUnwinded_eq, hcounted]; decide)]
    rw [performAll_singleton, hperform]
    exact ⟨⟨hact.imp id fun hreg => h.myTidMap_eq ▸ hreg.1, trivial⟩, h, hnil⟩
  | counts intHash hzero hcounted =>
    have hperform : (Call.locString 0 intHash).perform a =
        ({ a with mapTid := Function.update a.mapTid 0 (a.mapTid 0 + 1) }, none) := by
      rw [Call.perform, instrLOCString, if_pos (by rw [← h.loopUnwinded_eq, hcounted]), if_pos rfl]
    rw [performAll_singleton, hperform]
    exact ⟨⟨Or.inl rfl, trivial⟩, sim_counts h hzero, hnil⟩
  | enters t intHash hpos hzero hcounted =>
    obtain ⟨hreg, hroom⟩ := hact.resolve_left hpos
    rw [h.myTidMap_eq] at hreg
    have hroom := hroom hzero hcounted
    have hnumKp : s.target.numKp = numKp := by rw [h.same]; exact h.untouched.numKp_eq
    rw [hnumKp, h.outside t hzero] at hroom
    exact ⟨trivial, sim_enters h hpos hzero hreg hroom (by rw [← h.loopUnwinded_eq, hcounted]), hnil⟩
  | sleeps t intHash yields hpoint hleft => exact ⟨trivial, sim_sleeps h hpoint hleft, hnil⟩
  | wakes t intHash yields hpoint _ => exact ⟨trivial, sim_wakes h hpoint, hnil⟩
  | records t intHash yields hpoint hdrained =>
    have hin := h.inside t intHash yields (by rw [hpoint]; rfl)
    have hyields : a.kpYield (a.idxKpMap t) = yields := by
      rw [hin.drained, ← h.slot_eq, hdrained, Nat.zero_add]
    rw [performAll_singleton, perform_counted hin.pos hin.counted, hyields]
    refine ⟨⟨Or.inr hin.registered, trivial⟩, sim_records h hpoint hdrained, ?_⟩
    show (s.log ++ [s.hit t intHash yields]).map (·.access) = _
    rw [List.map_append, List.map_singleton]
    unfold Execution.hit
    rw [h.slot_eq]
    rfl

theorem sim_run {acts : List Act} (hacts : Meets Execution.step (Act.InRow numTd) acts s)
    (h : Sim numKp table s a) :
    Along (Call.Admissible numTd) (s.linear acts) a ∧
      Sim numKp table (run Execution.step acts s) (performAll (s.linear acts) a).1 ∧
      (run Execution.step acts s).log.map (·.access) =
        s.log.map (·.access) ++ (performAll (s.linear acts) a).2 := by
  induction acts generalizing s a with
  | nil => exact ⟨trivial, h, (List.append_nil _).symm⟩
  | cons act acts ih =>
    obtain ⟨hact, hacts⟩ := hacts
    obtain ⟨hcalls, hsim, hlog⟩ := sim_step (Execution.step_outcome act s) hact h
    obtain ⟨hcalls', hsim', hlog'⟩ := ih hacts hsim
    rw [Execution.linear, along_append, performAll_append]
    refine ⟨⟨hcalls, hcalls'⟩, hsim', ?_⟩
    rw [← List.append_assoc, ← hlog]
    exact hlog'

end Sim

/-- The second child sleeps through a period, the first one passes its key point. -/
def overtaking : List Act :=
  [.create 1, .create 2, .call 2 8, .yield 2, .call 1 7, .record 1, .tick, .wake 2, .record 2]

end Period.Runtime
