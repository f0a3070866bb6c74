import Period.Runtime.Yields

/-!
# Children that leave their rows

A child that hits more key points than its row has slots takes the first slot of the next row
for the first one too many, and slots without a count from then on. What the children yield
does not depend on the order of their key points exactly when these first slots are empty.
-/

namespace Period.Runtime

open RowMajor
set_option autoImplicit false

/-- What holds in every run, in whatever order the children hit their key points. -/
structure Standing (numTd numKp : Nat) (table : Nat → Nat) (s : Target) : Prop where
  numTd_eq : s.numTd = numTd
  numKp_eq : s.numKp = numKp
  registered : ∀ t, s.myTidMap t = true → t ≠ 0 ∧ s.idxOriginalKpMap t = (t - 1) * numKp ∧
    (s.mapTid t ≤ numKp → s.idxKpMap t = (t - 1) * numKp + s.mapTid t) ∧
    (numKp < s.mapTid t → numTd * numKp ≤ s.idxKpMap t)
  unregistered : ∀ t, t ≠ 0 → s.myTidMap t = false → s.mapTid t = 0
  drained : ∀ x, s.kpYield x = table x ∨ s.kpYield x = 0

/-- The slots of a row behind the key points of its child are as they were. -/
def RowsLeft (numKp : Nat) (table : Nat → Nat) (s : Target) : Prop :=
  ∀ t k, t ≠ 0 → s.mapTid t ≤ k → k < numKp →
    s.kpYield ((t - 1) * numKp + k) = table ((t - 1) * numKp + k)

/-- The first slots of the rows behind a child's are empty. -/
def Apart (numKp : Nat) (table : Nat → Nat) : Prop := ∀ t, t ≠ 0 → table (t * numKp) = 0

theorem standing_traceBegin (siN siM loopUnwindedNum : Nat) (kp : Nat → Nat) :
    Standing siN siM (loadYield siN siM kp) (traceBegin siN siM loopUnwindedNum kp) :=
  ⟨rfl, rfl, fun _ ht => Bool.noConfusion ht, fun _ _ _ => rfl, fun _ => Or.inl rfl⟩

section Steps
variable {numTd numKp : Nat} {table : Nat → Nat} {s : Target} {t : Nat}

theorem slot_behind_row (ht : t ≠ 0) : (t - 1) * numKp + numKp = t * numKp := by
  rw [← Nat.succ_mul, Nat.succ_eq_add_one, Nat.sub_add_cancel (Nat.pos_of_ne_zero ht)]

theorem standing_registers (h : Standing numTd numKp table s) (hpos : t ≠ 0) (hnew : s.myTidMap t = false) :
    Standing numTd numKp table (s.register t) := by
  refine ⟨h.numTd_eq, h.numKp_eq, fun u hu => ?_, fun u hu0 hu => ?_, h.drained⟩
  · rw [Target.register_idxKpMap, Target.register_idxOriginalKpMap, h.numKp_eq]
    by_cases htu : u = t
    · subst htu
      have hzero : (s.register u).mapTid u = 0 := h.unregistered u hpos hnew
      rw [Function.update_self, Function.update_self, hzero]
      exact ⟨hpos, rfl, fun _ => rfl, fun hlt => absurd hlt (Nat.not_lt_zero _)⟩
    · rw [Target.register_myTidMap, Function.update_of_ne htu] at hu
      rw [Function.update_of_ne htu, Function.update_of_ne htu]
      exact h.registered u hu
  · rw [Target.register_myTidMap] at hu
    by_cases htu : u = t
    · subst htu
      rw [Function.update_self] at hu
      cases hu
    · rw [Function.update_of_ne htu] at hu
      exact h.unregistered u hu0 hu

theorem advance_standing (h : Standing numTd numKp table s) (ht : s.myTidMap t = true) :
    (s.mapTid t + 1 ≤ numKp → advance s t = (t - 1) * numKp + (s.mapTid t + 1)) ∧
    (numKp < s.mapTid t + 1 → numTd * numKp ≤ advance s t) := by
  obtain ⟨_, horiginal, hrow, hbehind⟩ := h.registered t ht
  rw [advance, h.numTd_eq, h.numKp_eq, horiginal]
  constructor
  · intro hroom
    rw [hrow (by omega), if_neg (by omega), Nat.add_assoc]
  · intro hleft
    rcases Nat.lt_or_ge numKp (s.mapTid t) with hlt | hge
    · have hidx := hbehind hlt
      split
      · exact Nat.le_refl _
      · omega
    · rw [hrow hge]
      exact Nat.le_of_eq (if_pos (by omega)).symm

theorem standing_hit (h : Standing numTd numKp table s) (ht : s.myTidMap t = true) (intHash : Nat) :
    Standing numTd numKp table (s.hit t intHash) := by
  refine ⟨h.numTd_eq, h.numKp_eq, fun u hu => ?_, fun u hu0 hu => ?_, fun x => ?_⟩
  · by_cases htu : u = t
    · subst htu
      obtain ⟨hpos, horiginal, _⟩ := h.registered u ht
      rw [Target.hit_idxKpMap, Target.hit_mapTid, Function.update_self, Function.update_self]
      exact ⟨hpos, horiginal, advance_standing h ht⟩
    · rw [Target.hit_idxKpMap, Target.hit_mapTid, Function.update_of_ne htu, Function.update_of_ne htu]
      exact h.registered u hu
  · rw [Target.hit_mapTid, Function.update_of_ne (Target.ne_of_registered ht hu)]
    exact h.unregistered u hu0 hu
  · rw [Target.hit_kpYield]
    by_cases hx : x = s.idxKpMap t
    · exact Or.inr (by rw [hx, Function.update_self])
    · rw [Function.update_of_ne hx]
      exact h.drained x

theorem standing_quiet (h : Standing numTd numKp table s) {m : Nat → Nat}
    (hm : ∀ t, t ≠ 0 → m t = s.mapTid t) : Standing numTd numKp table { s with mapTid := m } := by
  refine ⟨h.numTd_eq, h.numKp_eq, fun u hu => ?_, fun u hu0 hu => ?_, h.drained⟩
  · obtain ⟨hu0, hplace⟩ := h.registered u hu
    show u ≠ 0 ∧ s.idxOriginalKpMap u = _ ∧ (m u ≤ _ → _ = _ + m u) ∧ (_ < m u → _)
    rw [hm u hu0]
    exact ⟨hu0, hplace⟩
  · exact (hm u hu0).trans (h.unregistered u hu0 hu)

/-- What a counted key point finds in its slot when the first slots of the rows are empty. -/
theorem count_of_hit (h : Standing numTd numKp table s) (hrows : RowsLeft numKp table s)
    (hapart : Apart numKp table) (hbehind : ∀ x, numTd * numKp ≤ x → table x = 0)
    (ht : s.myTidMap t = true) :
    s.kpYield (s.idxKpMap t) = if s.mapTid t < numKp then table ((t - 1) * numKp + s.mapTid t) else 0 := by
  obtain ⟨hpos, _, hrow, hleft⟩ := h.registered t ht
  have hempty : ∀ x, table x = 0 → s.kpYield x = 0 := by
    intro x hx
    rcases h.drained x with heq | heq
    · rw [heq, hx]
    · exact heq
  split
  · next hlt => rw [hrow (Nat.le_of_lt hlt), hrows t _ hpos (Nat.le_refl _) hlt]
  · next hge =>
    apply hempty
    rcases Nat.lt_or_ge numKp (s.mapTid t) with hlt | hle
    · exact hbehind _ (hleft hlt)
    · have heq : s.mapTid t = numKp := by omega
      rw [hrow hle, heq, slot_behind_row hpos]
      exact hapart t hpos

/-- A key point drains a slot of its own row or one without a count. -/
theorem rowsLeft_hit (h : Standing numTd numKp table s) (hrows : RowsLeft numKp table s)
    (hapart : Apart numKp table) (hbehind : ∀ x, numTd * numKp ≤ x → table x = 0)
    (ht : s.myTidMap t = true) (intHash : Nat) : RowsLeft numKp table (s.hit t intHash) := by
  intro u k hu hk hkm
  obtain ⟨hpos, _, hrow, hleft⟩ := h.registered t ht
  rw [Target.hit_mapTid, Function.update_apply] at hk
  have hold : s.kpYield ((u - 1) * numKp + k) = table ((u - 1) * numKp + k) := by
    apply hrows u k hu _ hkm
    split at hk
    · next htu =>
      rw [htu]
      omega
    · exact hk
  rw [Target.hit_kpYield]
  by_cases hslot : (u - 1) * numKp + k = s.idxKpMap t
  · rw [hslot, Function.update_self]
    symm
    rcases Nat.lt_trichotomy (s.mapTid t) numKp with hlt | heq | hgt
    · -- the slot is of the row of `t`, and its key point is over
      rw [hrow (Nat.le_of_lt hlt)] at hslot
      obtain ⟨hut, hkt⟩ := index_unique hkm hlt hslot
      rw [if_pos (by omega)] at hk
      omega
    · rw [hrow (Nat.le_of_eq heq), heq, slot_behind_row hpos]
      exact hapart t hpos
    · exact hbehind _ (hleft hgt)
  · rw [Function.update_of_ne hslot]
    exact hold

theorem standing_perform (h : Standing numTd numKp table s) {c : Call} (hc : c.InOrder s) :
    Standing numTd numKp table (c.perform s).1 := by
  have hout := c.perform_outcome s
  generalize c.perform s = r at hout
  cases hout with
  | quiet m hm => exact standing_quiet h hm
  | registers t _ hpos hnew => exact standing_registers h hpos hnew
  | hits t intHash hcall hpos _ =>
    subst hcall
    exact standing_hit h (hc.resolve_left hpos) intHash

/-- What the children yield when the first slots of the rows are empty. -/
theorem yieldsOf_anyRun {calls : List Call} (h : Standing numTd numKp table s)
    (hrows : RowsLeft numKp table s) (hapart : Apart numKp table)
    (hbehind : ∀ x, numTd * numKp ≤ x → table x = 0) (hcalls : Along Call.InOrder calls s) (ht : t ≠ 0) :
    yieldsOf t (performAll calls s).2 =
      (List.range' (s.mapTid t) (yieldsOf t (performAll calls s).2).length).map
        fun k => if k < numKp then table ((t - 1) * numKp + k) else 0 := by
  induction calls generalizing s with
  | nil => rfl
  | cons c calls ih =>
    obtain ⟨hc, hcalls⟩ := hcalls
    have hstanding := standing_perform h hc
    rw [performAll]
    have hout := c.perform_outcome s
    generalize c.perform s = r at hout hcalls hstanding ⊢
    cases hout with
    | quiet m hm =>
      have hsame : RowsLeft numKp table { s with mapTid := m } :=
        fun u k hu hk => hrows u k hu (hm u hu ▸ hk)
      have := ih hstanding hsame hcalls
      rwa [show ({ s with mapTid := m } : Target).mapTid t = s.mapTid t from hm t ht] at this
    | registers u _ _ _ => exact ih hstanding hrows hcalls
    | hits u intHash hcall hpos _ =>
      subst hcall
      have hu := hc.resolve_left hpos
      have ih := ih hstanding (rowsLeft_hit h hrows hapart hbehind hu intHash) hcalls
      simp only [Option.toList_some, List.singleton_append, yieldsOf_cons]
      by_cases hut : u = t
      · subst hut
        rw [Target.hit_mapTid, Function.update_self] at ih
        rw [if_pos rfl, List.length_cons, List.range'_succ, List.map_cons, ← ih,
          count_of_hit h hrows hapart hbehind hu]
      · rw [Target.hit_mapTid, Function.update_of_ne (Ne.symm hut)] at ih
        rwa [if_neg hut]

end Steps

/-! ## Runs of one child -/

section Hits
variable {s : Target} {t first c : Nat}

/-- A child hits key points with increasing hashes. -/
def hitsFrom (t first c : Nat) : List Call := (List.range' first c).map (.locString t)

theorem along_hitsFrom (ht : s.myTidMap t = true) : Along Call.InOrder (hitsFrom t first c) s := by
  induction c generalizing s first with
  | zero => trivial
  | succ c ih =>
    refine ⟨Or.inr ht, ih ?_⟩
    have hout := (Call.locString t first).perform_outcome s
    generalize (Call.locString t first).perform s = r at hout
    cases hout with
    | quiet _ _ => exact ht
    | registers _ hcall _ _ => cases hcall
    | hits _ _ hcall _ _ => exact ht

theorem performAll_hitsFrom (ht : t ≠ 0) (hloop : 0 < s.loopUnwindedNum) (hhash : ∀ x, s.kpLoc x < first) :
    performAll (hitsFrom t first (c + 1)) s =
      ((performAll (hitsFrom t (first + 1) c) (s.hit t first)).1,
        ⟨t, s.idxKpMap t, s.kpYield (s.idxKpMap t)⟩ ::
          (performAll (hitsFrom t (first + 1) c) (s.hit t first)).2) := by
  have hcounted : loopUnwinded s t first = true :=
    isBoundedLocHashFrom_of_ne (fun x _ => Nat.ne_of_lt (hhash x)) hloop
  rw [hitsFrom, List.range'_succ, List.map_cons, performAll, perform_counted ht hcounted]
  rfl

theorem hit_kpLoc_lt (hhash : ∀ x, s.kpLoc x < first) (x : Nat) : (s.hit t first).kpLoc x < first + 1 := by
  rw [Target.hit_kpLoc, Function.update_apply]
  split
  · exact Nat.lt_succ_self first
  · exact Nat.lt_succ_of_lt (hhash x)

theorem length_yieldsOf_hitsFrom (ht : t ≠ 0) (hloop : 0 < s.loopUnwindedNum)
    (hhash : ∀ x, s.kpLoc x < first) : (yieldsOf t (performAll (hitsFrom t first c) s).2).length = c := by
  induction c generalizing s first with
  | zero => rfl
  | succ c ih =>
    rw [performAll_hitsFrom ht hloop hhash, yieldsOf_cons, if_pos rfl, List.length_cons,
      ih (s := s.hit t first) hloop (hit_kpLoc_lt hhash)]

/-- A child that is alone finds what its row and the slot behind it hold. -/
theorem yieldsOf_hitsFrom (ht : t ≠ 0) (hloop : 0 < s.loopUnwindedNum) (hhash : ∀ x, s.kpLoc x < first)
    {j : Nat} (hidx : s.idxKpMap t = s.idxOriginalKpMap t + j) (hroom : j + c ≤ s.numKp + 1) :
    yieldsOf t (performAll (hitsFrom t first c) s).2 =
      (List.range' j c).map fun k => s.kpYield (s.idxOriginalKpMap t + k) := by
  induction c generalizing s first j with
  | zero => rfl
  | succ c ih =>
    rw [performAll_hitsFrom ht hloop hhash, yieldsOf_cons, if_pos rfl, List.range'_succ, List.map_cons, hidx]
    congr 1
    rcases Nat.eq_zero_or_pos c with rfl | hc
    · rfl
    · have hadvance : (s.hit t first).idxKpMap t = s.idxOriginalKpMap t + (j + 1) := by
        rw [Target.hit_idxKpMap, Function.update_self, advance, if_neg (by omega), hidx, Nat.add_assoc]
      rw [ih (s := s.hit t first) hloop (hit_kpLoc_lt hhash) hadvance (by show j + 1 + c ≤ s.numKp + 1; omega)]
      apply List.map_congr_left
      intro k hk
      obtain ⟨hk, _⟩ := List.mem_range'_1.mp hk
      rw [Target.hit_kpYield, Function.update_of_ne]
      · rfl
      · show s.idxOriginalKpMap t + k ≠ s.idxKpMap t
        omega

theorem perform_pthreadCall (ht : t ≠ 0) (hnew : s.myTidMap t = false) :
    (Call.pthreadCall t).perform s = (s.register t, none) := by
  rw [Call.perform, instrPthreadCall_new ht hnew]

end Hits

section Launched
variable {numTd numKp loopUnwindedNum : Nat} {kp : Nat → Nat} {count : Nat → Nat → Nat}

/-- In every run, each child yields before its key points as often as `count` says. -/
def YieldsAlways (s : Target) (count : Nat → Nat → Nat) : Prop :=
  ∀ calls, Along Call.InOrder calls s → ∀ t, yieldsOf (t + 1) (performAll calls s).2 =
    (List.range (yieldsOf (t + 1) (performAll calls s).2).length).map (count t)

theorem loadYield_behind {x : Nat} (hx : numTd * numKp ≤ x) : loadYield numTd numKp kp x = 0 :=
  if_neg fun h => Nat.not_lt_of_le hx h.1

theorem yieldsOf_append (t : Nat) (accesses accesses' : List Access) :
    yieldsOf t (accesses ++ accesses') = yieldsOf t accesses ++ yieldsOf t accesses' := by
  rw [yieldsOf, List.filter_append, List.map_append, ← yieldsOf, ← yieldsOf]

/-- The yields of a child before the first key point too many, when it starts from here. -/
theorem count_of_hits {s : Target} (before : List Call) (first : Nat) {t : Nat}
    (h : YieldsAlways (traceBegin numTd numKp loopUnwindedNum kp) count)
    (hbefore : Along Call.InOrder before (traceBegin numTd numKp loopUnwindedNum kp))
    (hs : (performAll before (traceBegin numTd numKp loopUnwindedNum kp)).1 = s)
    (hnone : yieldsOf (t + 1) (performAll before (traceBegin numTd numKp loopUnwindedNum kp)).2 = [])
    (hreg : s.myTidMap (t + 1) = true) (hnumKp : s.numKp = numKp) (hloop : 0 < s.loopUnwindedNum)
    (hhash : ∀ x, s.kpLoc x < first) (horiginal : s.idxOriginalKpMap (t + 1) = t * numKp)
    (hidx : s.idxKpMap (t + 1) = t * numKp) : count t numKp = s.kpYield ((t + 1) * numKp) := by
  have hyields := h (before ++ hitsFrom (t + 1) first (numKp + 1))
    (along_append.mpr ⟨hbefore, by rw [hs]; exact along_hitsFrom hreg⟩) t
  have hhits := yieldsOf_hitsFrom (c := numKp + 1) (j := 0) (Nat.succ_ne_zero t) hloop hhash
    (by rw [hidx, horiginal, Nat.add_zero]) (by omega)
  have hsplit : yieldsOf (t + 1) (performAll (before ++ hitsFrom (t + 1) first (numKp + 1))
      (traceBegin numTd numKp loopUnwindedNum kp)).2 =
      (List.range' 0 (numKp + 1)).map fun k => s.kpYield (s.idxOriginalKpMap (t + 1) + k) := by
    rw [performAll_append, hs, yieldsOf_append, hnone, hhits, List.nil_append]
  rw [hsplit, List.length_map, List.length_range'] at hyields
  have hlast := congrArg (·[numKp]?) hyields
  simp only [List.getElem?_map, List.getElem?_range (Nat.lt_succ_self numKp),
    List.getElem?_range' (Nat.lt_succ_self numKp), Option.map_some, Option.some.injEq] at hlast
  have hend : (t + 1) * numKp = t * numKp + numKp := Nat.succ_mul t numKp
  rw [← hlast, horiginal, hend]
  congr 1
  omega

/-- A child that is alone finds the first slot of the next row as it was loaded. -/
theorem count_of_alone (hloop : 0 < loopUnwindedNum)
    (h : YieldsAlways (traceBegin numTd numKp loopUnwindedNum kp) count) (t : Nat) :
    count t numKp = loadYield numTd numKp kp ((t + 1) * numKp) := by
  have hchild := perform_pthreadCall (s := traceBegin numTd numKp loopUnwindedNum kp) (Nat.succ_ne_zero t) rfl
  have hrun : performAll [.pthreadCall (t + 1)] (traceBegin numTd numKp loopUnwindedNum kp) =
      ((traceBegin numTd numKp loopUnwindedNum kp).register (t + 1), []) := by
    rw [performAll, hchild]
    rfl
  refine count_of_hits (s := (traceBegin numTd numKp loopUnwindedNum kp).register (t + 1))
    [.pthreadCall (t + 1)] 1 h ⟨Nat.succ_pos t, trivial⟩ (by rw [hrun]) (by rw [hrun]; rfl) ?_ rfl hloop
    (fun _ => Nat.one_pos) ?_ ?_
  · rw [Target.register_myTidMap, Function.update_self]
  · rw [Target.register_idxOriginalKpMap, Function.update_self]
    rfl
  · rw [Target.register_idxKpMap, Function.update_self]
    rfl

/-- When the next child has been there first, the slot is empty. -/
theorem count_of_second (hloop : 0 < loopUnwindedNum)
    (h : YieldsAlways (traceBegin numTd numKp loopUnwindedNum kp) count) (t : Nat) : count t numKp = 0 := by
  let s := ((traceBegin numTd numKp loopUnwindedNum kp).register (t + 2)).register (t + 1)
  have hne : t + 2 ≠ t + 1 := by omega
  have hnew : ((traceBegin numTd numKp loopUnwindedNum kp).register (t + 2)).myTidMap (t + 1) = false := by
    rw [Target.register_myTidMap, Function.update_of_ne hne.symm]
    rfl
  have hreg : s.myTidMap (t + 2) = true := by
    simp only [s, Target.register_myTidMap, Function.update_of_ne hne, Function.update_self]
  have hidx : s.idxKpMap (t + 2) = (t + 1) * numKp := by
    simp only [s, Target.register_idxKpMap, Function.update_of_ne hne, Function.update_self]
    rfl
  have hcounted : loopUnwinded s (t + 2) 1 = true :=
    isBoundedLocHashFrom_of_ne (fun _ _ => Nat.zero_ne_one) hloop
  have hrun : performAll [.pthreadCall (t + 2), .pthreadCall (t + 1), .locString (t + 2) 1]
      (traceBegin numTd numKp loopUnwindedNum kp) =
      (s.hit (t + 2) 1, [⟨t + 2, s.idxKpMap (t + 2), s.kpYield (s.idxKpMap (t + 2))⟩]) := by
    rw [performAll, perform_pthreadCall (Nat.succ_ne_zero _) rfl, performAll,
      perform_pthreadCall (Nat.succ_ne_zero _) hnew, performAll, perform_counted (Nat.succ_ne_zero _) hcounted]
    rfl
  have hempty : count t numKp = (s.hit (t + 2) 1).kpYield ((t + 1) * numKp) := by
    refine count_of_hits [.pthreadCall (t + 2), .pthreadCall (t + 1), .locString (t + 2) 1] 2 h
      ⟨Nat.succ_pos _, Nat.succ_pos _, Or.inr ?_, trivial⟩ (by rw [hrun]) ?_ ?_ rfl hloop (fun x => ?_) ?_ ?_
    · rw [perform_pthreadCall (t := t + 2) (Nat.succ_ne_zero _) rfl,
        perform_pthreadCall (Nat.succ_ne_zero _) hnew]
      exact hreg
    · rw [hrun, yieldsOf_cons, if_neg hne]
      rfl
    · exact Function.update_self ..
    · exact hit_kpLoc_lt (fun _ => Nat.one_pos) x
    · exact Function.update_self ..
    · rw [Target.hit_idxKpMap, Function.update_of_ne hne.symm]
      exact Function.update_self ..
  rw [hempty, Target.hit_kpYield, hidx, Function.update_self]

theorem apart_of_yieldsAlways (hloop : 0 < loopUnwindedNum)
    (h : YieldsAlways (traceBegin numTd numKp loopUnwindedNum kp) count) :
    Apart numKp (loadYield numTd numKp kp) := by
  intro t ht
  obtain ⟨t, rfl⟩ := Nat.exists_eq_succ_of_ne_zero ht
  exact (count_of_alone hloop h t).symm.trans (count_of_second hloop h t)

/-- Every run of a target whose first slots are empty. -/
theorem yieldsOf_traceBegin (hapart : Apart numKp (loadYield numTd numKp kp)) {calls : List Call}
    (hcalls : Along Call.InOrder calls (traceBegin numTd numKp loopUnwindedNum kp)) (t : Nat) :
    yieldsOf (t + 1) (performAll calls (traceBegin numTd numKp loopUnwindedNum kp)).2 =
      (List.range (yieldsOf (t + 1) (performAll calls (traceBegin numTd numKp loopUnwindedNum kp)).2).length).map
        fun k => if k < numKp then loadYield numTd numKp kp (t * numKp + k) else 0 := by
  have hrun := yieldsOf_anyRun (t := t + 1) (standing_traceBegin numTd numKp loopUnwindedNum kp)
    (fun _ _ _ _ _ => rfl) hapart (fun _ hx => loadYield_behind hx) hcalls (Nat.succ_ne_zero t)
  rwa [show (traceBegin numTd numKp loopUnwindedNum kp).mapTid (t + 1) = 0 from rfl, ← List.range_eq_range',
    Nat.add_sub_cancel] at hrun

/-- The children yield in every run as `count` says exactly when it is what their rows hold and the
first slots of the rows are empty. -/
theorem yieldsAlways_iff (hloop : 0 < loopUnwindedNum) :
    YieldsAlways (traceBegin numTd numKp loopUnwindedNum kp) count ↔
      (∀ t k, count t k = if k < numKp then loadYield numTd numKp kp (t * numKp + k) else 0) ∧
        Apart numKp (loadYield numTd numKp kp) := by
  constructor
  · intro h
    have hapart := apart_of_yieldsAlways hloop h
    refine ⟨fun t k => ?_, hapart⟩
    have hcalls : Along Call.InOrder (.pthreadCall (t + 1) :: hitsFrom (t + 1) 1 (k + 1))
        (traceBegin numTd numKp loopUnwindedNum kp) := by
      refine ⟨Nat.succ_pos t, along_hitsFrom ?_⟩
      rw [perform_pthreadCall (Nat.succ_ne_zero t) rfl]
      exact Function.update_self ..
    have hlength : (yieldsOf (t + 1) (performAll (.pthreadCall (t + 1) :: hitsFrom (t + 1) 1 (k + 1))
        (traceBegin numTd numKp loopUnwindedNum kp)).2).length = k + 1 := by
      rw [performAll, perform_pthreadCall (Nat.succ_ne_zero t) rfl]
      exact length_yieldsOf_hitsFrom (Nat.succ_ne_zero t) hloop fun _ => Nat.one_pos
    have hsame := (h _ hcalls t).symm.trans (yieldsOf_traceBegin hapart hcalls t)
    rw [hlength] at hsame
    have hk := congrArg (·[k]?) hsame
    simpa only [List.getElem?_map, List.getElem?_range (Nat.lt_succ_self k), Option.map_some,
      Option.some.injEq] using hk
  · rintro ⟨hcount, hapart⟩ calls hcalls t
    rw [yieldsOf_traceBegin hapart hcalls t, List.length_map, List.length_range]
    exact List.map_congr_left fun k _ => (hcount t k).symm

end Launched

end Period.Runtime
