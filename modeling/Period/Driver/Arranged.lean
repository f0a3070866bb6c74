import Period.Driver.Executed

/-!
# Every arrangement is executed

The key points of a period may come in any order: whatever the order, the children can be made
to run so, with every one of them asleep when a period ends.
-/

namespace Period.Driver

open Aligned Runs RowMajor
open Period.Runtime Period.Scheduler
set_option autoImplicit false

/-! ## Steps of an execution -/

def Leads (numTd : Nat) (s s' : Execution) : Prop :=
  ∃ acts, Meets Execution.step (Act.InRow numTd) acts s ∧ run Execution.step acts s = s'

theorem Leads.refl {numTd : Nat} (s : Execution) : Leads numTd s s := ⟨[], trivial, rfl⟩

theorem Leads.trans {numTd : Nat} {s s' s'' : Execution} (h : Leads numTd s s')
    (h' : Leads numTd s' s'') : Leads numTd s s'' := by
  obtain ⟨acts, hacts, rfl⟩ := h
  obtain ⟨acts', hacts', rfl⟩ := h'
  exact ⟨acts ++ acts', meets_append.mpr ⟨hacts, hacts'⟩, run_append acts acts' s⟩

theorem Leads.act {numTd : Nat} {s : Execution} (a : Act) (h : a.InRow numTd s) :
    Leads numTd s (s.step a) :=
  ⟨[a], ⟨h, trivial⟩, rfl⟩

theorem step_call {s : Execution} {t intHash : Nat} (ht : t ≠ 0) (hp : s.point t = .outside)
    (hcounted : loopUnwinded s.target t intHash = true) :
    s.step (.call t intHash) = (s.count t).goto t (.draining intHash 0) := by
  simp only [Execution.step, hp]
  rw [if_pos hcounted, if_neg ht]

theorem step_yield {s : Execution} {t intHash yields : Nat} (hp : s.point t = .draining intHash yields)
    (hleft : 0 < s.target.kpYield (s.slot t)) :
    s.step (.yield t) = { s.goto t (.yielding intHash yields) with clock := s.clock.yield t } := by
  simp only [Execution.step, hp]
  rw [if_pos hleft]

theorem step_wake {s : Execution} {t intHash yields : Nat} (hp : s.point t = .yielding intHash yields)
    (hawake : s.clock.asleep t = false) :
    s.step (.wake t) = (s.drain t).goto t (.draining intHash (yields + 1)) := by
  simp only [Execution.step, hp, hawake]
  rfl

theorem step_record {s : Execution} {t intHash yields : Nat} (hp : s.point t = .draining intHash yields)
    (hdrained : s.target.kpYield (s.slot t) = 0) :
    s.step (.record t) = s.leave t intHash yields := by
  simp only [Execution.step, hp]
  rw [if_pos hdrained]

/-! ## Where the children are -/

/-- What a child does that has key points left: it comes to the next one, drains its count,
sleeps in a `sched_yield()`, or is through with it. -/
inductive Mode where
  | coming
  | draining
  | asleep
  | roused
  deriving DecidableEq

def Mode.At (intHash : Nat) (p : Point) (asleep : Bool) : Mode → Prop
  | .coming => p = .outside ∧ asleep = false
  | .draining => (∃ yields, p = .draining intHash yields) ∧ asleep = false
  | .asleep => (∃ yields, p = .yielding intHash yields) ∧ asleep = true
  | .roused => (∃ yields, p = .yielding intHash yields) ∧ asleep = false

/-- Every child `i` has passed `c i` key points, the `k`-th one with hash `k + 1`, and never
missed the end of a period before the last of its key points. -/
structure Underway (kpNum : List Nat) (mode : Nat → Mode) (c : Nat → Nat) (j : Nat) (s : Execution) : Prop where
  hashes : ∀ i, (passedBy (i + 1) s.log).map (·.intHash) = (List.range (c i)).map (· + 1)
  prompt : ∀ hit ∈ s.log, hit.missed = 0
  now : s.clock.now = j
  registered : ∀ i, c i < kpsOf kpNum i → s.target.myTidMap (i + 1) = true
  missed : ∀ i, c i < kpsOf kpNum i → s.clock.missed (i + 1) = 0
  place : ∀ i, c i < kpsOf kpNum i →
    (mode i).At (c i + 1) (s.point (i + 1)) (s.clock.asleep (i + 1))

structure OnWay (numTd : Nat) (a : Target) (s : Execution) : Prop where
  fresh : Fresh a
  reached : Leads numTd (.start a) s

theorem OnWay.next {numTd : Nat} {a : Target} {s s' : Execution} (h : OnWay numTd a s)
    (h' : Leads numTd s s') : OnWay numTd a s' :=
  ⟨h.fresh, h.reached.trans h'⟩

theorem OnWay.paced {numTd : Nat} {a : Target} {s : Execution} (h : OnWay numTd a s) : Paced s := by
  obtain ⟨acts, _, rfl⟩ := h.reached
  exact paced_run acts a

theorem OnWay.exists_sim {numTd : Nat} {a : Target} {s : Execution} (h : OnWay numTd a s) :
    ∃ b, Sim a.numKp a.kpYield s b ∧ AlongRows a.numKp a.kpYield s b := by
  obtain ⟨acts, hacts, rfl⟩ := h.reached
  exact ⟨_, (sim_run hacts h.fresh.sim).2.1, alongRows_run hacts h.fresh.sim h.fresh.alongRows⟩

theorem OnWay.kpLoc_eq {numTd : Nat} {a : Target} {s : Execution} (h : OnWay numTd a s) {t k : Nat}
    {hit : Hit} (ht : t ≠ 0) (hk : (passedBy t s.log)[k]? = some hit) :
    s.target.kpLoc ((t - 1) * a.numKp + k) = hit.intHash := by
  obtain ⟨acts, hacts, rfl⟩ := h.reached
  exact (kpLoc_of_child h.fresh rfl hacts ht hk).2

section Underway
variable {kpNum : List Nat} {mode : Nat → Mode} {c : Nat → Nat} {j : Nat} {s : Execution}
variable {numTd : Nat} {a : Target}

theorem Underway.length_eq (h : Underway kpNum mode c j s) (i : Nat) : (passedBy (i + 1) s.log).length = c i := by
  have := congrArg List.length (h.hashes i)
  simpa using this

/-- What is left of the count is how many periods the key point is away. -/
theorem Underway.count_left (h : Underway kpNum mode c j s) (hway : OnWay numTd a s) {i intHash yields : Nat}
    (hi : c i < kpsOf kpNum i) (hp : s.point (i + 1) = .draining intHash yields) :
    s.target.kpYield (s.slot (i + 1)) + j = dueIn a i (c i) := by
  obtain ⟨b, hsim, hrows⟩ := hway.exists_sim
  have hpaced := hway.paced
  have hin := hsim.inside (i + 1) intHash yields (by rw [hp]; rfl)
  have hpassed := hrows.2 (i + 1) (Nat.succ_ne_zero i)
  have hmapTid : b.mapTid (i + 1) = c i := by
    have := congrArg List.length hpassed
    rw [List.length_map, List.length_map, List.length_range, h.length_eq] at this
    exact this.symm
  have hslot : b.idxKpMap (i + 1) = (i + 1 - 1) * a.numKp + c i := by
    rw [(hsim.untouched.registered _ hin.registered).2.2, hmapTid]
  have hcount : s.target.kpYield (s.slot (i + 1)) + yields = a.kpYield ((i + 1 - 1) * a.numKp + c i) := by
    rw [hsim.slot_eq, ← hin.drained, hslot]
    exact hsim.untouched.rows (i + 1) (c i) hin.pos (Nat.le_of_eq hmapTid) (hmapTid ▸ hin.room)
  have hyielded : yielded (i + 1) s.log =
      ((List.range (c i)).map fun l => a.kpYield ((i + 1 - 1) * a.numKp + l)).sum := by
    have := congrArg (List.map (·.yields)) hpassed
    rw [List.map_map, List.map_map, hmapTid] at this
    unfold yielded
    exact congrArg List.sum this
  have hnow : j = yielded (i + 1) s.log + yields := by
    rw [← h.now, hpaced.even.now_eq (hpaced.awake hp), h.missed i hi, hpaced.naps, hp]
    rfl
  rw [dueIn, List.range_succ, List.map_append, List.sum_append, List.map_singleton,
    List.sum_singleton, ← hyielded, ← hcount]
  omega

theorem stage_congr {s' : Execution} {mode' : Nat → Mode} (h : Underway kpNum mode c j s) (i₀ : Nat)
    (hlog : s'.log = s.log) (hnow : s'.clock.now = s.clock.now) (hmap : s'.target.myTidMap = s.target.myTidMap)
    (hmissed : s'.clock.missed = s.clock.missed)
    (hother : ∀ i, i ≠ i₀ → s'.point (i + 1) = s.point (i + 1) ∧
      s'.clock.asleep (i + 1) = s.clock.asleep (i + 1) ∧ mode' i = mode i)
    (hplace : c i₀ < kpsOf kpNum i₀ →
      (mode' i₀).At (c i₀ + 1) (s'.point (i₀ + 1)) (s'.clock.asleep (i₀ + 1))) :
    Underway kpNum mode' c j s' := by
  refine ⟨hlog ▸ h.hashes, hlog ▸ h.prompt, hnow.trans h.now, hmap ▸ h.registered,
    hmissed ▸ h.missed, fun i hi => ?_⟩
  by_cases hi₀ : i = i₀
  · subst hi₀
    exact hplace hi
  · obtain ⟨hpoint, hasleep, hmode⟩ := hother i hi₀
    rw [hpoint, hasleep, hmode]
    exact h.place i hi

/-- One child goes on to another mode; nothing else is seen to happen. -/
def Moves (kpNum : List Nat) (numTd : Nat) (mode : Nat → Mode) (i : Nat) (m : Mode) (c : Nat → Nat) (j : Nat)
    (s s' : Execution) : Prop :=
  Leads numTd s s' ∧ Underway kpNum (Function.update mode i m) c j s' ∧ s'.log = s.log

theorem OnWay.loopUnwindedNum_eq (h : OnWay numTd a s) : s.target.loopUnwindedNum = a.loopUnwindedNum := by
  obtain ⟨acts, _, rfl⟩ := h.reached
  refine run_of_inv (I := fun s : Execution => s.target.loopUnwindedNum = a.loopUnwindedNum)
    (fun act s h _ => ?_) rfl (meets_true acts _)
  have hout := s.step_outcome act
  generalize s.step act = s' at hout
  generalize s.commits act = calls at hout
  cases hout with
  | creates t =>
    show (instrPthreadCall t s.target).loopUnwindedNum = _
    unfold instrPthreadCall
    split <;> exact h
  | _ => exact h

theorem Underway.comes (h : Underway kpNum mode c j s) (hway : OnWay numTd a s)
    (hnum : 0 < a.loopUnwindedNum) (hfits : ∀ i, kpsOf kpNum i ≤ a.numKp) {i : Nat}
    (hmode : mode i = .coming) (hi : c i < kpsOf kpNum i) :
    ∃ s', Moves kpNum numTd mode i .draining c j s s' := by
  have hplace := h.place i hi
  rw [hmode] at hplace
  obtain ⟨hout, hawake⟩ := hplace
  obtain ⟨b, hsim, hrows⟩ := hway.exists_sim
  have hreg : b.myTidMap (i + 1) = true := hsim.myTidMap_eq ▸ h.registered i hi
  obtain ⟨_, horiginal, hidx⟩ := hsim.untouched.registered (i + 1) hreg
  have hmapTid : b.mapTid (i + 1) = c i := by
    have := congrArg List.length (hrows.2 (i + 1) (Nat.succ_ne_zero i))
    rw [List.length_map, List.length_map, List.length_range, h.length_eq] at this
    exact this.symm
  have hcounted : loopUnwinded s.target (i + 1) (c i + 1) = true := by
    rw [hsim.loopUnwinded_eq]
    refine isBoundedLocHashFrom_of_ne (fun slot hslot => ?_) ?_
    · obtain ⟨hlo, hhi⟩ := List.mem_range'_1.mp hslot
      obtain ⟨k, rfl⟩ := Nat.exists_eq_add_of_le hlo
      have hk : k < c i := by omega
      have hk' : k < (passedBy (i + 1) s.log).length := by rwa [h.length_eq]
      have hhash := congrArg (·[k]?) (h.hashes i)
      simp only [List.getElem?_map, List.getElem?_eq_getElem hk', List.getElem?_range hk, Option.map_some,
        Option.some.injEq] at hhash
      have hloc := hway.kpLoc_eq (Nat.succ_ne_zero i) (List.getElem?_eq_getElem hk')
      have hkpLoc : b.kpLoc = s.target.kpLoc := by rw [hsim.same]
      rw [horiginal, hkpLoc, hloc, hhash]
      omega
    · have hunwinded : b.loopUnwindedNum = s.target.loopUnwindedNum := by rw [hsim.same]
      rwa [hunwinded, hway.loopUnwindedNum_eq]
  have hact : (Act.call (i + 1) (c i + 1)).InRow numTd s := by
    refine Or.inr ⟨h.registered i hi, fun _ _ => ?_⟩
    have hnumKp : s.target.numKp = a.numKp := by rw [hsim.same]; exact hsim.untouched.numKp_eq
    rw [hnumKp, hsim.outside _ hout, hmapTid]
    exact Nat.lt_of_lt_of_le hi (hfits i)
  refine ⟨_, Leads.act _ hact, ?_, ?_⟩ <;> rw [step_call (Nat.succ_ne_zero i) hout hcounted]
  · refine stage_congr h i rfl rfl rfl rfl (fun u hu => ⟨?_, rfl, ?_⟩) fun _ => ?_
    · exact (s.count (i + 1)).goto_other _ (by omega)
    · exact Function.update_of_ne hu _ _
    · rw [Function.update_self, Execution.goto_self]
      exact ⟨⟨0, rfl⟩, hawake⟩
  · rfl

theorem Underway.sleeps (h : Underway kpNum mode c j s) (hway : OnWay numTd a s) {i : Nat}
    (hmode : mode i = .draining) (hi : c i < kpsOf kpNum i)
    (hdue : j < dueIn a i (c i)) :
    ∃ s', Moves kpNum numTd mode i .asleep c j s s' := by
  have hplace := h.place i hi
  rw [hmode] at hplace
  obtain ⟨⟨yields, hp⟩, hawake⟩ := hplace
  have hleft := h.count_left hway hi hp
  refine ⟨_, Leads.act (.yield (i + 1)) trivial, ?_, ?_⟩ <;> rw [step_yield hp (by omega)]
  · refine stage_congr h i rfl rfl rfl rfl (fun u hu => ⟨?_, ?_, ?_⟩) fun _ => ?_
    · exact s.goto_other _ (by omega)
    · exact Function.update_of_ne (by omega) _ _
    · exact Function.update_of_ne hu _ _
    · rw [Function.update_self]
      exact ⟨⟨yields, s.goto_self _ _⟩, Function.update_self ..⟩
  · rfl

theorem Underway.wakes (h : Underway kpNum mode c j s) {i : Nat} (hmode : mode i = .roused)
    (hi : c i < kpsOf kpNum i) : ∃ s', Moves kpNum numTd mode i .draining c j s s' := by
  have hplace := h.place i hi
  rw [hmode] at hplace
  obtain ⟨⟨yields, hp⟩, hawake⟩ := hplace
  refine ⟨_, Leads.act (.wake (i + 1)) trivial, ?_, ?_⟩ <;> rw [step_wake hp hawake]
  · refine stage_congr h i rfl rfl rfl rfl (fun u hu => ⟨?_, rfl, ?_⟩) fun _ => ?_
    · exact (s.drain (i + 1)).goto_other _ (by omega)
    · exact Function.update_of_ne hu _ _
    · rw [Function.update_self, Execution.goto_self]
      exact ⟨⟨yields + 1, rfl⟩, hawake⟩
  · rfl

/-- The period ends while all children that have key points left are asleep. -/
theorem Underway.ticks (h : Underway kpNum mode c j s) (numTd : Nat) (hmode : ∀ i, c i < kpsOf kpNum i → mode i = .asleep) :
    ∃ s', Leads numTd s s' ∧ Underway kpNum (fun _ => .roused) c (j + 1) s' ∧ s'.log = s.log := by
  have hplace : ∀ i, c i < kpsOf kpNum i →
      (∃ yields, s.point (i + 1) = .yielding (c i + 1) yields) ∧ s.clock.asleep (i + 1) = true := by
    intro i hi
    have := h.place i hi
    rwa [hmode i hi] at this
  refine ⟨_, Leads.act .tick trivial, ⟨h.hashes, h.prompt, congrArg (· + 1) h.now, h.registered,
    fun i hi => ?_, fun i hi => ⟨(hplace i hi).1, rfl⟩⟩, rfl⟩
  show (if s.clock.asleep (i + 1) then s.clock.missed (i + 1) else s.clock.missed (i + 1) + 1) = 0
  rw [if_pos (hplace i hi).2]
  exact h.missed i hi

theorem Underway.passes (h : Underway kpNum mode c j s) (hway : OnWay numTd a s) {i : Nat}
    (hmode : mode i = .draining) (hi : c i < kpsOf kpNum i)
    (hdue : dueIn a i (c i) = j) :
    ∃ s', Leads numTd s s' ∧
      Underway kpNum (Function.update mode i .coming) (Function.update c i (c i + 1)) j s' ∧
      s'.log.map threadOf = s.log.map threadOf ++ [i] := by
  have hplace := h.place i hi
  rw [hmode] at hplace
  obtain ⟨⟨yields, hp⟩, hawake⟩ := hplace
  have hleft := h.count_left hway hi hp
  have hother : ∀ u, u ≠ i → (s.goto (i + 1) .outside).point (u + 1) = s.point (u + 1) :=
    fun u hu => s.goto_other _ (by omega)
  have hkept : ∀ u, Function.update c i (c i + 1) u < kpsOf kpNum u → c u < kpsOf kpNum u := by
    intro u hu
    by_cases hui : u = i
    · subst hui
      exact hi
    · rwa [Function.update_of_ne hui] at hu
  refine ⟨_, Leads.act (.record (i + 1)) trivial, ?_, ?_⟩ <;> rw [step_record hp (by omega)]
  · refine ⟨fun u => ?_, fun hit hmem => ?_, h.now, fun u hu => h.registered u (hkept u hu),
      fun u hu => h.missed u (hkept u hu), fun u hu => ?_⟩
    · have hlog : passedBy (u + 1) (s.leave (i + 1) (c i + 1) yields).log =
          if i + 1 = u + 1 then passedBy (u + 1) s.log ++ [s.hit (i + 1) (c i + 1) yields]
          else passedBy (u + 1) s.log := passedBy_append (u + 1) s.log _
      rw [hlog]
      by_cases hui : u = i
      · subst hui
        rw [if_pos rfl, Function.update_self, List.range_succ, List.map_append, List.map_append, h.hashes]
        rfl
      · rw [if_neg (by omega), Function.update_of_ne hui, h.hashes]
    · rcases List.mem_append.mp hmem with hmem | hmem
      · exact h.prompt hit hmem
      · rw [List.mem_singleton.mp hmem]
        exact h.missed i hi
    · by_cases hui : u = i
      · subst hui
        rw [Function.update_self, Function.update_self]
        exact ⟨s.goto_self _ _, hawake⟩
      · have := h.place u (hkept u hu)
        rw [← hother u hui] at this
        rw [Function.update_of_ne hui, Function.update_of_ne hui]
        exact this
  · show (s.log ++ [s.hit (i + 1) (c i + 1) yields]).map threadOf = _
    rw [List.map_append]
    rfl

/-- What one child can do, all can do one after the other. -/
theorem forall_move {m m' : Mode}
    (hmove : ∀ mode s i, Underway kpNum mode c j s → OnWay numTd a s → mode i = m → c i < kpsOf kpNum i →
      ∃ s', Moves kpNum numTd mode i m' c j s s')
    (hway : OnWay numTd a s) (h : Underway kpNum (fun _ => m) c j s) :
    ∃ s', Leads numTd s s' ∧ Underway kpNum (fun _ => m') c j s' ∧ s'.log = s.log := by
  have hfirst : ∀ n, ∃ s', Leads numTd s s' ∧
      Underway kpNum (fun i => if i < n then m' else m) c j s' ∧ s'.log = s.log := by
    intro n
    induction n with
    | zero => exact ⟨s, Leads.refl s, h, rfl⟩
    | succ n ih =>
      obtain ⟨s', hreach, hstage, hlog⟩ := ih
      have hmode : (fun i => if i < n + 1 then m' else m) =
          Function.update (fun i => if i < n then m' else m) n m' := by
        funext i
        rw [Function.update_apply]
        rcases Nat.lt_trichotomy i n with hlt | rfl | hgt
        · rw [if_pos (by omega), if_neg (by omega), if_pos hlt]
        · rw [if_pos (by omega), if_pos rfl]
        · rw [if_neg (by omega), if_neg (by omega), if_neg (by omega)]
      by_cases hn : c n < kpsOf kpNum n
      · obtain ⟨s'', hreach', hstage', hlog'⟩ := hmove _ s' n hstage (hway.next hreach)
          (if_neg (Nat.lt_irrefl n)) hn
        exact ⟨s'', hreach.trans hreach', hmode ▸ hstage', hlog'.trans hlog⟩
      · refine ⟨s', hreach, ?_, hlog⟩
        rw [hmode]
        exact stage_congr hstage n rfl rfl rfl rfl
          (fun i hi => ⟨rfl, rfl, Function.update_of_ne hi _ _⟩) fun hn' => absurd hn' hn
  obtain ⟨s', hreach, hstage, hlog⟩ := hfirst kpNum.length
  refine ⟨s', hreach, ⟨hstage.hashes, hstage.prompt, hstage.now, hstage.registered, hstage.missed,
    fun i hi => ?_⟩, hlog⟩
  have := hstage.place i hi
  rwa [if_pos (kpsOf_pos_lt (Nat.zero_lt_of_lt hi))] at this

/-- A child passes a key point that is due and comes to the next one. -/
theorem Underway.goes_on (h : Underway kpNum (fun _ => .draining) c j s) (hway : OnWay numTd a s)
    (hnum : 0 < a.loopUnwindedNum) (hfits : ∀ i, kpsOf kpNum i ≤ a.numKp) {i : Nat}
    (hi : c i < kpsOf kpNum i) (hdue : dueIn a i (c i) = j) :
    ∃ s', Leads numTd s s' ∧ Underway kpNum (fun _ => .draining) (Function.update c i (c i + 1)) j s' ∧
      s'.log.map threadOf = s.log.map threadOf ++ [i] := by
  obtain ⟨s', hreach, hstage, hlog⟩ := h.passes hway rfl hi hdue
  have hback : Function.update (Function.update (fun _ => Mode.draining) i .coming) i .draining =
      fun _ => .draining := by
    rw [Function.update_idem]
    exact Function.update_eq_self i _
  by_cases hmore : c i + 1 < kpsOf kpNum i
  · obtain ⟨s'', hreach', hstage', hlog'⟩ := hstage.comes (hway.next hreach) hnum hfits
      (Function.update_self ..) (by rwa [Function.update_self])
    rw [hback] at hstage'
    exact ⟨s'', hreach.trans hreach', hstage', hlog' ▸ hlog⟩
  · refine ⟨s', hreach, ?_, hlog⟩
    exact stage_congr hstage i rfl rfl rfl rfl
      (fun u hu => ⟨rfl, rfl, (Function.update_of_ne hu Mode.coming fun _ => Mode.draining).symm⟩)
      fun hi' => absurd (by rwa [Function.update_self] at hi') hmore

theorem Underway.plays {l : List Nat} (h : Underway kpNum (fun _ => .draining) c j s) (hway : OnWay numTd a s)
    (hnum : 0 < a.loopUnwindedNum) (hfits : ∀ i, kpsOf kpNum i ≤ a.numKp)
    (hdue : ∀ i k, c i ≤ k → k < c i + l.count i → k < kpsOf kpNum i ∧ dueIn a i k = j) :
    ∃ s', Leads numTd s s' ∧ Underway kpNum (fun _ => .draining) (fun i => c i + l.count i) j s' ∧
      s'.log.map threadOf = s.log.map threadOf ++ l := by
  induction l generalizing c s with
  | nil => exact ⟨s, Leads.refl s, h, (List.append_nil _).symm⟩
  | cons i l ih =>
    obtain ⟨hi, hin⟩ := hdue i (c i) (Nat.le_refl _) (by rw [List.count_cons_self]; omega)
    obtain ⟨s', hreach, hstage, hlog⟩ := h.goes_on hway hnum hfits hi hin
    have hcount : ∀ u, Function.update c i (c i + 1) u + l.count u = c u + (i :: l).count u := by
      intro u
      by_cases hui : u = i
      · subst hui
        rw [Function.update_self, List.count_cons_self]
        omega
      · rw [Function.update_of_ne hui, List.count_cons_of_ne (Ne.symm hui)]
    have hle : ∀ u, c u ≤ Function.update c i (c i + 1) u := by
      intro u
      rw [Function.update_apply]
      split
      · next hui => rw [hui]; omega
      · exact Nat.le_refl _
    obtain ⟨s'', hreach', hstage', hlog'⟩ := ih hstage (hway.next hreach) fun u k hlo hhi =>
      hdue u k (Nat.le_trans (hle u) hlo) (hcount u ▸ hhi)
    refine ⟨s'', hreach.trans hreach', ?_, ?_⟩
    · rwa [funext hcount] at hstage'
    · rw [hlog', hlog, List.append_assoc]
      rfl

theorem Underway.turns (h : Underway kpNum (fun _ => .draining) c j s) (hway : OnWay numTd a s)
    (hdue : ∀ i, c i < kpsOf kpNum i → j < dueIn a i (c i)) :
    ∃ s', Leads numTd s s' ∧ Underway kpNum (fun _ => .draining) c (j + 1) s' ∧ s'.log = s.log := by
  obtain ⟨s₁, hreach₁, hstage₁, hlog₁⟩ := forall_move
    (fun _ _ _ h hway hmode hi => h.sleeps hway hmode hi (hdue _ hi)) hway h
  obtain ⟨s₂, hreach₂, hstage₂, hlog₂⟩ := hstage₁.ticks numTd fun _ _ => rfl
  obtain ⟨s₃, hreach₃, hstage₃, hlog₃⟩ := forall_move (a := a)
    (fun _ _ _ h _ hmode hi => h.wakes hmode hi) (hway.next (hreach₁.trans hreach₂)) hstage₂
  exact ⟨s₃, (hreach₁.trans hreach₂).trans hreach₃, hstage₃, hlog₃.trans (hlog₂.trans hlog₁)⟩

/-- All children are created and come to their first key points. -/
theorem exists_stage (hfresh : Fresh a) (hnum : 0 < a.loopUnwindedNum)
    (hfits : ∀ i, kpsOf kpNum i ≤ a.numKp) (htd : kpNum.length ≤ numTd) :
    ∃ s, Leads numTd (.start a) s ∧ Underway kpNum (fun _ => .draining) (fun _ => 0) 0 s ∧
      s.log = [] := by
  have hcreated : ∀ n, n ≤ kpNum.length → ∃ b, Leads numTd (.start a) (.start b) ∧
      ∀ i, i < n → b.myTidMap (i + 1) = true := by
    intro n
    induction n with
    | zero => exact fun _ => ⟨a, Leads.refl _, fun i hi => absurd hi (Nat.not_lt_zero i)⟩
    | succ n ih =>
      intro hn
      obtain ⟨b, hreach, hreg⟩ := ih (by omega)
      refine ⟨instrPthreadCall (n + 1) b,
        hreach.trans (Leads.act (.create (n + 1)) ⟨by omega, by omega⟩), fun i hi => ?_⟩
      cases hb : b.myTidMap (n + 1) with
      | true =>
        rw [instrPthreadCall_old hb]
        by_cases hin : i = n
        · subst hin
          exact hb
        · exact hreg i (by omega)
      | false =>
        rw [instrPthreadCall_new (Nat.succ_ne_zero n) hb]
        by_cases hin : i = n
        · subst hin
          exact Function.update_self ..
        · rw [(b.register_of_ne (by omega : i + 1 ≠ n + 1)).1]
          exact hreg i (by omega)
  obtain ⟨b, hreach, hreg⟩ := hcreated kpNum.length (Nat.le_refl _)
  have hstage : Underway kpNum (fun _ => .coming) (fun _ => 0) 0 (.start b) :=
    ⟨fun _ => rfl, fun _ hmem => (nomatch hmem), rfl,
      fun i hi => hreg i (kpsOf_pos_lt (Nat.zero_lt_of_lt hi)), fun _ _ => rfl, fun _ _ => ⟨rfl, rfl⟩⟩
  obtain ⟨s, hreach', hstage', hlog⟩ := forall_move
    (fun _ _ _ h hway hmode hi => h.comes hway hnum hfits hmode hi) ⟨hfresh, hreach⟩ hstage
  exact ⟨s, hreach.trans hreach', hstage', hlog⟩

/-- The periods of the rest of a schedule, one after the other. -/
theorem Underway.runs {sched todo order : Schedule} (done : Schedule) (hnum : 0 < a.loopUnwindedNum)
    (hload : Loaded kpNum sched a) (horder : Arranges order todo) (hparts : sched = done ++ todo) (hway : OnWay numTd a s)
    (h : Underway kpNum (fun _ => .draining) (fun i => done.flatten.count i) done.length s) :
    ∃ s', Leads numTd s s' ∧
      Underway kpNum (fun _ => .draining) (fun i => sched.flatten.count i) sched.length s' ∧
      s'.log.map threadOf = s.log.map threadOf ++ order.flatten := by
  induction horder generalizing done s with
  | nil =>
    rw [List.append_nil] at hparts
    subst hparts
    exact ⟨s, Leads.refl s, h, (List.append_nil _).symm⟩
  | @cons block period order todo hperm horder ih =>
    have htake : ∀ t, (sched.take (done.length + 1)).flatten.count t =
        done.flatten.count t + block.count t := by
      intro t
      rw [hparts, List.take_length_add_append, List.flatten_append, List.count_append,
        hperm.count_eq]
      simp
    have hbefore : ∀ t, (sched.take done.length).flatten.count t = done.flatten.count t := by
      intro t
      rw [hparts, List.take_left]
    obtain ⟨s₁, hreach₁, hstage₁, hlog₁⟩ := h.plays (l := block) hway hnum hload.fits fun i k hlo hhi => by
      have hlies : LiesIn sched i k done.length :=
        ⟨(hbefore i).symm ▸ hlo, (htake i).symm ▸ hhi⟩
      have hk : k < kpsOf kpNum i := hload.complete i ▸ hlies.lt_count
      exact ⟨hk, (hload.due i k hk).trans (periodOf_eq_of_liesIn hlies)⟩
    obtain ⟨s₂, hreach₂, hstage₂, hlog₂⟩ := hstage₁.turns (hway.next hreach₁) fun i hi => by
      obtain ⟨j, hj⟩ := exists_liesIn (t := i) (by rw [hload.complete]; exact hi)
      rw [hload.due i _ hi, periodOf_eq_of_liesIn hj]
      by_contra hle
      have hmono := passed_mono sched i (Nat.succ_le_succ (Nat.not_lt.mp hle))
      have := hj.2
      rw [← htake i] at this
      exact absurd this (Nat.not_lt.mpr hmono)
    have hcount : (fun t => done.flatten.count t + block.count t) =
        fun t => (done ++ [period]).flatten.count t := by
      funext t
      rw [List.flatten_append, List.count_append, List.flatten_singleton, hperm.count_eq]
    have hlength : done.length + 1 = (done ++ [period]).length := by simp
    rw [hcount, hlength] at hstage₂
    obtain ⟨s₃, hreach₃, hstage₃, hlog₃⟩ := ih (done ++ [period]) (by rw [hparts, List.append_assoc]; rfl)
      (hway.next (hreach₁.trans hreach₂)) hstage₂
    refine ⟨s₃, (hreach₁.trans hreach₂).trans hreach₃, hstage₃, ?_⟩
    rw [hlog₃, hlog₂, hlog₁, List.flatten_cons, List.append_assoc]

/-- The children can be made to run in the order of an arrangement. -/
theorem exists_timely {sched order : Schedule} (h : Loaded kpNum sched a) (hnum : 0 < a.loopUnwindedNum)
    (htd : kpNum.length ≤ numTd) (horder : Arranges order sched) :
    ∃ acts, Meets Execution.step (Act.InRow numTd) acts (.start a) ∧
      Timely kpNum (run Execution.step acts (.start a)).log ∧
      (run Execution.step acts (.start a)).log.map threadOf = order.flatten := by
  obtain ⟨s, hreach, hstage, hlog⟩ := exists_stage h.fresh hnum h.fits htd
  obtain ⟨s', hreach', hstage', hlog'⟩ := Underway.runs [] hnum h horder rfl ⟨h.fresh, hreach⟩ hstage
  obtain ⟨acts, hacts, rfl⟩ := hreach.trans hreach'
  refine ⟨acts, hacts, ⟨fun i => ?_, hstage'.prompt⟩, ?_⟩
  · rw [hstage'.length_eq, h.complete]
  · rw [hlog', hlog]
    rfl

end Underway

/-- The orders in which the test of a schedule passes the key points, when no period is too short:
the arrangements of the schedule and nothing else. -/
theorem executes_iff {kpNum : List Nat} {N z M : Nat} {sched : Schedule} {loopUnwindedNum : Nat}
    (m : Bytes.Mem) (hlen : kpNum.length = N + z) (hM : ∀ c ∈ kpNum, c ≤ M)
    (hroom : M * (N + z) ≤ shareArraySize) (hsched : ∀ t, sched.flatten.count t = kpsOf kpNum t)
    (hdeliver : Deliverable N kpNum sched) (hnum : 0 < loopUnwindedNum) (word : List Nat) :
    (∃ acts, Meets Execution.step (Act.InRow (N + z)) acts
        (.start (testTarget (N + z) N M kpNum sched loopUnwindedNum m)) ∧
      Timely kpNum (run Execution.step acts
        (.start (testTarget (N + z) N M kpNum sched loopUnwindedNum m))).log ∧
      (run Execution.step acts
        (.start (testTarget (N + z) N M kpNum sched loopUnwindedNum m))).log.map threadOf = word) ↔
      ∃ order, Arranges order sched ∧ word = order.flatten := by
  constructor
  · intro h
    obtain ⟨acts, hacts, htimely, rfl⟩ := h
    exact arranges_of_timely (loaded_testTarget _ _ hlen hM hroom hsched hdeliver) rfl hacts htimely
  · intro h
    obtain ⟨order, horder, rfl⟩ := h
    exact exists_timely (loaded_testTarget _ _ hlen hM hroom hsched hdeliver) hnum hlen.le horder

theorem deliverable_two : Deliverable 2 [1, 1] [[0], [1]] := by
  refine ⟨by decide, fun i k j hi hlies => ?_⟩
  have hlt := hlies.lt_count
  match i with
  | 0 => omega
  | 1 => omega
  | i + 2 => simp at hlt

theorem count_two (t : Nat) : [[0], [1]].flatten.count t = kpsOf [1, 1] t := by
  match t with
  | 0 => rfl
  | 1 => rfl
  | t + 2 => simp [kpsOf]

theorem executes_iff_two :
    (∃ acts, Meets Execution.step (Act.InRow 2) acts
        (.start (testTarget 2 2 1 [1, 1] [[0], [1]] 4 fun _ => 0)) ∧
      Timely [1, 1] (run Execution.step acts
        (.start (testTarget 2 2 1 [1, 1] [[0], [1]] 4 fun _ => 0))).log ∧
      (run Execution.step acts
        (.start (testTarget 2 2 1 [1, 1] [[0], [1]] 4 fun _ => 0))).log.map threadOf = [0, 1]) ↔
      ∃ order, Arranges order [[0], [1]] ∧ [0, 1] = order.flatten :=
  @executes_iff [1, 1] 2 0 1 [[0], [1]] 4 (fun _ => 0) rfl (by decide) (by decide) count_two
    deliverable_two (by decide) [0, 1]

/-- Whether the test of a schedule is deterministic: no period may hold key points of two threads. -/
theorem deterministic_iff {kpNum : List Nat} {N z M : Nat} {sched : Schedule} {loopUnwindedNum : Nat}
    {m : Bytes.Mem} {s : Execution} (hlen : kpNum.length = N + z) (hM : ∀ c ∈ kpNum, c ≤ M)
    (hroom : M * (N + z) ≤ shareArraySize) (hsched : ∀ t, sched.flatten.count t = kpsOf kpNum t)
    (hdeliver : Deliverable N kpNum sched) (hnum : 0 < loopUnwindedNum)
    (hs : s = .start (testTarget (N + z) N M kpNum sched loopUnwindedNum m)) :
    (∀ acts acts', Meets Execution.step (Act.InRow (N + z)) acts s →
      Timely kpNum (run Execution.step acts s).log →
      Meets Execution.step (Act.InRow (N + z)) acts' s →
      Timely kpNum (run Execution.step acts' s).log →
      (run Execution.step acts s).log.map threadOf = (run Execution.step acts' s).log.map threadOf) ↔
      ∀ period ∈ sched, ∀ x ∈ period, ∀ y ∈ period, x = y := by
  subst hs
  have hload := loaded_testTarget loopUnwindedNum m hlen hM hroom hsched hdeliver
  rw [← arrangement_unique_iff]
  constructor
  · intro h order order' horder horder'
    obtain ⟨acts, hacts, htimely, hword⟩ := exists_timely hload hnum hlen.le horder
    obtain ⟨acts', hacts', htimely', hword'⟩ := exists_timely hload hnum hlen.le horder'
    rw [← hword, ← hword']
    exact h acts acts' hacts htimely hacts' htimely'
  · intro h acts acts' hacts htimely hacts' htimely'
    obtain ⟨order, horder, hword⟩ := arranges_of_timely hload rfl hacts htimely
    obtain ⟨order', horder', hword'⟩ := arranges_of_timely hload rfl hacts' htimely'
    rw [hword, hword']
    exact h order order' horder horder'

theorem deterministic_iff_two :
    (∀ acts acts', Meets Execution.step (Act.InRow 2) acts
        (.start (testTarget 2 2 1 [1, 1] [[0], [1]] 4 fun _ => 0)) →
      Timely [1, 1] (run Execution.step acts
        (.start (testTarget 2 2 1 [1, 1] [[0], [1]] 4 fun _ => 0))).log →
      Meets Execution.step (Act.InRow 2) acts'
        (.start (testTarget 2 2 1 [1, 1] [[0], [1]] 4 fun _ => 0)) →
      Timely [1, 1] (run Execution.step acts'
        (.start (testTarget 2 2 1 [1, 1] [[0], [1]] 4 fun _ => 0))).log →
      (run Execution.step acts
        (.start (testTarget 2 2 1 [1, 1] [[0], [1]] 4 fun _ => 0))).log.map threadOf =
      (run Execution.step acts'
        (.start (testTarget 2 2 1 [1, 1] [[0], [1]] 4 fun _ => 0))).log.map threadOf) ↔
      ∀ period ∈ [[0], [1]], ∀ x ∈ period, ∀ y ∈ period, x = y :=
  @deterministic_iff [1, 1] 2 0 1 [[0], [1]] 4 (fun _ => 0) _ rfl (by decide) (by decide) count_two
    deliverable_two (by decide) rfl

end Period.Driver
