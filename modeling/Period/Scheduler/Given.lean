import Period.Foundation.Runs
import Period.Scheduler.Iterate

/-!
# The constructor of the mixed-end scheduler

Without a schedule, or with single-thread periods that are kept (`fix_prefix`), the
constructor leaves the scheduler at the first word of the frame of what was given.
-/

namespace Period.Scheduler

open Enumeration Runs Search Parts
set_option autoImplicit false

/-- Key points of one thread only, at least one. -/
def SingleThread (period : List Nat) : Prop := ∃ t m, period = List.replicate (m + 1) t

/-- What the given periods leave to the iteration. -/
def Sched.frame (base : Sched) : Frame where
  n := base.n
  pool := base.kpPool
  q := base.p - base.sched.length
  lead := base.sched.getLast?.map fun period => (period.headD 0, period.length)

/-- The state the constructor leaves behind at the given chosen threads and word. -/
def Sched.startAt (base : Sched) (v : List Nat × List Nat) : SBPMESched :=
  let schedChosen := base.sched ++ initSched base.n (base.frame.ckps v.1) (base.frame.q) v.2
  let sched := extendLast schedChosen (base.frame.other v)
  let l := base.frame.lead.getD (0, 0)
  { base with sched, pattern := wordOf base.sched ++ v.2, ckps := base.frame.ckps v.1
              chosen := if base.sched.isEmpty then v.1.mergeSort (· ≤ ·) else v.1
              schedChosen, schedOther := base.frame.other v, start := base.sched.length
              last := l.1, lastCount := l.2
              schedPrefix := sched.take (if base.sched.isEmpty then 1 else base.sched.length) }

structure Sched.Passes (base : Sched) : Prop where
  adjacent : (wordOf base.sched).IsChain (· ≠ ·)
  last_done : base.sched.length + 1 = base.p →
    ∀ t, base.frame.last = some t → kpsOf base.kpPool t = 0
  room : base.sched.length < base.p

section Base
variable {sched : Schedule} (hsingle : ∀ period ∈ sched, SingleThread period)

theorem patternOf_eq (hne : ∀ period ∈ sched, period ≠ []) :
    patternOf sched = if (wordOf sched).IsChain (· ≠ ·) then .ok (wordOf sched)
      else .error (.valueError "Adjecent periods can't host same threads!") := by
  have hmap : sched.mapM (fun period => period.head?.elim (throw .indexError) pure) =
      (.ok (wordOf sched) : Except Halt (List Nat)) := by
    induction sched with
    | nil => rfl
    | cons period sched ih =>
      obtain ⟨x, l, rfl⟩ := List.exists_cons_of_ne_nil (hne period List.mem_cons_self)
      rw [List.mapM_cons, ih fun q hq => hne q (List.mem_cons_of_mem _ hq)]
      rfl
  unfold patternOf
  rw [hmap]
  rfl

include hsingle

theorem single_ne_nil : ∀ period ∈ sched, period ≠ [] := by
  intro period hmem
  obtain ⟨t, m, rfl⟩ := hsingle period hmem
  exact List.cons_ne_nil _ _

theorem single_headD {period : List Nat} (hmem : period ∈ sched) :
    period = List.replicate period.length (period.headD 0) ∧ period.getLast? = some (period.headD 0) := by
  obtain ⟨t, m, rfl⟩ := hsingle period hmem
  refine ⟨?_, ?_⟩
  · rw [List.length_replicate]
    rfl
  · rw [List.getLast?_replicate, if_neg (Nat.succ_ne_zero m)]
    rfl

end Base

def threadsOf (n : Nat) (kps : List Nat) (sched : Schedule) : Nat :=
  if sched.isEmpty then max n kps.length
  else max (max n kps.length) (sched.flatten.foldl max 0 + 1)

section Helper
variable {n p : Nat} {kps : List Nat} {sched : Schedule} {base : Sched}

/-- `_init_helper` fails only where the counts cannot be padded. -/
theorem Sched.initHelper_error {e : Halt} (h : Sched.initHelper n kps p sched = .error e) :
    padKps (threadsOf n kps sched) kps = .error e := by
  unfold Sched.initHelper at h
  simp only [Bind.bind, Except.bind, Pure.pure, Except.pure] at h
  cases hpad : padKps (threadsOf n kps sched) kps with
  | error e' =>
    rw [threadsOf] at hpad
    rw [hpad] at h
    cases h
    rfl
  | ok kps' =>
    rw [threadsOf] at hpad
    rw [hpad] at h
    cases h

theorem Sched.initHelper_ok (h : Sched.initHelper n kps p sched = .ok base) :
    ∃ kps', padKps (threadsOf n kps sched) kps = .ok kps' ∧
      base = { n := threadsOf n kps sched, p := max p sched.length, sched
               kps := (kps'.zip (sched.flatten.foldl (fun pool j => pool.modify j (· - 1))
                 (kps'.map Int.ofNat))).map fun (k, q) => if q < 0 then ((k : Int) - q).toNat else k
               kpPool := (sched.flatten.foldl (fun pool j => pool.modify j (· - 1))
                 (kps'.map Int.ofNat)).map Int.toNat } := by
  unfold Sched.initHelper at h
  simp only [Bind.bind, Except.bind, Pure.pure, Except.pure] at h
  cases hpad : padKps (threadsOf n kps sched) kps with
  | error e =>
    rw [threadsOf] at hpad
    rw [hpad] at h
    cases h
  | ok kps' =>
    rw [threadsOf] at hpad
    rw [hpad] at h
    cases h
    exact ⟨kps', rfl, rfl⟩

theorem Sched.initHelper_sched (h : Sched.initHelper n kps p sched = .ok base) :
    base.sched = sched ∧ base.p = max p sched.length := by
  obtain ⟨kps', _, rfl⟩ := Sched.initHelper_ok h
  exact ⟨rfl, rfl⟩

theorem Sched.initHelper_nil_kps (h : Sched.initHelper n kps p [] = .ok base) :
    base.kps = base.kpPool := by
  obtain ⟨kps', hpad, _⟩ := Sched.initHelper_ok h
  rw [initHelper_nil p hpad] at h
  cases h
  rfl

end Helper

section Base
variable {sched : Schedule} {base : Sched}

theorem frame_last (base : Sched) : base.frame.last = base.sched.getLast?.map (·.headD 0) := by
  rw [Sched.frame, Frame.last, Option.map_map]
  rfl

theorem wordOf_last (base : Sched) : (wordOf base.sched).getLast? = base.frame.last := by
  rw [frame_last]
  exact List.getLast?_map

theorem wordOf_length (sched : Schedule) : (wordOf sched).length = sched.length := by
  rw [wordOf, List.length_map]

theorem single_last (hsingle : ∀ period ∈ base.sched, SingleThread period) :
    base.sched.getLast?.bind List.getLast? = base.frame.last := by
  rw [frame_last]
  cases hlast : base.sched.getLast? with
  | none => rfl
  | some period => exact (single_headD hsingle (List.mem_of_getLast? hlast)).2

theorem single_any_empty (hsingle : ∀ period ∈ base.sched, SingleThread period) :
    base.sched.any (·.isEmpty) = false := by
  rw [List.any_eq_false]
  intro period hmem
  simpa using single_ne_nil hsingle period hmem

/-- The test of the last given period, as the constructor makes it. -/
theorem last_done_iff (base : Sched) :
    (base.sched.length + 1 = base.p → ∀ t, base.frame.last = some t → kpsOf base.kpPool t = 0) ↔
      ¬ (base.sched.length + 1 = base.p ∧
        (base.frame.last.any fun i => decide (0 < kpsOf base.kpPool i)) = true) := by
  rw [Option.any_eq_true]
  constructor
  · rintro h ⟨hlen, t, ht, hpos⟩
    simp [h hlen t ht] at hpos
  · intro h hlen t ht
    by_contra hpos
    exact h ⟨hlen, t, ht, by simpa using Nat.pos_of_ne_zero hpos⟩

end Base

section Init
variable {n p fuel : Nat} {kps : List Nat} {sched : Schedule} {base : Sched} {fix : Bool}
  (hbase : Sched.initHelper n kps p sched = .ok base)
  (hsingle : ∀ period ∈ sched, SingleThread period) (hfix : fix = !sched.isEmpty)
include hbase hsingle

theorem SBPMESched.init_refuses (h : ¬ base.Passes) :
    ∃ e, e ≠ Halt.outOfFuel ∧ SBPMESched.init fuel n kps p sched fix = .error e := by
  obtain ⟨rfl, hp⟩ := Sched.initHelper_sched hbase
  unfold SBPMESched.init
  rw [hbase]
  simp only [Bind.bind, Except.bind, single_any_empty hsingle, Bool.false_eq_true, if_false,
    patternOf_eq (single_ne_nil hsingle), single_last hsingle]
  by_cases hadj : (wordOf base.sched).IsChain (· ≠ ·)
  swap
  · rw [if_neg hadj]
    refine ⟨_, ?_, rfl⟩
    nofun
  rw [if_pos hadj]
  by_cases hdone : base.sched.length + 1 = base.p →
      ∀ t, base.frame.last = some t → kpsOf base.kpPool t = 0
  swap
  · have hguard := not_not.mp (mt (last_done_iff base).mpr hdone)
    simp only [if_pos hguard]
    refine ⟨_, ?_, rfl⟩
    nofun
  have hroom : base.sched.length = base.p := by
    by_contra hne
    exact h ⟨hadj, hdone, by omega⟩
  simp only [if_neg ((last_done_iff base).mp hdone), wordOf_length, if_pos hroom]
  split
  · refine ⟨_, ?_, rfl⟩
    nofun
  · refine ⟨_, ?_, rfl⟩
    nofun

include hfix

theorem SBPMESched.init_of_passes (h : base.Passes) :
    SBPMESched.init fuel n kps p sched fix =
      (initLoop base.n base.frame.q base.kpPool base.frame.last fuel []).map base.startAt := by
  obtain ⟨rfl, hp⟩ := Sched.initHelper_sched hbase
  have hroom : ¬ base.sched.length = base.p := Nat.ne_of_lt h.room
  unfold SBPMESched.init
  rw [hbase]
  simp only [Bind.bind, Except.bind, single_any_empty hsingle, Bool.false_eq_true, if_false,
    patternOf_eq (single_ne_nil hsingle), single_last hsingle, if_pos h.adjacent,
    if_neg ((last_done_iff base).mp h.last_done), wordOf_length, wordOf_last,
    if_neg (fun hfull : _ ∧ base.sched.length = base.p ∧ _ => hroom hfull.2.1), if_neg hroom]
  have hq : base.p - base.sched.length = base.frame.q := rfl
  rw [hq]
  cases hloop : initLoop base.n base.frame.q base.kpPool base.frame.last fuel [] with
  | error e => rfl
  | ok v =>
    show _ = Except.ok (base.startAt v)
    cases hlast : base.sched.getLast? with
    | none =>
      have hnil : base.sched = [] := List.getLast?_eq_none_iff.mp hlast
      have hkps := Sched.initHelper_nil_kps (hnil ▸ hbase)
      have hlead : base.frame.lead = none := by
        rw [Sched.frame, hlast]
        rfl
      rw [hnil] at hfix
      simp only [hfix, hnil, hkps, hlead, Sched.startAt, List.isEmpty_nil, Bool.not_true,
        Bool.false_eq_true, if_false, Pure.pure, Except.pure]
      rfl
    | some period =>
      have hne : base.sched.isEmpty = false := by
        rw [List.isEmpty_eq_false_iff]
        rintro hnil
        simp [hnil] at hlast
      have hlead : base.frame.lead = some (period.headD 0, period.length) := by
        rw [Sched.frame, hlast]
        rfl
      have hthread : base.frame.last = some (period.headD 0) := by
        rw [Frame.last, hlead]
        rfl
      simp only [hfix, hne, hthread, hlead, Sched.startAt, Bool.not_false, if_true, Pure.pure,
        Except.pure]
      rfl

theorem SBPMESched.init_given {s : SBPMESched} :
    SBPMESched.init fuel n kps p sched fix = .ok s ↔ base.Passes ∧
      ∃ v, initLoop base.n base.frame.q base.kpPool base.frame.last fuel [] = .ok v ∧
        s = base.startAt v := by
  by_cases h : base.Passes
  · rw [SBPMESched.init_of_passes hbase hsingle hfix h]
    cases initLoop base.n base.frame.q base.kpPool base.frame.last fuel [] with
    | error e => exact ⟨nofun, nofun⟩
    | ok v =>
      constructor
      · intro hs
        exact ⟨h, v, rfl, (Except.ok.inj hs).symm⟩
      · rintro ⟨_, _, hv, rfl⟩
        cases hv
        rfl
  · obtain ⟨e, _, he⟩ := @SBPMESched.init_refuses n p fuel kps sched base fix hbase hsingle h
    rw [he]
    exact ⟨nofun, fun hs => absurd hs.1 h⟩

end Init

/-! ## The remaining key points -/

section Pool
variable {n p : Nat} {kps : List Nat} {sched : Schedule} {base : Sched}

theorem foldl_modify_sub (l : List Nat) (pool : List Int) (i : Nat) :
    (l.foldl (fun pool j => pool.modify j (· - 1)) pool)[i]? =
      pool[i]?.map fun k => k - (l.count i : Int) := by
  induction l generalizing pool with
  | nil => simp
  | cons j l ih =>
    rw [List.foldl_cons, ih, List.getElem?_modify, List.count_cons]
    cases pool[i]? with
    | none => rfl
    | some k =>
      by_cases hj : j = i
      · subst hj
        simp only [Option.map_eq_map, Option.map_some, if_true, beq_self_eq_true, Option.some.injEq,
          Int.natCast_add]
        omega
      · simp [hj]

theorem initHelper_counts (h : Sched.initHelper n kps p sched = .ok base) :
    ∃ kps', padKps (threadsOf n kps sched) kps = .ok kps' ∧ base.n = threadsOf n kps sched ∧
      ∀ i, i < base.n → kpsOf base.kpPool i = kpsOf kps' i - sched.flatten.count i ∧
        kpsOf base.kps i = max (kpsOf kps' i) (sched.flatten.count i) := by
  obtain ⟨kps', hpad, rfl⟩ := Sched.initHelper_ok h
  refine ⟨kps', hpad, rfl, fun i hi => ?_⟩
  have hle : kps.length ≤ threadsOf n kps sched := by
    rw [threadsOf]
    split <;> omega
  have hlen : i < kps'.length := (padKps_length hle hpad).symm ▸ hi
  have hpool := foldl_modify_sub sched.flatten (kps'.map Int.ofNat) i
  rw [List.getElem?_map, List.getElem?_eq_getElem hlen, Option.map_some, Option.map_some] at hpool
  have hkps : kps'[i]? = some kps'[i] := List.getElem?_eq_getElem hlen
  simp only [kpsOf, List.getD_eq_getElem?_getD, List.getElem?_map, hpool, List.zip,
    List.getElem?_zipWith, hkps, Option.map_some, Option.getD_some, Int.ofNat_eq_natCast]
  refine ⟨by omega, ?_⟩
  split <;> omega

theorem padKps_error {N : Nat} {e : Halt} (h : padKps N kps = .error e) : e ≠ .outOfFuel := by
  unfold padKps at h
  split at h
  · split at h
    · cases h
      nofun
    · cases h
  · cases h

theorem mem_lt_threadsOf {x : Nat} (hx : x ∈ sched.flatten) : x < threadsOf n kps sched := by
  have hne : sched.isEmpty = false := by
    cases sched with
    | nil => exact absurd hx List.not_mem_nil
    | cons _ _ => rfl
  have hle := (foldl_max_spec sched.flatten 0).1 x (List.mem_cons_of_mem 0 hx)
  rw [threadsOf, hne]
  simp only [Bool.false_eq_true, if_false]
  omega

end Pool

section Start
variable {n p fuel : Nat} {kps : List Nat} {sched : Schedule} {base : Sched} {fix : Bool}
  (hbase : Sched.initHelper n kps p sched = .ok base)
  (hsingle : ∀ period ∈ sched, SingleThread period) (hfix : fix = !sched.isEmpty)

include hbase hsingle

theorem Sched.frame_wellLed : base.frame.WellLed := by
  obtain ⟨hsched, _⟩ := Sched.initHelper_sched hbase
  obtain ⟨_, _, hn, _⟩ := initHelper_counts hbase
  have hlast : ∀ t, base.frame.last = some t → ∃ m, List.replicate (m + 1) t ∈ sched ∧
      base.frame.leadCount = m + 1 := by
    intro t ht
    rw [Frame.leadCount, Sched.frame, hsched]
    rw [frame_last, hsched] at ht
    obtain ⟨period, hperiod, rfl⟩ := Option.map_eq_some_iff.mp ht
    obtain ⟨u, m, rfl⟩ := hsingle period (List.mem_of_getLast? hperiod)
    refine ⟨m, List.mem_of_getLast? hperiod, ?_⟩
    simp only [hperiod, Option.map_some, Option.getD_some, List.length_replicate]
  constructor
  · intro t ht
    obtain ⟨m, hmem, _⟩ := hlast t ht
    have hflat : t ∈ sched.flatten := List.mem_flatten.mpr ⟨_, hmem, by simp⟩
    have hlt : t < threadsOf n kps sched := mem_lt_threadsOf hflat
    rwa [← hn] at hlt
  · intro t ht
    obtain ⟨m, _, hcount⟩ := hlast t ht
    omega

omit hsingle in
theorem Sched.frame_fits : base.frame.Fits sched.dropLast (wordOf sched) := by
  obtain ⟨hsched, _⟩ := Sched.initHelper_sched hbase
  rcases List.eq_nil_or_concat' sched with rfl | ⟨front, period, rfl⟩
  · apply Frame.Fits.free
    rw [Sched.frame, hsched]
    rfl
  · rw [wordOf, List.map_append, List.dropLast_concat]
    apply Frame.Fits.led
    · rw [Sched.frame, hsched, List.getLast?_concat]
      rfl
    · exact List.length_map _

theorem Sched.frame_split : sched = sched.dropLast ++ base.frame.leadPeriod := by
  obtain ⟨hsched, _⟩ := Sched.initHelper_sched hbase
  rw [Frame.leadPeriod, Sched.frame, hsched]
  rcases List.eq_nil_or_concat' sched with rfl | ⟨front, period, rfl⟩
  · rfl
  · have hmem : period ∈ front ++ [period] := by simp
    have hperiod := (single_headD hsingle hmem).1
    rw [List.dropLast_concat, List.getLast?_concat]
    exact congrArg (fun q => front ++ [q]) hperiod

theorem Sched.startAt_inFrame (hroom : base.sched.length < base.p) {v : List Nat × List Nat}
    (hv : v.1 ∈ chosenLists base.frame.n base.frame.q) (hlen : v.2.length = base.frame.q) :
    SBPMESched.InFrame base.frame sched.dropLast (wordOf sched) (v, base.frame.fresh v)
      (base.startAt v) := by
  obtain ⟨hsched, _⟩ := Sched.initHelper_sched hbase
  have hq : 0 < base.frame.q := Nat.sub_pos_of_lt hroom
  have hfresh : base.sched ++ initSched base.n (base.frame.ckps v.1) base.frame.q v.2 =
      sched.dropLast ++ base.frame.fresh v := by
    rw [Frame.fresh, ← List.append_assoc, ← Sched.frame_split hbase hsingle, hsched]
    rfl
  have hne : base.frame.fresh v ≠ [] := by
    intro hnil
    have := (List.append_eq_nil_iff.mp hnil).2
    have hzero := congrArg List.length this
    rw [initSched_length, hlen, List.length_nil] at hzero
    omega
  have hfull : (base.startAt v).sched = base.frame.full sched.dropLast (v, base.frame.fresh v) := by
    show extendLast _ _ = _
    rw [hfresh, extendLast_append hne]
    rfl
  have hsorted : v.1.mergeSort (· ≤ ·) = v.1 :=
    List.mergeSort_of_pairwise ((mem_chosenLists.mp hv).2.2.1.imp fun h => by
      simpa using Nat.le_of_lt h)
  refine ⟨rfl, ?_, rfl, ?_, ?_, ?_, rfl, ?_, hfresh, rfl, ?_⟩
  · show base.p = (wordOf sched).length + (base.p - base.sched.length)
    rw [wordOf_length, ← hsched]
    omega
  · show base.sched.length = (wordOf sched).length
    rw [wordOf_length, hsched]
  · intro l hl
    show ((base.frame.lead.getD (0, 0)).1, (base.frame.lead.getD (0, 0)).2) = l
    rw [hl]
    rfl
  · show (if base.sched.isEmpty then v.1.mergeSort (· ≤ ·) else v.1) = v.1
    rw [hsorted, ite_self]
  · show wordOf base.sched ++ v.2 = wordOf sched ++ v.2
    rw [hsched]
  · rw [hfull]
    exact List.forall₂_same.mpr fun period _ => List.Perm.refl period

include hfix

/-- An accepted start is the first word of the frame. -/
theorem SBPMESched.init_inFrame {s : SBPMESched}
    (h : SBPMESched.init fuel n kps p sched fix = .ok s) :
    base.Passes ∧ ∃ v, base.frame.firstPair = some v ∧ s = base.startAt v ∧
      SBPMESched.InFrame base.frame sched.dropLast (wordOf sched) (v, base.frame.fresh v) s := by
  obtain ⟨hpasses, v, hloop, rfl⟩ := (SBPMESched.init_given hbase hsingle hfix).mp h
  obtain ⟨hsched, _⟩ := Sched.initHelper_sched hbase
  have hq : 0 < base.frame.q := Nat.sub_pos_of_lt hpasses.room
  obtain ⟨N, hN⟩ := base.frame.exists_enough
  have hmono := initLoop_mono (Nat.le_max_left fuel N) (by simp) hloop
  have hfirst := Frame.initLoop_eq hq (hN _ (Nat.le_max_right fuel N))
  have hpool : base.kpPool = base.frame.pool := rfl
  have hbn : base.n = base.frame.n := rfl
  rw [hpool, hbn, hfirst] at hmono
  cases hv : base.frame.firstPair with
  | none =>
    rw [hv] at hmono
    cases hmono
  | some u =>
    rw [hv] at hmono
    obtain rfl : u = v := Except.ok.inj hmono
    obtain ⟨preC, postC, post, hsets, hwords, _⟩ := Frame.firstPair_split hv
    refine ⟨hpasses, u, rfl, rfl, ?_⟩
    apply Sched.startAt_inFrame hbase hsingle hpasses.room
    · simp [hsets]
    · have hmem : u.2 ∈ base.frame.words u.1 := by simp [hwords]
      exact searchWords_length hmem

/-- With rounds for every set the constructor does not run out of them. -/
theorem SBPMESched.init_ends (hfuel : base.frame.Enough fuel) :
    SBPMESched.init fuel n kps p sched fix ≠ .error .outOfFuel := by
  by_cases h : base.Passes
  · have hloop := Frame.initLoop_eq (Nat.sub_pos_of_lt h.room : 0 < base.frame.q) hfuel
    have hpool : base.kpPool = base.frame.pool := rfl
    have hbn : base.n = base.frame.n := rfl
    rw [SBPMESched.init_of_passes hbase hsingle hfix h, hpool, hbn, hloop]
    cases base.frame.firstPair with
    | none => exact nofun
    | some v => exact nofun
  · obtain ⟨e, hne, he⟩ := @SBPMESched.init_refuses n p fuel kps sched base fix hbase hsingle h
    rw [he]
    exact fun hfuel => hne (Except.error.inj hfuel)

/-- The constructor accepts what passes its tests when there is a word. -/
theorem SBPMESched.init_accepts_iff :
    (∃ fuel s, SBPMESched.init fuel n kps p sched fix = .ok s) ↔
      base.Passes ∧ base.frame.firstPair ≠ none := by
  constructor
  · rintro ⟨fuel, s, h⟩
    obtain ⟨hpasses, v, hv, _⟩ := SBPMESched.init_inFrame hbase hsingle hfix h
    exact ⟨hpasses, by simp [hv]⟩
  · rintro ⟨hpasses, hne⟩
    obtain ⟨v, hv⟩ := Option.ne_none_iff_exists'.mp hne
    obtain ⟨N, hN⟩ := base.frame.exists_enough
    have hfirst := Frame.initLoop_eq (Nat.sub_pos_of_lt hpasses.room) (hN N (Nat.le_refl N))
    rw [hv] at hfirst
    exact ⟨N, base.startAt v,
      (SBPMESched.init_given hbase hsingle hfix).mpr ⟨hpasses, v, hfirst, rfl⟩⟩

end Start

end Period.Scheduler
