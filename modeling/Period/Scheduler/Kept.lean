import Period.Scheduler.MixedSound

/-!
# What becomes of the given prefix

The periods in front of the last given one are not touched. The last given period only
grows as long as its thread is not reset: a thread with a smaller number that moves a key
point makes `_init_sched` lay out the thread anew, with one key point in that period.
-/

namespace Period.Scheduler

open Enumeration Search Parts
set_option autoImplicit false

/-- The given periods are still there, and the last of them has lost nothing. -/
structure Keeps (sched sched' : Schedule) : Prop where
  front : sched'.take (sched.length - 1) = sched.dropLast
  grown : ∀ t m, sched.getLast? = some (List.replicate m t) →
    ∃ k, m ≤ k ∧ sched'[sched.length - 1]? = some (List.replicate k t)

section Heads
variable {f : Frame} {v : List Nat × List Nat} {t : Nat} (hled : f.WellLed) (hv : v ∈ f.pairs)

theorem Frame.ckps_idle (hv : v ∈ f.pairs) {i : Nat} (h : v.2.count i = 0) :
    kpsOf (f.ckps v.1) i = 0 := by
  rw [Frame.kpsOf_ckps_word hv, if_neg (List.count_eq_zero.mp h)]

theorem Frame.later_ne_nil {i : Nat} (hv : v ∈ f.pairs) (hlast : f.last ≠ some i) :
    (f.dial v i).later ≠ [] ↔ 2 ≤ v.2.count i ∧ v.2.count i < kpsOf f.pool i := by
  rw [Frame.dial, if_neg hlast, spreads_tail_ne_nil_iff (Nat.le_max_left _ _),
    Frame.kpsOf_ckps_word hv]
  by_cases hi : i ∈ v.2
  · rw [if_pos hi]
    omega
  · rw [List.count_eq_zero.mpr hi]
    omega

include hled hv

theorem Frame.resumed_head (ht : f.last = some t) {l : List Nat}
    (h : l ∈ (f.dial v t).now :: (f.dial v t).later) : f.leadCount ≤ l.getD 0 0 := by
  rw [Frame.dial_resumed, if_pos ht] at h
  have hspread := spreadFrom_of_mem (hled.pos t ht) (Nat.le_max_left _ _) (fun hzero => by
    rw [hzero, Frame.ckps_idle hv hzero]
    rfl) h
  obtain ⟨a, rest, rfl, hle⟩ := hspread.head_le
  exact hle

/-- A reset leaves the last given period with one key point if the thread comes again. -/
theorem Frame.reset_head (ht : f.last = some t) :
    (∀ l ∈ (f.dial v t).all, f.leadCount ≤ l.getD 0 0) ↔ ¬ (2 ≤ f.leadCount ∧ t ∈ v.2) := by
  have hpos := hled.pos t ht
  rw [Frame.dial_all hled, Frame.word_count, Frame.kpsOf_total hled, if_pos ht, if_pos ht]
  by_cases hmem : t ∈ v.2
  · obtain ⟨m, hm⟩ := Nat.exists_eq_add_of_lt (List.count_pos_iff.mpr hmem)
    rw [Nat.zero_add] at hm
    rw [hm]
    constructor
    · rintro h ⟨htwo, _⟩
      have hle := h _ (List.mem_of_head? (spreads_head (m + 1 + 1) _ (Nat.le_max_left _ _)))
      rw [firstParts, List.replicate_succ] at hle
      exact Nat.not_succ_le_self 1 (Nat.le_trans htwo hle)
    · intro h l hl
      obtain ⟨hlen, hall⟩ := spreads_part (Nat.le_max_left _ _) hl
      obtain ⟨x, rest, rfl⟩ := List.exists_cons_of_length_eq_add_one hlen
      have hone : f.leadCount ≤ 1 := Nat.le_of_not_lt fun htwo => h ⟨htwo, hmem⟩
      exact Nat.le_trans hone (hall x List.mem_cons_self)
  · have hcount : v.2.count t = 0 := List.count_eq_zero.mpr hmem
    rw [Frame.ckps_idle hv hcount, hcount, Nat.zero_add, Nat.zero_add, Nat.max_eq_right hpos]
    refine iff_of_true (fun l hl => ?_) fun h => hmem h.2
    rw [List.mem_singleton.mp hl]
    exact Nat.le_refl _

/-- The last given period keeps its key points unless a smaller thread can move one. -/
theorem Frame.heads_iff (ht : f.last = some t) :
    (∀ parts ∈ readingsFrom (f.dials v), f.leadCount ≤ (parts.getD t []).getD 0 0) ↔
      ¬ (2 ≤ f.leadCount ∧ t ∈ v.2 ∧
        ∃ i < t, 2 ≤ v.2.count i ∧ v.2.count i < kpsOf f.pool i) := by
  have hlt := hled.lt t ht
  have hdial : (f.dials v)[t]? = some (f.dial v t) := by
    rw [Frame.dials, List.getElem?_map, List.getElem?_range hlt]
    rfl
  have hall : ∀ d ∈ f.dials v, d.all ≠ [] := by
    intro d hd
    obtain ⟨i, _, rfl⟩ := List.mem_map.mp hd
    rw [Frame.dial_all hled]
    exact List.ne_nil_of_mem (List.mem_of_head? (spreads_head _ _ (Nat.le_max_left _ _)))
  have hturned : (∃ e ∈ (f.dials v).take t, e.later ≠ []) ↔
      ∃ i < t, 2 ≤ v.2.count i ∧ v.2.count i < kpsOf f.pool i := by
    rw [Frame.dials, ← List.map_take, List.take_range, Nat.min_eq_left (Nat.le_of_lt hlt)]
    simp only [List.mem_map, List.mem_range, exists_exists_and_eq_and]
    apply exists_congr
    intro i
    apply and_congr_right
    intro hi
    apply Frame.later_ne_nil hv
    rw [ht]
    exact fun he => absurd (Option.some.inj he) (Nat.ne_of_gt hi)
  rw [← hturned]
  constructor
  · rintro h ⟨htwo, hmem, hturn⟩
    apply (Frame.reset_head hled hv ht).mp _ ⟨htwo, hmem⟩
    intro l hl
    obtain ⟨parts, hparts, hget⟩ := (exists_mem_readingsFrom hall).mpr
      ⟨_, hdial, Or.inr ⟨hl, hturn⟩⟩
    have hpart : parts.getD t [] = l := by
      rw [List.getD_eq_getElem?_getD, hget]
      rfl
    exact hpart ▸ h parts hparts
  · intro h parts hparts
    have hlen := (Frame.reading_parted hled hparts).1
    have hget : parts[t]? = some (parts.getD t []) := by
      rw [List.getD_eq_getElem?_getD, List.getElem?_eq_getElem (by omega)]
      rfl
    obtain ⟨d, hd, hmem⟩ := (exists_mem_readingsFrom hall).mp ⟨parts, hparts, hget⟩
    obtain rfl := Option.some.inj (hdial.symm.trans hd)
    rcases hmem with hmem | ⟨hmem, hturn⟩
    · exact Frame.resumed_head hled hv ht hmem
    · apply (Frame.reset_head hled hv ht).mpr _ _ hmem
      exact fun hboth => h ⟨hboth.1, hboth.2, hturn⟩

end Heads

/-! ## The states -/

theorem Frame.leadPeriod_eq {f : Frame} {t : Nat} (ht : f.last = some t) :
    f.leadPeriod = [List.replicate f.leadCount t] := by
  unfold Frame.leadPeriod Frame.leadCount
  rw [Frame.last] at ht
  obtain ⟨⟨x, m⟩, hlead, rfl⟩ := Option.map_eq_some_iff.mp ht
  rw [hlead]
  rfl

section Kept
variable {n p fuel : Nat} {kps : List Nat} {sched : Schedule} {base : Sched}
  (hbase : Sched.initHelper n kps p sched = .ok base)
  (hsingle : ∀ period ∈ sched, SingleThread period) {t : Nat} (ht : base.frame.last = some t)

section State
variable (hpasses : base.Passes) {v : List Nat × List Nat} {parts : List (List Nat)}
  (hv : v ∈ base.frame.pairs) (hparts : parts ∈ readingsFrom (base.frame.dials v))
  {s : SBPMESched} (h : SBPMESched.InFrame base.frame sched.dropLast (wordOf sched)
      (v, layout (base.frame.word v.2) parts) s)
include hbase hsingle ht hpasses hv hparts h

theorem SBPMESched.inFrame_given : ∃ rest, s.sched = sched.dropLast ++
    List.replicate ((parts.getD t []).getD 0 0) t :: rest := by
  have ha : (v, layout (base.frame.word v.2) parts) ∈ base.frame.triples :=
    Frame.mem_triples.mpr ⟨hv, parts, hparts, rfl⟩
  obtain ⟨u, x, singles, m, last, hu, hperiods, hsched, _⟩ :=
    SBPMESched.inFrame_split hbase hsingle hpasses ha h
  have hword : base.frame.word v.2 = t :: v.2 := by
    rw [Frame.word, ht]
    rfl
  dsimp only at hu hperiods
  rw [hword, layout_cons] at hperiods
  cases singles with
  | nil =>
    have hlen := congrArg List.length (List.cons.inj hperiods).2
    rw [layout_length, hu, List.length_append] at hlen
    exact absurd hlen (Nat.succ_ne_zero _)
  | cons period singles =>
    refine ⟨singles ++ [last], ?_⟩
    rw [hsched, (List.cons.inj hperiods).1, List.append_assoc]
    rfl

theorem SBPMESched.keeps_iff :
    Keeps sched s.sched ↔ base.frame.leadCount ≤ (parts.getD t []).getD 0 0 := by
  obtain ⟨rest, hsched⟩ := SBPMESched.inFrame_given hbase hsingle ht hpasses hv hparts h
  have hpos := (Sched.frame_wellLed hbase hsingle).pos t ht
  have hgiven := Sched.frame_split hbase hsingle
  rw [Frame.leadPeriod_eq ht] at hgiven
  have hlast : sched.getLast? = some (List.replicate base.frame.leadCount t) := by
    rw [hgiven]
    exact List.getLast?_concat
  have hperiod : s.sched[sched.length - 1]? =
      some (List.replicate ((parts.getD t []).getD 0 0) t) := by
    rw [hsched, ← List.length_dropLast, List.getElem?_append_right (Nat.le_refl _), Nat.sub_self]
    rfl
  constructor
  · intro hkeeps
    obtain ⟨k, hle, hk⟩ := hkeeps.grown t _ hlast
    have hlen := congrArg List.length (Option.some.inj (hperiod.symm.trans hk))
    rw [List.length_replicate, List.length_replicate] at hlen
    rwa [hlen]
  · intro hle
    refine ⟨?_, fun t' m hm => ?_⟩
    · rw [hsched, ← List.length_dropLast]
      exact List.take_left
    · have heq := Option.some.inj (hlast.symm.trans hm)
      obtain ⟨hcount, hthread⟩ := List.replicate_inj.mp heq
      obtain rfl := hthread.resolve_left (Nat.ne_of_gt hpos)
      exact ⟨_, hcount ▸ hle, hperiod⟩

end State

theorem Sched.frame_given {m : Nat} (hbase : Sched.initHelper n kps p sched = .ok base)
    (hsingle : ∀ period ∈ sched, SingleThread period)
    (hlast : sched.getLast? = some (List.replicate m t)) :
    base.frame.last = some t ∧ base.frame.leadCount = m := by
  obtain ⟨x, k, hperiod⟩ := hsingle _ (List.mem_of_getLast? hlast)
  obtain ⟨rfl, hthread⟩ := List.replicate_inj.mp hperiod
  obtain rfl := hthread.resolve_left (Nat.succ_ne_zero k)
  rw [frame_last, Frame.leadCount, Sched.frame, (Sched.initHelper_sched hbase).1, hlast]
  exact ⟨rfl, List.length_replicate⟩

section Runs
variable {start : SBPMESched} {m : Nat} (hlast : sched.getLast? = some (List.replicate m t))
  (hinit : SBPMESched.init fuel n kps p sched true = .ok start)
include hbase hsingle hlast hinit

omit hbase hsingle hinit in
theorem fixed_of_last : true = !sched.isEmpty := by
  rw [List.isEmpty_eq_false_iff.mpr (by rintro rfl; cases hlast)]
  rfl

/-- A word in which the thread of the last given period comes again, behind a smaller one with a
key point to move. -/
theorem exists_lost (htwo : 2 ≤ m) {w : List Nat} (hw : base.frame.Visits w) (hmem : t ∈ w)
    (hmove : ∃ i < t, 2 ≤ w.count i ∧ w.count i < kpsOf base.kpPool i) :
    ∃ s, SBPMESched.Reached n kps p sched true s ∧ ¬ Keeps sched s.sched := by
  obtain ⟨ht, rfl⟩ := Sched.frame_given hbase hsingle hlast
  have hfix := fixed_of_last hlast
  obtain ⟨hpasses, _⟩ := SBPMESched.init_inFrame hbase hsingle hfix hinit
  obtain ⟨out, hout, hall⟩ := SBPMESched.reached_forall₂ hbase hsingle hfix hinit
  have hled := Sched.frame_wellLed hbase hsingle
  obtain ⟨c, hv⟩ := (Frame.exists_pair_iff (Nat.sub_pos_of_lt hpasses.room)).mpr hw
  by_contra hnone
  apply (Frame.heads_iff hled hv ht).mp _ ⟨htwo, hmem, hmove⟩
  intro parts hparts
  have ha : ((c, w), layout (base.frame.word w) parts) ∈ base.frame.triples :=
    Frame.mem_triples.mpr ⟨hv, parts, hparts, rfl⟩
  obtain ⟨s, hs, hat⟩ := exists_of_forall₂ hall ha
  apply (SBPMESched.keeps_iff hbase hsingle ht hpasses hv hparts hat).mp
  by_contra hlost
  exact hnone ⟨s, (hout s).mpr hs, hlost⟩

/-- The prefix is kept unless a thread smaller than its last one can move a key point in a word
where the last one comes again. -/
theorem sbpmeSched_keeps_iff :
    (∀ s, SBPMESched.Reached n kps p sched true s → Keeps sched s.sched) ↔
      ¬ (2 ≤ m ∧ ∃ w, base.frame.Visits w ∧ t ∈ w ∧
        ∃ i < t, 2 ≤ w.count i ∧ w.count i < kpsOf base.kpPool i) := by
  constructor
  · rintro hkeeps ⟨htwo, w, hw, hmem, hmove⟩
    obtain ⟨s, hs, hlost⟩ := exists_lost hbase hsingle hlast hinit htwo hw hmem hmove
    exact hlost (hkeeps s hs)
  · intro hmove s hs
    obtain ⟨ht, rfl⟩ := Sched.frame_given hbase hsingle hlast
    have hfix := fixed_of_last hlast
    obtain ⟨hpasses, _⟩ := SBPMESched.init_inFrame hbase hsingle hfix hinit
    obtain ⟨out, hout, hall⟩ := SBPMESched.reached_forall₂ hbase hsingle hfix hinit
    have hled := Sched.frame_wellLed hbase hsingle
    obtain ⟨⟨v, periods⟩, ha, hat⟩ := exists_of_forall₂ hall.flip ((hout s).mp hs)
    obtain ⟨hv, parts, hparts, hlayout⟩ := Frame.mem_triples.mp ha
    obtain rfl : layout (base.frame.word v.2) parts = periods := hlayout
    apply (SBPMESched.keeps_iff hbase hsingle ht hpasses hv hparts hat).mpr
    apply (Frame.heads_iff hled hv ht).mpr _ parts hparts
    rintro ⟨htwo, hmem, hmoves⟩
    exact hmove ⟨htwo, v.2, (Frame.mem_pairs_iff.mp hv).2.1, hmem, hmoves⟩

end Runs

end Kept

/-- Thread 0 has three key points for two periods around one of thread 1. -/
theorem visits_around : Frame.Visits ⟨2, [3, 1], 3, some (1, 2)⟩ [0, 1, 0] := by
  refine ⟨searchWord_of_pos ?_ (by simp) (by simp) ?_ (by simp [kpsOf]), rfl, ?_⟩
  · intro x hx he
    cases hx
    cases he
  · intro i hi
    rcases i with _ | _ | i
    · simp [kpsOf]
    · simp [kpsOf]
    · exact absurd hi (by simp [kpsOf])
  · intro u x _ _ y hy _ hout
    have hy : y < 2 := hy
    simp only [List.mem_cons, List.not_mem_nil, or_false, not_or] at hout
    omega

theorem init_around :
    ∃ fuel start, SBPMESched.init fuel 2 [3, 3] 4 [[1, 1]] true = .ok start := by
  have hsingle : ∀ period ∈ ([[1, 1]] : Schedule), SingleThread period := by
    intro period hmem
    exact ⟨1, 1, List.mem_singleton.mp hmem⟩
  have hbase : Sched.initHelper 2 [3, 3] 4 [[1, 1]] = .ok ⟨2, [3, 3], 4, [[1, 1]], [3, 1]⟩ := rfl
  apply (SBPMESched.init_accepts_iff hbase hsingle rfl).mpr
  refine ⟨⟨List.isChain_singleton _, fun h => absurd h (by decide), by decide⟩, fun hnone => ?_⟩
  exact (Frame.firstPair_eq_none_iff (by decide)).mp hnone [0, 1, 0] rfl
    visits_around.toSearchWord

theorem sbpmeSched_keeps_iff_around :
    (∀ s, SBPMESched.Reached 2 [3, 3] 4 [[1, 1]] true s → Keeps [[1, 1]] s.sched) ↔
      ¬ (2 ≤ 2 ∧ ∃ w, Frame.Visits ⟨2, [3, 1], 3, some (1, 2)⟩ w ∧ 1 ∈ w ∧
        ∃ i < 1, 2 ≤ w.count i ∧ w.count i < kpsOf [3, 1] i) := by
  obtain ⟨fuel, start, hinit⟩ := init_around
  exact sbpmeSched_keeps_iff rfl (fun period hmem => ⟨1, 1, List.mem_singleton.mp hmem⟩) rfl hinit

/-- Thread 0 moves a key point and thread 1 starts again with one key point. -/
theorem sbpmeSched_keeps_fails :
    ∃ s, SBPMESched.Reached 2 [3, 3] 4 [[1, 1]] true s ∧ ¬ Keeps [[1, 1]] s.sched := by
  obtain ⟨fuel, start, hinit⟩ := init_around
  exact exists_lost rfl (fun period hmem => ⟨1, 1, List.mem_singleton.mp hmem⟩) rfl hinit
    (Nat.le_refl 2) visits_around (by simp) ⟨0, by simp [kpsOf]⟩

end Period.Scheduler
