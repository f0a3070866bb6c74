import Period.Scheduler.MixedDistinct
import Period.Scheduler.Produced
import Period.Scheduler.Visited

/-!
# Soundness of the mixed-end scheduler

Every schedule has the required shape. It has the required key points when every
thread of the word has key points left; a thread that has none gets one too many.
-/

namespace Period.Scheduler

open Enumeration Search Parts
set_option autoImplicit false

/-- `p` non-empty periods, single-thread ones of adjacent different threads up to the last one,
in which thread `i` has `kps[i]` key points. -/
structure MixedEndSched (kps : List Nat) (p : Nat) (sched : Schedule) : Prop where
  length_eq : sched.length = p
  ne_nil : ∀ period ∈ sched, period ≠ []
  single : ∀ period ∈ sched.dropLast, SingleThread period
  adjacent : (wordOf sched.dropLast).IsChain (· ≠ ·)
  count_eq : ∀ i, sched.flatten.count i = kpsOf kps i

section Counts
variable {f : Frame} {a : (List Nat × List Nat) × Schedule} (hled : f.WellLed)

theorem Frame.leadPeriod_count (i : Nat) :
    f.leadPeriod.flatten.count i = if f.last = some i then f.leadCount else 0 := by
  unfold Frame.leadPeriod Frame.last Frame.leadCount
  cases f.lead with
  | none => rfl
  | some l =>
    obtain ⟨t, m⟩ := l
    simp [List.count_replicate]

/-- A thread with its key points spends all of them, and those of the last given period. -/
theorem Frame.part_sum (hled : f.WellLed) {v : List Nat × List Nat} {i : Nat}
    (hle : v.2.count i ≤ kpsOf (f.ckps v.1) i) (hzero : v.2.count i = 0 → kpsOf (f.ckps v.1) i = 0)
    {l : List Nat} (h : l ∈ (f.dial v i).now :: (f.dial v i).later ∨ l ∈ (f.dial v i).all) :
    l.sum = kpsOf (f.total v.1) i := by
  have hmax : max (v.2.count i) (kpsOf (f.ckps v.1) i) = kpsOf (f.ckps v.1) i := Nat.max_eq_right hle
  have hlead : ∀ t, f.last = some t → 0 < f.leadCount := hled.pos
  rw [Frame.dial_resumed, Frame.dial_all hled, Frame.word_count, Frame.kpsOf_total hled, hmax] at h
  rw [Frame.kpsOf_total hled]
  by_cases hlast : f.last = some i
  · have hpos := hlead i hlast
    rw [if_pos hlast, if_pos hlast, if_pos hlast] at h
    rw [if_pos hlast]
    rcases h with h | h
    · rw [(spreadFrom_of_mem hpos hle hzero h).sum_eq, Nat.add_comm]
    · have hall : max (v.2.count i + 1) (kpsOf (f.ckps v.1) i + f.leadCount) =
          kpsOf (f.ckps v.1) i + f.leadCount := Nat.max_eq_right (by omega)
      rw [hall] at h
      exact (spreads_sound (by omega) (fun h => absurd h (Nat.succ_ne_zero _)) h).1
  · rw [if_neg hlast, if_neg hlast, if_neg hlast, Nat.add_zero, Nat.add_zero, hmax, or_self] at h
    rw [if_neg hlast, Nat.add_zero]
    exact (spreads_sound hle hzero h).1

theorem Frame.full_count {front : Schedule} (hq : 0 < f.q) (ha : a ∈ f.triples) (i : Nat) :
    (f.full front a).flatten.count i =
      front.flatten.count i + (a.2.flatten.count i + (f.other a.1).count i) := by
  rw [Frame.full, List.flatten_append, List.count_append,
    extendLast_count (Frame.triple_ne_nil hq ha)]

theorem Frame.other_count (v : List Nat × List Nat) (i : Nat) :
    (f.other v).count i = if i < f.n ∧ kpsOf (f.ckps v.1) i = 0 then kpsOf f.pool i else 0 :=
  otherKps_count _ _ _ _

include hled

/-- Where every letter has key points left, nothing is lost and nothing is added. -/
theorem Frame.triple_count (ha : a ∈ f.triples) (hpool : ∀ i ∈ a.1.2, 0 < kpsOf f.pool i) {i : Nat}
    (hi : i < f.n) : a.2.flatten.count i + (f.other a.1).count i =
      f.leadPeriod.flatten.count i + kpsOf f.pool i := by
  obtain ⟨hv, parts, hparts, hlayout⟩ := Frame.mem_triples.mp ha
  have hvisits := (Frame.mem_pairs_iff.mp hv).2.1
  have hckps : i ∈ a.1.2 → kpsOf (f.ckps a.1.1) i = kpsOf f.pool i := fun hmem => by
    rw [Frame.kpsOf_ckps_word hv, if_pos hmem]
  have hnot : i ∉ a.1.2 → kpsOf (f.ckps a.1.1) i = 0 := fun hmem => by
    rw [Frame.kpsOf_ckps_word hv, if_neg hmem]
  have hsum : (parts.getD i []).sum = kpsOf (f.total a.1.1) i := by
    apply Frame.part_sum hled _ _ (Frame.reading_part hparts hi)
    · by_cases hmem : i ∈ a.1.2
      · rw [hckps hmem]
        exact hvisits.count_le i (hpool i hmem)
      · rw [List.count_eq_zero.mpr hmem]
        exact Nat.zero_le _
    · exact fun hzero => hnot (List.count_eq_zero.mp hzero)
  rw [← hlayout, layout_flatten_count (Frame.reading_parted hled hparts) hi, hsum,
    Frame.kpsOf_total hled, Frame.other_count, Frame.leadPeriod_count]
  by_cases hmem : i ∈ a.1.2
  · have hpos := hpool i hmem
    rw [hckps hmem, if_neg (fun h : _ ∧ _ => absurd h.2 (by omega))]
    omega
  · have hother : i < f.n ∧ 0 = 0 := ⟨hi, rfl⟩
    rw [hnot hmem, if_pos hother]
    omega

omit hled in
/-- Every letter of the word adds a key point to the given ones. -/
theorem Frame.fresh_count {v : List Nat × List Nat} (ha : (v, f.fresh v) ∈ f.triples) {i : Nat}
    (hi : i ∈ v.2) :
    f.leadPeriod.flatten.count i < (f.fresh v).flatten.count i := by
  obtain ⟨hlen, hletters, _⟩ := Frame.mem_pair_word (Frame.mem_triples.mp ha).1
  have hlt : ∀ x ∈ v.2, x < f.n := fun x hx => (hletters x hx).1
  have hinit : initSched f.n (f.ckps v.1) f.q v.2 = layout v.2 (startParts f.n (f.ckps v.1) v.2) := by
    rw [← hlen]
    exact initSched_eq hlt
  have hcount : 0 < v.2.count i := List.count_pos_iff.mpr hi
  rw [Frame.fresh, List.flatten_append, List.count_append, hinit,
    filled_count (filled_start f.n (f.ckps v.1) v.2) (hlt i hi), if_neg (by omega)]
  omega

end Counts

section Shape
variable {n p : Nat} {kps : List Nat} {sched : Schedule} {base : Sched}
  (hbase : Sched.initHelper n kps p sched = .ok base)
  (hsingle : ∀ period ∈ sched, SingleThread period) (hpasses : base.Passes)
  {a : (List Nat × List Nat) × Schedule} (ha : a ∈ base.frame.triples) {s : SBPMESched}
  (h : SBPMESched.InFrame base.frame sched.dropLast (wordOf sched) a s)

theorem wordOf_append (sched sched' : Schedule) :
    wordOf (sched ++ sched') = wordOf sched ++ wordOf sched' := List.map_append

theorem wordOf_leadPeriod {f : Frame} (hled : f.WellLed) : wordOf f.leadPeriod = f.last.toList := by
  have hpos := hled.pos
  unfold Frame.leadPeriod Frame.last Frame.leadCount at *
  cases hlead : f.lead with
  | none => rfl
  | some l =>
    obtain ⟨t, m⟩ := l
    rw [hlead] at hpos
    obtain ⟨m, rfl⟩ := Nat.exists_eq_succ_of_ne_zero (Nat.ne_of_gt (hpos t rfl))
    rfl

theorem single_eq_of_perm {sched sched' : Schedule} (hsingle : ∀ period ∈ sched', SingleThread period)
    (h : List.Forall₂ List.Perm sched sched') : sched = sched' := by
  induction h with
  | nil => rfl
  | @cons period period' sched sched' hperm _ ih =>
    obtain ⟨t, m, rfl⟩ := hsingle period' List.mem_cons_self
    rw [List.perm_replicate.mp hperm, ih fun q hq => hsingle q (List.mem_cons_of_mem _ hq)]

theorem forall₂_concat {α : Type} {R : α → α → Prop} {l l' : List α} {y : α}
    (h : List.Forall₂ R l (l' ++ [y])) : ∃ k x, l = k ++ [x] ∧ List.Forall₂ R k l' ∧ R x y := by
  have htake := List.forall₂_take_append l l' [y] h
  obtain ⟨x, rest, hxy, hrest, hdrop⟩ :=
    List.forall₂_cons_right_iff.mp (List.forall₂_drop_append l l' [y] h)
  cases hrest
  refine ⟨l.take l'.length, x, ?_, htake, hxy⟩
  rw [← hdrop, List.take_append_drop]

include hbase hsingle hpasses ha h

/-- The periods in front of the last one, as they are. -/
theorem SBPMESched.inFrame_split : ∃ u x singles m last, a.1.2 = u ++ [x] ∧
    a.2 = singles ++ [List.replicate (m + 1) x] ∧
    s.sched = sched.dropLast ++ singles ++ [last] ∧
    last.Perm (List.replicate (m + 1) x ++ base.frame.other a.1) ∧
    wordOf (sched.dropLast ++ singles) = wordOf sched ++ u ∧
    ∀ period ∈ sched.dropLast ++ singles, SingleThread period := by
  have hq : 0 < base.frame.q := Nat.sub_pos_of_lt hpasses.room
  have hled := Sched.frame_wellLed hbase hsingle
  obtain ⟨u, x, singles, m, hu, hperiods, hword, hsingles⟩ := Frame.triple_split hled hq ha
  have hperm := h.sched_perm
  rw [Frame.full, hperiods, extendLast_concat, ← List.append_assoc] at hperm
  obtain ⟨front, last, hsched, hfront, hlast⟩ := forall₂_concat hperm
  have hall : ∀ period ∈ sched.dropLast ++ singles, SingleThread period := by
    intro period hmem
    rcases List.mem_append.mp hmem with hmem | hmem
    · exact hsingle period (List.mem_of_mem_dropLast hmem)
    · exact hsingles period hmem
  obtain rfl := single_eq_of_perm hall hfront
  refine ⟨u, x, singles, m, last, hu, hperiods, hsched, hlast, ?_, hall⟩
  have hsplit := congrArg wordOf (Sched.frame_split hbase hsingle)
  rw [wordOf_append, wordOf_leadPeriod hled] at hsplit
  rw [wordOf_append, hword, Frame.word, ← List.append_assoc, ← hsplit]

theorem SBPMESched.inFrame_shape : s.sched.length = base.p ∧ (∀ period ∈ s.sched, period ≠ []) ∧
    (∀ period ∈ s.sched.dropLast, SingleThread period) ∧
    (wordOf s.sched.dropLast).IsChain (· ≠ ·) := by
  obtain ⟨u, x, singles, m, last, hu, _, hsched, hlast, hword, hall⟩ :=
    SBPMESched.inFrame_split hbase hsingle hpasses ha h
  obtain ⟨hsame, _⟩ := Sched.initHelper_sched hbase
  obtain ⟨hv, _⟩ := Frame.mem_triples.mp ha
  have hvisits := (Frame.mem_pairs_iff.mp hv).2.1
  have hlen := congrArg List.length hword
  have hlenw := hvisits.length_eq
  have hroom := hpasses.room
  rw [hu, List.length_append, List.length_singleton] at hlenw
  rw [wordOf_length, List.length_append, List.length_append, wordOf_length] at hlen
  have hq : base.frame.q = base.p - base.sched.length := rfl
  rw [hsame] at hq hroom
  rw [hsched, List.dropLast_concat, hword]
  refine ⟨?_, ?_, hall, ?_⟩
  · rw [List.length_append, List.length_append, List.length_singleton, hlen]
    omega
  · intro period hmem
    rcases List.mem_append.mp hmem with hmem | hmem
    · exact single_ne_nil hall period hmem
    · rw [List.mem_singleton.mp hmem]
      rintro rfl
      exact absurd hlast.symm.eq_nil (by simp)
  · have hadj := hpasses.adjacent
    have hchain := hvisits.adjacent
    have hfirst := hvisits.first
    rw [hsame] at hadj
    rw [hu] at hchain hfirst
    rw [List.isChain_append] at hchain ⊢
    refine ⟨hadj, hchain.1, fun t ht y hy => ?_⟩
    have hne := hfirst y (by rw [List.head?_append, hy]; rfl)
    rw [← wordOf_last, hsame, ht] at hne
    exact fun he => hne (congrArg some he.symm)

end Shape

/-! ## The iteration -/

section Sound
variable {n p fuel : Nat} {kps kps' : List Nat} {sched : Schedule} {base : Sched} {fix : Bool}
  {start : SBPMESched} (hbase : Sched.initHelper n kps p sched = .ok base)
  (hpad : padKps (threadsOf n kps sched) kps = .ok kps')
  (hsingle : ∀ period ∈ sched, SingleThread period) (hfix : fix = !sched.isEmpty)
  (hwithin : ∀ i, sched.flatten.count i ≤ kpsOf kps' i)
  (hinit : SBPMESched.init fuel n kps p sched fix = .ok start)
include hbase hpad hsingle hwithin

omit hsingle in
/-- The given key points and those still to be placed. -/
theorem frame_pool {i : Nat} (hi : i < base.n) :
    sched.flatten.count i + kpsOf base.kpPool i = kpsOf kps' i := by
  obtain ⟨kps'', hpad', _, hcounts⟩ := initHelper_counts hbase
  rw [hpad] at hpad'
  cases hpad'
  have := hwithin i
  have := (hcounts i hi).1
  omega

omit hsingle hwithin in
theorem kpsOf_padded_zero {i : Nat} (hi : base.n ≤ i) : kpsOf kps' i = 0 := by
  obtain ⟨_, _, hn, _⟩ := initHelper_counts hbase
  have hle : kps.length ≤ threadsOf n kps sched := by
    rw [threadsOf]
    split <;> omega
  have hlen := padKps_length hle hpad
  rw [kpsOf, List.getD_eq_getElem?_getD, List.getElem?_eq_none (by omega)]
  rfl

omit hpad hwithin in
theorem sched_count_split (i : Nat) : sched.flatten.count i =
    sched.dropLast.flatten.count i + base.frame.leadPeriod.flatten.count i := by
  have hsplit := congrArg (fun l => l.flatten.count i) (Sched.frame_split hbase hsingle)
  simpa only [List.flatten_append, List.count_append] using hsplit

/-- The key points of a state whose word has no idle thread. -/
theorem SBPMESched.inFrame_count (hpasses : base.Passes)
    {a : (List Nat × List Nat) × Schedule} (ha : a ∈ base.frame.triples) {s : SBPMESched}
    (h : SBPMESched.InFrame base.frame sched.dropLast (wordOf sched) a s)
    (hpool : ∀ i ∈ a.1.2, 0 < kpsOf base.kpPool i) (i : Nat) :
    s.sched.flatten.count i = kpsOf kps' i := by
  have hq : 0 < base.frame.q := Nat.sub_pos_of_lt hpasses.room
  have hled := Sched.frame_wellLed hbase hsingle
  obtain ⟨hv, parts, hparts, hlayout⟩ := Frame.mem_triples.mp ha
  rw [(List.Perm.flatten_congr h.sched_perm).count_eq i, Frame.full_count hq ha]
  rcases Nat.lt_or_ge i base.n with hi | hi
  · have hcount := Frame.triple_count hled ha hpool hi
    have hpool := frame_pool hbase hpad hwithin hi
    have hsplit := sched_count_split hbase hsingle i
    have heq : kpsOf base.frame.pool i = kpsOf base.kpPool i := rfl
    omega
  -- a thread that does not exist
  · have hzero := kpsOf_padded_zero hbase hpad hi
    have hgiven := hwithin i
    have hsplit := sched_count_split hbase hsingle i
    have hother : (base.frame.other a.1).count i = 0 := by
      rw [Frame.other_count, if_neg]
      exact fun h => absurd h.1 (Nat.not_lt.mpr hi)
    have hnone : a.2.flatten.count i = 0 := by
      rw [← hlayout, List.count_eq_zero, List.mem_flatten]
      rintro ⟨period, hmem, hip⟩
      obtain ⟨_, hletters, _⟩ := Frame.mem_pair_word hv
      have hw := Frame.word_lt hled fun x hx => (hletters x hx).1
      obtain ⟨j, hj⟩ := List.mem_iff_getElem?.mp hmem
      rw [layout_getElem?] at hj
      obtain ⟨x, hx, rfl⟩ := Option.map_eq_some_iff.mp hj
      have hlt : x < base.n := hw x (List.mem_of_getElem? hx)
      rw [(List.mem_replicate.mp hip).2] at hi
      omega
    omega

include hfix hinit

/-- A word with an idle thread is visited with a key point too many. -/
theorem exists_surplus {w : List Nat} (hw : base.frame.Visits w) {i : Nat} (hi : i ∈ w)
    (hidle : kpsOf base.kpPool i = 0) : ∃ s, SBPMESched.Reached n kps p sched fix s ∧
      kpsOf kps' i < s.sched.flatten.count i := by
  obtain ⟨hpasses, _⟩ := SBPMESched.init_inFrame hbase hsingle hfix hinit
  obtain ⟨out, hout, hall⟩ := SBPMESched.reached_forall₂ hbase hsingle hfix hinit
  have hq : 0 < base.frame.q := Nat.sub_pos_of_lt hpasses.room
  obtain ⟨c, hv⟩ := (Frame.exists_pair_iff hq).mpr hw
  have hfresh : ((c, w), base.frame.fresh (c, w)) ∈ base.frame.triples :=
    Frame.fresh_mem (Sched.frame_wellLed hbase hsingle) hv
  obtain ⟨s, hs, hat⟩ := exists_of_forall₂ hall hfresh
  refine ⟨s, (hout s).mpr hs, ?_⟩
  have hmore := Frame.fresh_count hfresh hi
  have hsplit := sched_count_split hbase hsingle i
  have hpool := frame_pool hbase hpad hwithin (hw.lt i hi)
  rw [(List.Perm.flatten_congr hat.sched_perm).count_eq i, Frame.full_count hq hfresh]
  dsimp only
  omega

/-- The threads whose key points were used up are the ones that get one too many. -/
theorem sbpmeSched_sound_iff :
    (∀ s, SBPMESched.Reached n kps p sched fix s → MixedEndSched kps' p s.sched) ↔
      ∀ w, base.frame.Visits w → ∀ i ∈ w, 0 < kpsOf base.kpPool i := by
  constructor
  · intro hsound w hw i hi
    apply Nat.pos_of_ne_zero
    intro hidle
    obtain ⟨s, hs, hmore⟩ := exists_surplus hbase hpad hsingle hfix hwithin hinit hw hi hidle
    have hcount := (hsound s hs).count_eq i
    omega
  · intro hpool s hs
    obtain ⟨hpasses, _⟩ := SBPMESched.init_inFrame hbase hsingle hfix hinit
    obtain ⟨out, hout, hall⟩ := SBPMESched.reached_forall₂ hbase hsingle hfix hinit
    obtain ⟨hsame, hp⟩ := Sched.initHelper_sched hbase
    obtain ⟨a, ha, hat⟩ := exists_of_forall₂ hall.flip ((hout s).mp hs)
    have hvisits := (Frame.mem_pairs_iff.mp (Frame.mem_triples.mp ha).1).2.1
    obtain ⟨hlen, hne, hsingles, hadj⟩ := SBPMESched.inFrame_shape hbase hsingle hpasses ha hat
    have hroom := hpasses.room
    rw [hsame] at hroom
    refine ⟨by omega, hne, hsingles, hadj, ?_⟩
    exact SBPMESched.inFrame_count hbase hpad hsingle hwithin hpasses ha hat (hpool _ hvisits)

end Sound

theorem searchWord_zero_one {kps : List Nat} (hzero : 0 < kpsOf kps 0) :
    SearchWord 2 kps none [0, 1] := by
  apply searchWord_of_pos
  · exact fun x _ => Option.some_ne_none x
  · simp
  · simp
  · intro i hi
    exact Nat.le_trans (List.nodup_iff_count_le_one.mp (by simp) i) hi
  · simpa using hzero

/-- Two threads with a key point each, without a prefix: nothing is idle. -/
theorem sbpmeSched_sound_iff_two :
    (∀ s, SBPMESched.Reached 2 [1, 1] 2 [] false s → MixedEndSched [1, 1] 2 s.sched) ↔
      ∀ w, Frame.Visits ⟨2, [1, 1], 2, none⟩ w → ∀ i ∈ w, 0 < kpsOf [1, 1] i := by
  have hsingle : ∀ period ∈ ([] : Schedule), SingleThread period := by simp
  have hbase : Sched.initHelper 2 [1, 1] 2 [] = .ok ⟨2, [1, 1], 2, [], [1, 1]⟩ := rfl
  have hword : SearchWord 2 [1, 1] none [0, 1] := searchWord_zero_one Nat.one_pos
  obtain ⟨fuel, start, hinit⟩ := (SBPMESched.init_accepts_iff hbase hsingle rfl).mpr
    ⟨⟨List.isChain_nil, by simp, Nat.zero_lt_two⟩, fun hnone =>
      (Frame.firstPair_eq_none_iff Nat.zero_lt_two).mp hnone [0, 1] rfl hword⟩
  exact sbpmeSched_sound_iff hbase rfl hsingle rfl (by simp) hinit

/-- The second period is for a thread that has no key points. -/
theorem sbpmeSched_sound_fails :
    ∃ s, SBPMESched.Reached 2 [2, 0] 2 [] false s ∧ ¬ MixedEndSched [2, 0] 2 s.sched := by
  have hsingle : ∀ period ∈ ([] : Schedule), SingleThread period := by simp
  have hbase : Sched.initHelper 2 [2, 0] 2 [] = .ok ⟨2, [2, 0], 2, [], [2, 0]⟩ := rfl
  have hword : SearchWord 2 [2, 0] none [0, 1] := searchWord_zero_one Nat.zero_lt_two
  obtain ⟨fuel, start, hinit⟩ := (SBPMESched.init_accepts_iff hbase hsingle rfl).mpr
    ⟨⟨List.isChain_nil, by simp, Nat.zero_lt_two⟩, fun hnone =>
      (Frame.firstPair_eq_none_iff Nat.zero_lt_two).mp hnone [0, 1] rfl hword⟩
  have hvisits : Frame.Visits ⟨2, [2, 0], 2, none⟩ [0, 1] := by
    refine ⟨hword, rfl, fun u x _ _ y hy _ hout => ?_⟩
    have hy : y < 2 := hy
    simp only [List.mem_cons, List.not_mem_nil, or_false, not_or] at hout
    omega
  obtain ⟨s, hs, hmore⟩ := exists_surplus hbase rfl hsingle rfl (by simp) hinit hvisits
    (by simp : (1 : Nat) ∈ [0, 1]) rfl
  refine ⟨s, hs, fun hsound => ?_⟩
  rw [hsound.count_eq 1] at hmore
  exact Nat.lt_irrefl _ hmore

end Period.Scheduler
