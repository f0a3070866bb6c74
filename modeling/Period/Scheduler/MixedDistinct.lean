import Period.Scheduler.Distinct
import Period.Scheduler.Reached

/-!
# The mixed-end scheduler meets no schedule twice

The last period hosts the last letter of the word and everything that was not chosen. The
last letter can be told from the others: it is a letter of an earlier period, or, as the word
was not skipped, the least thread of the last period.
-/

namespace Period.Scheduler

open Enumeration Search Parts
set_option autoImplicit false

theorem mergeSort_eq_iff {l l' : List Nat} :
    l.mergeSort (· ≤ ·) = l'.mergeSort (· ≤ ·) ↔ l.Perm l' := by
  constructor
  · intro h
    exact (List.mergeSort_perm l _).symm.trans (h ▸ List.mergeSort_perm l' _)
  · intro h
    refine List.Perm.eq_of_pairwise (fun a b _ _ (hab : a ≤ b) (hba : b ≤ a) => by omega)
      (List.pairwise_mergeSort' _ l) (List.pairwise_mergeSort' _ l') ?_
    exact (List.mergeSort_perm l _).trans (h.trans (List.mergeSort_perm l' _).symm)

theorem normSched_append (sched sched' : Schedule) :
    normSched (sched ++ sched') = normSched sched ++ normSched sched' := List.map_append

theorem normSched_eq_of_perm {sched sched' : Schedule} (h : List.Forall₂ List.Perm sched sched') :
    normSched sched = normSched sched' := by
  induction h with
  | nil => rfl
  | @cons period period' sched sched' hperm _ ih =>
    have hsort := mergeSort_eq_iff.mpr hperm
    exact congrArg₂ List.cons hsort ih

theorem normSched_single {sched : Schedule} (hsingle : ∀ period ∈ sched, SingleThread period) :
    normSched sched = sched := by
  have hsame : ∀ period ∈ sched, period.mergeSort (· ≤ ·) = id period := by
    intro period hmem
    obtain ⟨t, m, rfl⟩ := hsingle period hmem
    apply List.mergeSort_of_pairwise
    simp [List.pairwise_replicate]
  rw [normSched, List.map_congr_left hsame, List.map_id]

section Pairs
variable {f : Frame}

theorem Frame.openPairs_nodup : f.pairs.Nodup := by
  apply nodup_flatMap_of_key Prod.fst (chosenLists_nodup f.n f.q)
  · intro c _
    exact ((searchWords_nodup _ _ _ _ _).map (Prod.mk_right_injective c)).filter _
  · intro c _ v hv
    obtain ⟨w, _, rfl⟩ := List.mem_map.mp (List.mem_filter.mp hv).1
    rfl

theorem Frame.scheds_nodup (hled : f.WellLed) {v : List Nat × List Nat} (hw : ∀ x ∈ v.2, x < f.n) :
    (f.scheds v).Nodup := by
  have hreadings : (readingsFrom (f.dials v)).Nodup := by
    apply readingsFrom_nodup
    · intro d hd
      obtain ⟨i, _, rfl⟩ := List.mem_map.mp hd
      rw [Frame.dial_all hled]
      exact spreads_nodup _ _
    · intro d hd
      obtain ⟨i, _, rfl⟩ := List.mem_map.mp hd
      rw [Frame.dial_resumed]
      split
      · exact spreadsFrom_nodup
      · exact spreads_nodup _ _
  apply hreadings.map_on
  intro parts hparts parts' hparts' heq
  exact layout_inj (Frame.word_lt hled hw) (Frame.reading_parted hled hparts)
    (Frame.reading_parted hled hparts') (Frame.reading_pos hled hparts)
    (Frame.reading_pos hled hparts') heq

theorem Frame.triples_nodup (hled : f.WellLed) : f.triples.Nodup := by
  apply nodup_flatMap_of_key Prod.fst Frame.openPairs_nodup
  · intro v hv
    have hlt := (Frame.mem_pair_word hv).2.1
    exact (Frame.scheds_nodup hled fun x hx => (hlt x hx).1).map (Prod.mk_right_injective v)
  · intro v _ a ha
    obtain ⟨sched, _, rfl⟩ := List.mem_map.mp ha
    rfl

end Pairs

section Shown
variable {f : Frame} {a b : (List Nat × List Nat) × Schedule} (hled : f.WellLed) (hq : 0 < f.q)

theorem Frame.mem_other {v : List Nat × List Nat} {i : Nat} :
    i ∈ f.other v ↔ i < f.n ∧ 0 < kpsOf f.pool i ∧ i ∉ v.1 := by
  rw [Frame.other, ← List.count_pos_iff, otherKps_count, Frame.kpsOf_ckps]
  by_cases hin : i < f.n
  · by_cases hiv : i ∈ v.1
    · by_cases hzero : kpsOf f.pool i = 0 <;> simp [hin, hiv, hzero]
    · simp [hin, hiv]
  · simp [hin]

include hled hq

/-- The single-thread periods, and the last period with the last letter. -/
theorem Frame.triple_split (ha : a ∈ f.triples) : ∃ u x singles m, a.1.2 = u ++ [x] ∧
    a.2 = singles ++ [List.replicate (m + 1) x] ∧ wordOf singles = f.word u ∧
    ∀ period ∈ singles, SingleThread period := by
  obtain ⟨hv, parts, hparts, hlayout⟩ := Frame.mem_triples.mp ha
  obtain ⟨hlen, hletters, _⟩ := Frame.mem_pair_word hv
  have hw := Frame.word_lt hled fun x hx => (hletters x hx).1
  have hparted := Frame.reading_parted hled hparts
  have hpos := Frame.reading_pos hled hparts
  have hword := wordOf_layout hparted hpos hw
  have hsingle := layout_single hparted hpos hw
  rw [hlayout] at hword hsingle
  obtain ⟨u, x, hu⟩ := (List.eq_nil_or_concat' a.1.2).resolve_left (by
    intro hnil
    rw [hnil, List.length_nil] at hlen
    omega)
  obtain ⟨singles, period, hperiods⟩ :=
    (List.eq_nil_or_concat' a.2).resolve_left (Frame.triple_ne_nil hq ha)
  rw [hperiods] at hword hsingle
  obtain ⟨t, m, hperiod⟩ := hsingle period (by simp)
  rw [hu, Frame.word, ← List.append_assoc, wordOf, List.map_append, hperiod] at hword
  obtain ⟨hfront, hlast⟩ := List.append_inj' hword rfl
  obtain rfl : t = x := (List.cons.inj hlast).1
  exact ⟨u, t, singles, m, hu, hperiod ▸ hperiods, hfront,
    fun period hmem => hsingle period (List.mem_append_left _ hmem)⟩

omit hled hq in
/-- A letter of its own does not exceed the threads that were not chosen. -/
theorem Frame.last_le_other {c u : List Nat} {x y : Nat} (hv : (c, u ++ [x]) ∈ f.pairs)
    (hx : x ∉ u) (hy : y ∈ f.other (c, u ++ [x])) : x ≤ y := by
  obtain ⟨_, _, hskip⟩ := Frame.mem_pairs.mp hv
  obtain ⟨hyn, hpos, hyc⟩ := Frame.mem_other.mp hy
  have hle : minDumped f.n f.pool c ≤ y := minDumped_le hyn hpos hyc
  by_contra hlt
  refine hskip ⟨x, List.getLast?_concat, ?_, ?_⟩
  · rwa [List.dropLast_concat]
  · show minDumped f.n f.pool c < x
    omega

omit hled hq in
theorem Frame.last_letter {c c' u : List Nat} {x x' m m' : Nat} (hv : (c, u ++ [x]) ∈ f.pairs)
    (hv' : (c', u ++ [x']) ∈ f.pairs)
    (hperm : (List.replicate (m + 1) x ++ f.other (c, u ++ [x])).Perm
      (List.replicate (m' + 1) x' ++ f.other (c', u ++ [x']))) : x = x' := by
  by_contra hne
  have hother : ∀ {c c' : List Nat} {x x' m m' : Nat}, (c, u ++ [x]) ∈ f.pairs →
      (List.replicate (m + 1) x ++ f.other (c, u ++ [x])).Perm
        (List.replicate (m' + 1) x' ++ f.other (c', u ++ [x'])) → x' ≠ x →
      x' ∈ f.other (c, u ++ [x]) ∧ x' ∉ u := by
    intro c c' x x' m m' hv hperm hne
    have hmem : x' ∈ List.replicate (m + 1) x ++ f.other (c, u ++ [x]) :=
      hperm.mem_iff.mpr (by simp)
    have hmem : x' ∈ f.other (c, u ++ [x]) :=
      (List.mem_append.mp hmem).resolve_left fun h => hne (List.mem_replicate.mp h).2
    refine ⟨hmem, fun hu => (Frame.mem_other.mp hmem).2.2 ?_⟩
    exact ((Frame.mem_pair_word hv).2.1 x' (List.mem_append_left _ hu)).2
  obtain ⟨hx', hxu'⟩ := hother hv hperm (Ne.symm hne)
  obtain ⟨hx, hxu⟩ := hother hv' hperm.symm hne
  have hle := Frame.last_le_other hv hxu hx'
  have hle' := Frame.last_le_other hv' hxu' hx
  omega

theorem Frame.full_inj (front : Schedule) (ha : a ∈ f.triples) (hb : b ∈ f.triples)
    (h : normSched (f.full front a) = normSched (f.full front b)) : a = b := by
  obtain ⟨u, x, singles, m, hu, hperiods, hword, hsingle⟩ := Frame.triple_split hled hq ha
  obtain ⟨u', x', singles', m', hu', hperiods', hword', hsingle'⟩ := Frame.triple_split hled hq hb
  obtain ⟨⟨c, w⟩, sched⟩ := a
  obtain ⟨⟨c', w'⟩, sched'⟩ := b
  obtain rfl : w = u ++ [x] := hu
  obtain rfl : w' = u' ++ [x'] := hu'
  obtain rfl : sched = singles ++ [List.replicate (m + 1) x] := hperiods
  obtain rfl : sched' = singles' ++ [List.replicate (m' + 1) x'] := hperiods'
  have hv := (Frame.mem_triples.mp ha).1
  have hv' := (Frame.mem_triples.mp hb).1
  simp only [Frame.full, extendLast_concat, normSched_append, normSched_single hsingle,
    normSched_single hsingle'] at h
  obtain ⟨hsingles, hlast⟩ := List.append_inj' (List.append_cancel_left h) rfl
  subst hsingles
  obtain rfl : u = u' := List.append_cancel_left (hword.symm.trans hword')
  have hperm := mergeSort_eq_iff.mp (List.cons.inj hlast).1
  obtain rfl : x = x' := Frame.last_letter hv hv' hperm
  obtain rfl : c = c' := by
    apply chosenLists_ext (Frame.mem_pairs.mp hv).1 (Frame.mem_pairs.mp hv').1
    intro i
    obtain ⟨_, hletters, hmust⟩ := Frame.mem_pair_word hv
    obtain ⟨_, hletters', hmust'⟩ := Frame.mem_pair_word hv'
    exact ⟨fun hi => (hletters' i (hmust i hi)).2, fun hi => (hletters i (hmust' i hi)).2⟩
  have hlen := ((List.perm_append_right_iff _).mp hperm).length_eq
  simp only [List.length_replicate, Nat.add_right_cancel_iff] at hlen
  rw [hlen]

end Shown

section Distinct
variable {n p : Nat} {kps : List Nat} {sched : Schedule} {fix : Bool}
  (hsingle : ∀ period ∈ sched, SingleThread period) (hfix : fix = !sched.isEmpty)
include hsingle hfix

/-- Unless the constructor raises, the iteration ends and has met no schedule twice. -/
theorem sbpmeSched_distinct : ∃ N, ∀ fuel, N ≤ fuel →
    (∃ e, e ≠ Halt.outOfFuel ∧ SBPMESched.init fuel n kps p sched fix = .error e) ∨
    ∃ start k out, SBPMESched.init fuel n kps p sched fix = .ok start ∧
      exhaust (SBPMESched.nextIter fuel) .stopIteration k start = some out ∧
      (out.map fun s => normSched s.sched).Nodup := by
  cases hbase : Sched.initHelper n kps p sched with
  | error e =>
    refine ⟨0, fun fuel _ => Or.inl ⟨e, padKps_error (Sched.initHelper_error hbase), ?_⟩⟩
    unfold SBPMESched.init
    rw [hbase]
    rfl
  | ok base =>
    obtain ⟨N, hN⟩ := base.frame.exists_enough
    refine ⟨N, fun fuel hle => ?_⟩
    have hfuel := hN fuel hle
    cases hinit : SBPMESched.init fuel n kps p sched fix with
    | error e =>
      refine Or.inl ⟨e, ?_, rfl⟩
      rintro rfl
      exact SBPMESched.init_ends hbase hsingle hfix hfuel hinit
    | ok start =>
      right
      obtain ⟨_, out, hout, hall⟩ := SBPMESched.exhausts_frame hbase hsingle hfix hinit
        (Nat.le_refl fuel) hfuel (Nat.le_refl _)
      obtain ⟨hpasses, _⟩ := SBPMESched.init_inFrame hbase hsingle hfix hinit
      have hq : 0 < base.frame.q := Nat.sub_pos_of_lt hpasses.room
      have hled := Sched.frame_wellLed hbase hsingle
      refine ⟨start, _, out, rfl, hout, ?_⟩
      have hmap : out.map (fun s => normSched s.sched) =
          base.frame.triples.map fun a => normSched (base.frame.full sched.dropLast a) := by
        rw [← List.forall₂_eq_eq_eq, List.forall₂_map_left_iff, List.forall₂_map_right_iff]
        exact hall.flip.imp fun _ _ hat => normSched_eq_of_perm hat.sched_perm
      rw [hmap]
      apply (Frame.triples_nodup hled).map_on
      intro a ha b hb heq
      exact Frame.full_inj hled hq sched.dropLast ha hb heq

end Distinct

/-- Two threads with two key points each, behind one key point of the first. -/
theorem sbpmeSched_distinct_given : ∃ N, ∀ fuel, N ≤ fuel →
    (∃ e, e ≠ Halt.outOfFuel ∧ SBPMESched.init fuel 2 [2, 2] 3 [[0]] true = .error e) ∨
    ∃ start k out, SBPMESched.init fuel 2 [2, 2] 3 [[0]] true = .ok start ∧
      exhaust (SBPMESched.nextIter fuel) .stopIteration k start = some out ∧
      (out.map fun s => normSched s.sched).Nodup := by
  apply sbpmeSched_distinct
  · intro period hmem
    exact ⟨0, 0, List.mem_singleton.mp hmem⟩
  · rfl

end Period.Scheduler
