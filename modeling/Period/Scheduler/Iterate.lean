import Period.Scheduler.Resume

/-!
# The iteration behind a given prefix

The state of the scheduler is the periods in front of the last given one, which never
change, a chosen set with a word, and a schedule of this word.
-/

namespace Period.Scheduler

open Enumeration Search Parts
set_option autoImplicit false

/-- The chosen threads and the word with the schedules of the chosen threads. -/
def Frame.triples (f : Frame) : List ((List Nat × List Nat) × Schedule) :=
  f.pairs.flatMap fun v => (f.scheds v).map (v, ·)

def Frame.step (f : Frame) (fuel : Nat) (a : (List Nat × List Nat) × Schedule) :
    Option ((List Nat × List Nat) × Schedule) :=
  ((nextSched f.n (f.total a.1.1) (f.word a.1.2).length a.2 (f.word a.1.2)).map (a.1, ·)).or
    ((f.nextPair fuel a.1).map fun v => (v, f.fresh v))

def Frame.other (f : Frame) (v : List Nat × List Nat) : List Nat :=
  otherKps f.n f.pool (f.ckps v.1)

/-- The schedule with everything that was not chosen in its last period. -/
def Frame.full (f : Frame) (front : Schedule) (a : (List Nat × List Nat) × Schedule) : Schedule :=
  front ++ extendLast a.2 (f.other a.1)

/-- The given periods: those in front of the last one, and the letters of all. -/
inductive Frame.Fits (f : Frame) : Schedule → List Nat → Prop
  | free (hlead : f.lead = none) : f.Fits [] []
  | led {t m : Nat} (hlead : f.lead = some (t, m)) {front : Schedule} {letters : List Nat}
      (hlen : letters.length = front.length) : f.Fits front (letters ++ [t])

/-- The scheduler is at the given chosen threads, word and schedule. -/
structure SBPMESched.InFrame (f : Frame) (front : Schedule) (given : List Nat)
    (a : (List Nat × List Nat) × Schedule) (s : SBPMESched) : Prop where
  n_eq : s.n = f.n
  p_eq : s.p = given.length + f.q
  kpPool_eq : s.kpPool = f.pool
  start_eq : s.start = given.length
  lead_eq : ∀ l, f.lead = some l → (s.last, s.lastCount) = l
  chosen_eq : s.chosen = a.1.1
  ckps_eq : s.ckps = f.ckps a.1.1
  pattern_eq : s.pattern = given ++ a.1.2
  schedChosen_eq : s.schedChosen = front ++ a.2
  schedOther_eq : s.schedOther = f.other a.1
  sched_perm : List.Forall₂ List.Perm s.sched (f.full front a)

section Triples
variable {f : Frame} (hled : f.WellLed)

theorem Frame.mem_pair_word {v : List Nat × List Nat} (hv : v ∈ f.pairs) :
    v.2.length = f.q ∧ (∀ i ∈ v.2, i < f.n ∧ i ∈ v.1) ∧ ∀ i ∈ v.1, i ∈ v.2 := by
  obtain ⟨c, w⟩ := v
  obtain ⟨hc, hw, _⟩ := Frame.mem_pairs.mp hv
  refine ⟨searchWords_length hw, fun i hi => ?_, fun i hi => ?_⟩
  · obtain ⟨hin, hi⟩ := searchWords_letters hw i hi
    refine ⟨hin, hi.elim List.mem_toFinset.mp fun hpos => ?_⟩
    by_contra hic
    rw [Frame.kpsOf_ckps, if_neg (fun h => hic h.1)] at hpos
    exact Nat.lt_irrefl 0 hpos
  · exact searchWords_must hw i (List.mem_toFinset.mpr hi)

include hled

theorem Frame.runs : ∀ v ∈ f.pairs, (f.scheds v).head? = some (f.fresh v) ∧
    WalksTo (fun s => nextSched f.n (f.total v.1) (f.word v.2).length s (f.word v.2))
      (f.scheds v) none := by
  intro v hv
  obtain ⟨hlen, hlt, _⟩ := Frame.mem_pair_word hv
  exact ⟨Frame.scheds_head hled (fun i hi => (hlt i hi).1) hlen,
    Frame.scheds_walk hled fun i hi => (hlt i hi).1⟩

theorem Frame.triples_head :
    f.triples.head? = f.pairs.head?.map fun v => (v, f.fresh v) :=
  nested_head (Frame.runs hled)

theorem Frame.step_walks (hq : 0 < f.q) {fuel : Nat} (hfuel : f.Enough fuel) :
    WalksTo (f.step fuel) f.triples none :=
  nested_walks (Frame.runs hled) (Frame.pairs_walk hq hfuel)

end Triples

section States
variable {f : Frame} {front : Schedule} {given : List Nat} (hfits : f.Fits front given)
  {fuel : Nat} {a b : (List Nat × List Nat) × Schedule} {s : SBPMESched}

theorem extendLast_append {sched : Schedule} (hne : sched ≠ []) (front : Schedule)
    (other : List Nat) : extendLast (front ++ sched) other = front ++ extendLast sched other := by
  obtain ⟨sched, period, rfl⟩ := (List.eq_nil_or_concat' sched).resolve_left hne
  rw [← List.append_assoc, extendLast_concat, extendLast_concat, List.append_assoc]

theorem SBPMESched.nextIter_inFrame (hfits : f.Fits front given)
    (h : SBPMESched.InFrame f front given a s) (hlen : a.1.2.length = f.q) :
    s.nextIter fuel =
      match nextSched f.n (f.total a.1.1) (f.word a.1.2).length a.2 (f.word a.1.2) with
      | some sched => .ok (s.finish sched)
      | none => do
        let (chosen, ckps, w) ←
          nextWord fuel f.n f.q f.pool f.last a.1.1 (f.ckps a.1.1) a.1.2
        return (s.withWord chosen ckps (given ++ w)).finish
          (f.leadPeriod ++ initSched f.n ckps f.q w) := by
  unfold SBPMESched.nextIter SBPMESched.withWord
  rw [h.n_eq, h.p_eq, h.kpPool_eq, h.start_eq, h.chosen_eq, h.ckps_eq, h.pattern_eq,
    h.schedChosen_eq]
  cases hfits with
  | free hlead =>
    cases hsched : nextSched f.n (f.ckps a.1.1) f.q a.2 a.1.2
    all_goals simp only [Frame.total, Frame.word, Frame.leadPeriod, Frame.last, hlead, List.length_nil,
      Nat.lt_irrefl, if_false, if_true, Nat.sub_zero, Nat.zero_sub, List.drop_zero, List.take_zero,
      List.nil_append, Nat.zero_add, Option.map_none, Option.toList_none, List.map_nil, hlen, hsched]
  | @led t m hlead front letters hfront =>
    have hpos : 0 < (letters ++ [t]).length := by simp
    have hne : ¬ (letters ++ [t]).length = 0 := by simp
    have hstart : (letters ++ [t]).length - 1 = letters.length := by simp
    have hq : (letters ++ [t]).length + f.q - (letters ++ [t]).length = f.q := by omega
    have hdrop : (front ++ a.2).drop letters.length = a.2 := by
      rw [hfront]
      exact List.drop_left
    have hlast : ((letters ++ [t]) ++ a.1.2)[letters.length]? = some t := by simp
    have hword : ((letters ++ [t]) ++ a.1.2).drop letters.length = t :: a.1.2 := by simp
    have hlead' := h.lead_eq _ hlead
    obtain ⟨hlt, hcount⟩ := Prod.mk.inj hlead'
    cases hsched : nextSched f.n ((f.ckps a.1.1).modify t fun x => x + m) (f.q + 1) a.2 (t :: a.1.2)
    all_goals simp only [Frame.total, Frame.word, Frame.leadPeriod, Frame.last, hlead, hstart, hq, hdrop,
      hlast, hword, hpos, hne, hlt, hcount, if_true, if_false, Option.map_some, Option.toList_some,
      List.map_cons, List.map_nil, List.singleton_append, List.length_cons, hlen, List.drop_left,
      List.take_left, hsched]

/-- The end of a step, with what it says about the change. -/
theorem SBPMESched.finish_inFrame (hfits : f.Fits front given) {v : List Nat × List Nat}
    {sched rest : Schedule} (hne : sched ≠ []) (hn : s.n = f.n) (hp : s.p = given.length + f.q)
    (hpool : s.kpPool = f.pool) (hstart : s.start = given.length)
    (hlead : ∀ l, f.lead = some l → (s.last, s.lastCount) = l) (hchosen : s.chosen = v.1)
    (hckps : s.ckps = f.ckps v.1) (hpattern : s.pattern = given ++ v.2)
    (hsched : s.schedChosen = front ++ rest) (hother : s.schedOther = f.other v) :
    SBPMESched.InFrame f front given (v, sched) (s.finish sched) ∧
      (s.finish sched).sched = normSched (f.full front (v, sched)) ∧
      (s.finish sched).schedPrefix =
        normSched (changedPrefix (f.full front (v, sched)) s.sched) := by
  have hfront : s.schedChosen.take (s.start - 1) = front := by
    rw [hsched, hstart]
    cases hfits with
    | free _ => rfl
    | @led t m _ front letters hlen =>
      rw [List.length_append, List.length_singleton, Nat.add_sub_cancel, hlen]
      exact List.take_left
  have hfull : extendLast (front ++ sched) (f.other v) = f.full front (v, sched) :=
    extendLast_append hne front (f.other v)
  have hnew : (s.finish sched).sched = normSched (f.full front (v, sched)) := by
    rw [SBPMESched.finish, hfront, hother, hfull]
  refine ⟨⟨hn, hp, hpool, hstart, hlead, hchosen, hckps, hpattern, ?_, hother, ?_⟩, hnew, ?_⟩
  · rw [SBPMESched.finish, hfront]
  · rw [hnew]
    exact normSched_perm _
  · rw [SBPMESched.finish, hfront, hother, hfull]

end States

section Step
variable {f : Frame} {front : Schedule} {given : List Nat} {fuel : Nat}
  {a b : (List Nat × List Nat) × Schedule} {s : SBPMESched}

theorem Frame.mem_triples : a ∈ f.triples ↔ a.1 ∈ f.pairs ∧
    ∃ parts ∈ readingsFrom (f.dials a.1), layout (f.word a.1.2) parts = a.2 := by
  obtain ⟨v, sched⟩ := a
  simp only [Frame.triples, Frame.scheds, List.mem_flatMap, List.mem_map, Prod.mk.injEq]
  constructor
  · rintro ⟨u, hu, _, ⟨parts, hparts, rfl⟩, rfl, rfl⟩
    exact ⟨hu, parts, hparts, rfl⟩
  · rintro ⟨hv, parts, hparts, hlayout⟩
    exact ⟨v, hv, sched, ⟨parts, hparts, hlayout⟩, rfl, rfl⟩

theorem Frame.triple_ne_nil (hq : 0 < f.q) (ha : a ∈ f.triples) : a.2 ≠ [] := by
  obtain ⟨hv, parts, _, hlayout⟩ := Frame.mem_triples.mp ha
  have hlen := congrArg List.length hlayout
  rw [layout_length, Frame.word, List.length_append, (Frame.mem_pair_word hv).1] at hlen
  intro hnil
  rw [hnil, List.length_nil] at hlen
  omega

theorem Frame.fresh_mem (hled : f.WellLed) {v : List Nat × List Nat} (hv : v ∈ f.pairs) :
    (v, f.fresh v) ∈ f.triples :=
  List.mem_flatMap.mpr ⟨v, hv, List.mem_map.mpr
    ⟨f.fresh v, List.mem_of_head? (Frame.runs hled v hv).1, rfl⟩⟩

variable (hled : f.WellLed) (hq : 0 < f.q) (hfuel : f.Enough fuel) (hfits : f.Fits front given)
  (ha : a ∈ f.triples) (h : SBPMESched.InFrame f front given a s)
include hq hfuel ha

theorem Frame.triple_nextWord :
    nextWord fuel f.n f.q f.pool f.last a.1.1 (f.ckps a.1.1) a.1.2 =
      found f.n f.pool (f.nextPair fuel a.1) := by
  obtain ⟨hc, hw, _⟩ := Frame.mem_pairs.mp (Frame.mem_triples.mp ha).1
  exact Frame.nextWord_found hq hfuel hc hw

include hled hfits h

/-- A step of the enumeration is a step of the iteration. -/
theorem SBPMESched.nextIter_inFrame_some (hstep : f.step fuel a = some b) :
    ∃ s', s.nextIter fuel = .ok s' ∧ SBPMESched.InFrame f front given b s' ∧
      s'.sched = normSched (f.full front b) ∧
      s'.schedPrefix = normSched (changedPrefix (f.full front b) s.sched) := by
  have hb := walksTo_mem (Frame.step_walks hled hq hfuel) ha hstep
  have hne := Frame.triple_ne_nil hq hb
  have hword := Frame.triple_nextWord hq hfuel ha
  have hlen := (Frame.mem_pair_word (Frame.mem_triples.mp ha).1).1
  obtain ⟨v, sched⟩ := a
  rw [SBPMESched.nextIter_inFrame hfits h hlen, hword]
  rw [Frame.step] at hstep
  cases hsched : nextSched f.n (f.total v.1) (f.word v.2).length sched (f.word v.2) with
  | some sched' =>
    rw [hsched] at hstep
    obtain rfl : (v, sched') = b := by simpa using hstep
    exact ⟨_, rfl, SBPMESched.finish_inFrame hfits hne h.n_eq h.p_eq h.kpPool_eq h.start_eq
      h.lead_eq h.chosen_eq h.ckps_eq h.pattern_eq h.schedChosen_eq h.schedOther_eq⟩
  | none =>
    rw [hsched] at hstep
    cases hv : f.nextPair fuel v with
    | none => simp [hv] at hstep
    | some v' =>
      obtain rfl : (v', f.fresh v') = b := by simpa [hv] using hstep
      refine ⟨_, rfl, SBPMESched.finish_inFrame hfits hne h.n_eq h.p_eq h.kpPool_eq h.start_eq
        h.lead_eq rfl rfl rfl h.schedChosen_eq ?_⟩
      rw [SBPMESched.withWord, h.n_eq, h.kpPool_eq]
      rfl

omit hled in
theorem SBPMESched.nextIter_inFrame_none (hstep : f.step fuel a = none) :
    s.nextIter fuel = .error .stopIteration := by
  have hword := Frame.triple_nextWord hq hfuel ha
  have hlen := (Frame.mem_pair_word (Frame.mem_triples.mp ha).1).1
  obtain ⟨v, sched⟩ := a
  rw [Frame.step, Option.or_eq_none_iff, Option.map_eq_none_iff, Option.map_eq_none_iff] at hstep
  rw [SBPMESched.nextIter_inFrame hfits h hlen, hword, hstep.1, hstep.2]
  rfl

end Step

end Period.Scheduler
