import Period.Scheduler.BoundedStep

/-!
# Which schedules the bounded-period scheduler produces

The steps go up in lexicographic order, the sizes first. They pass over a schedule only where an
exchanged key point leaves a period that could have been made smaller behind it, and that takes two
key points strictly between the lowest and the highest thread.
-/

namespace Period.Scheduler

open Enumeration Rearrangement SortedParts
open BPSched
set_option autoImplicit false

/-- A schedule of `p` non-empty sorted periods in which thread `i` has `kps[i]` key points. -/
structure BoundedSched (kps : List Nat) (p : Nat) (sched : Schedule) : Prop where
  length_eq : sched.length = p
  ne_nil : ∀ period ∈ sched, period ≠ []
  sorted : ∀ period ∈ sched, period.Pairwise (· ≤ ·)
  count_eq : ∀ i, sched.flatten.count i = kpsOf kps i

/-- How many key points belong to threads strictly between the lowest and the highest one with
key points. -/
def between (kps : List Nat) : Nat :=
  (keyPoints kps).countP fun i => (∃ a ∈ keyPoints kps, a < i) ∧ ∃ d ∈ keyPoints kps, i < d

namespace BPSched

/-- The sizes and the schedule, of all key points. -/
def Key (kps : List Nat) (p : Nat) : List (List Nat) → Prop
  | [] => False
  | pattern :: sched => Sizes (keyPoints kps).length p pattern ∧ Cuts pattern (keyPoints kps) sched

def keys (kps : List Nat) (p : Nat) : List (List (List Nat)) :=
  (sizesList (keyPoints kps).length p).flatMap fun pattern =>
    (keyPoints kps).permutations.map fun l => pattern :: pattern.splitLengths l

section Keys
variable {kps : List Nat} {p : Nat}

theorem mem_keys {c : List (List Nat)} (h : Key kps p c) : c ∈ keys kps p := by
  cases c with
  | nil => exact absurd h nofun
  | cons pattern sched =>
    obtain ⟨hsizes, hcuts⟩ := h
    refine List.mem_flatMap.mpr ⟨pattern, mem_sizesList.mpr hsizes, List.mem_map.mpr ⟨sched.flatten, ?_, ?_⟩⟩
    · exact List.mem_permutations.mpr hcuts.perm
    · rw [← hcuts.lengths, splitLengths_flatten]

theorem boundedSched_iff {sched : Schedule} :
    BoundedSched kps p sched ↔ Key kps p (sched.map List.length :: sched) := by
  constructor
  · intro h
    have hperm : sched.flatten.Perm (keyPoints kps) := by
      rw [List.perm_iff_count]
      intro i
      rw [h.count_eq, count_keyPoints]
    refine ⟨⟨by rw [List.length_map, h.length_eq], fun x hx => ?_, ?_⟩, rfl, hperm, h.sorted⟩
    · obtain ⟨period, hperiod, rfl⟩ := List.mem_map.mp hx
      exact List.length_pos_iff.mpr (h.ne_nil period hperiod)
    · rw [← List.length_flatten, hperm.length_eq]
  · rintro ⟨hsizes, hcuts⟩
    refine ⟨by rw [← hsizes.length_eq, List.length_map], fun period hperiod => ?_, hcuts.sorted, fun i => ?_⟩
    · exact List.length_pos_iff.mp (hsizes.pos _ (List.mem_map.mpr ⟨period, hperiod, rfl⟩))
    · rw [hcuts.perm.count_eq, count_keyPoints]

end Keys

/-- What holds of every state: its key is one, and a first period of two key points has the lowest
or the highest thread. -/
structure At (n : Nat) (kps : List Nat) (p : Nat) (s : BPSched) : Prop where
  n_eq : s.n = n
  kps_eq : s.kps = kps
  pool : Holds n s.kpPool []
  sizes : Sizes (keyPoints kps).length p s.pattern
  cuts : Cuts s.pattern (keyPoints kps) s.sched
  first : ∀ x y, s.sched.head? = some [x, y] → (∀ z ∈ keyPoints kps, x ≤ z) ∨ ∀ z ∈ keyPoints kps, z ≤ y

def key (s : BPSched) : List (List Nat) := s.pattern :: s.sched

def Full (kps : List Nat) (p : Nat) : Prop :=
  p = 1 ∨ p = (keyPoints kps).length ∨ Thin (keyPoints kps)

section Steps
variable {n p : Nat} {kps : List Nat} {s : BPSched}

theorem At.key (h : At n kps p s) : Key kps p s.key := ⟨h.sizes, h.cuts⟩

theorem at_splitLengths {pattern kpPool : List Nat} {s : BPSched} (hn : s.n = n) (hkps : s.kps = kps)
    (hpool : Holds n kpPool []) (hsizes : Sizes (keyPoints kps).length p pattern) :
    At n kps p { s with
      sched := pattern.splitLengths (keyPoints kps)
      pattern := pattern
      kpPool := kpPool } where
  n_eq := hn
  kps_eq := hkps
  pool := hpool
  sizes := hsizes
  cuts := cuts_splitLengths (keyPoints_sorted kps) hsizes.sum_eq
  first x y hfirst := by
    cases pattern with
    | nil => cases hfirst
    | cons k pattern =>
      rw [List.splitLengths_cons] at hfirst
      have htake : (keyPoints kps).take k = [x, y] := Option.some.inj hfirst
      have hsorted := keyPoints_sorted kps
      rw [← List.take_append_drop k (keyPoints kps), htake] at hsorted ⊢
      left
      intro z hz
      rcases List.mem_cons.mp hz with rfl | hz
      · exact Nat.le_refl z
      · exact (List.pairwise_cons.mp hsorted).1 z hz

theorem ones_of_full (hfull : Full kps p) {pattern : List Nat} (hsizes : Sizes (keyPoints kps).length p pattern) :
    Thin (keyPoints kps) ∨ ∀ k ∈ pattern.dropLast, k = 1 := by
  rcases hfull with hone | hall | hthin
  · right
    have hlen := hsizes.length_eq
    rw [hone] at hlen
    obtain ⟨k, rfl⟩ := List.length_eq_one_iff.mp hlen
    exact nofun
  · right
    intro k hk
    have hle : pattern.sum ≤ pattern.length := by rw [hsizes.sum_eq, hsizes.length_eq, hall]
    exact Parts.eq_one_of_sum_eq_length hsizes.pos hle k (List.mem_of_mem_dropLast hk)
  · exact Or.inl hthin

theorem At.first_of_stepped (h : At n kps p s) {next : Option Schedule} {kpPool : List Nat}
    (hstep : Stepped n s.pattern (keyPoints kps) s.sched next kpPool) {sched : Schedule} (hsome : sched ∈ next)
    (x y : Nat) (hfirst : sched.head? = some [x, y]) :
    (∀ z ∈ keyPoints kps, x ≤ z) ∨ ∀ z ∈ keyPoints kps, z ≤ y := by
  rcases hstep.head sched hsome with hsame | ⟨pre, a, post, b, hold, he, hnew⟩
  · exact h.first x y (hsame.symm.trans hfirst)
  · obtain ⟨tail, htail⟩ := List.head?_eq_some_iff.mp hold
    rw [htail, List.tail_cons] at he
    have hperm := h.cuts.perm
    have hsorted := h.cuts.sorted (pre ++ a :: post) (by rw [htail]; exact List.mem_cons_self)
    rw [htail, List.flatten_cons] at hperm
    have hnew : pre ++ b :: post = [x, y] := Option.some.inj (hnew.symm.trans hfirst)
    cases pre with
    | nil =>
      -- the second key point is kept: none is above it
      obtain ⟨rfl, rfl⟩ := List.cons.inj hnew
      right
      intro z hz
      rcases List.mem_append.mp (hperm.symm.subset hz) with hz | hz
      · rcases List.mem_cons.mp hz with rfl | hz
        · exact (List.pairwise_cons.mp hsorted).1 y List.mem_cons_self
        · exact Nat.le_of_eq (List.mem_singleton.mp hz)
      · exact he.last y List.mem_cons_self z hz
    | cons c pre =>
      obtain ⟨rfl, hrest⟩ := List.cons.inj hnew
      obtain ⟨rfl, rfl, rfl⟩ : pre = [] ∧ b = y ∧ post = [] := by
        cases pre with
        | nil =>
          obtain ⟨rfl, rfl⟩ := List.cons.inj hrest
          exact ⟨rfl, rfl, rfl⟩
        | cons d pre => exact absurd (List.cons.inj hrest).2 (by simp)
      rcases h.first c a hold with hleast | hgreatest
      · exact Or.inl hleast
      · -- a free key point is above the highest thread
        have hb : b ∈ keyPoints kps := hperm.subset (List.mem_append_right _ he.mem)
        exact absurd he.lt (Nat.not_lt.mpr (hgreatest b hb))

/-- One step: the key goes up, to the next one if no schedule is passed over. -/
theorem At.step (h : At n kps p s) (hlen : kps.length = n) (hp : 0 < p) :
    s.nextIter = .error .stopIteration ∧ (∀ c, Key kps p c → c ≤ s.key) ∨
    ∃ s', s.nextIter = .ok s' ∧ At n kps p s' ∧ s.key < s'.key ∧
      (Full kps p → ∀ c, Key kps p c → s.key < c → s'.key ≤ c) := by
  obtain rfl := h.n_eq
  obtain rfl := h.kps_eq
  have hne : s.pattern ≠ [] := by
    intro hnil
    have hzero := h.sizes.length_eq
    rw [hnil] at hzero
    exact Nat.ne_of_lt hp hzero
  have hbelow : ∀ x ∈ keyPoints s.kps, x < s.n := by
    intro x hx
    rw [← hlen]
    exact kpsOf_pos_lt (mem_keyPoints.mp hx)
  obtain ⟨next, kpPool, hnext, hstep⟩ := nextSched_stepped hne h.cuts hbelow h.pool
  rw [nextIter]
  simp only [bind, Except.bind, hnext]
  cases next with
  | some sched =>
    right
    have hadv : Advances (Key s.kps p) (s.pattern :: s.sched) (some (s.pattern :: sched)) :=
      advances_cons ⟨⟨h.sizes, hstep.advances.1⟩, hstep.advances.2⟩
    refine ⟨{ s with sched := sched, kpPool := kpPool }, rfl, ⟨rfl, rfl, hstep.pool, h.sizes,
      hstep.advances.1, fun x y => h.first_of_stepped hstep rfl x y⟩, hadv.2, fun hfull c hc hlt => ?_⟩
    have hgap := hstep.noGap (ones_of_full hfull h.sizes)
    exact noGap_cons (fun b hb c hc => hgap b hb c hc.2) _ rfl c hc hlt
  | none =>
    have hgreatest : Advances (fun c => Key s.kps p (s.pattern :: c)) s.sched none :=
      fun c hc => hstep.advances c hc.2
    obtain ⟨hadv, hgap⟩ := nextPattern_spec h.sizes
    simp only
    cases hpattern : nextPattern s.pattern with
    | none =>
      rw [hpattern] at hadv
      exact Or.inl ⟨rfl, advances_cons_none hgreatest fun z c hc => hadv z hc.1⟩
    | some pattern =>
      rw [hpattern] at hadv hgap
      right
      obtain ⟨kpPool', hinit, hempty⟩ := initSched_eq hadv.1.sum_eq
      rw [hlen] at hempty
      refine ⟨_, by simp only [hinit]; rfl, at_splitLengths rfl rfl hempty hadv.1,
        lt_cons_iff.mpr (Or.inl hadv.2), fun _ c hc hlt => ?_⟩
      apply noGap_head hgreatest (fun z c hc hlt => hgap pattern rfl z hc.1 hlt) _ _ rfl c hc hlt
      exact fun c hc => splitLengths_le (keyPoints_sorted s.kps) hc.2

end Steps

/-! ## The constructor -/

theorem length_keyPoints (kps : List Nat) : (keyPoints kps).length = kps.sum := by
  have hkps : (List.range kps.length).map (kpsOf kps) = kps := by
    apply List.ext_getElem
    · rw [List.length_map, List.length_range]
    · intro i hi hi'
      rw [List.getElem_map, List.getElem_range, kpsOf, List.getD_eq_getElem _ _ hi']
  rw [keyPoints, List.length_flatMap]
  simp only [List.length_replicate, hkps]

theorem normSched_of_sorted {sched : Schedule} (h : ∀ period ∈ sched, period.Pairwise (· ≤ ·)) :
    normSched sched = sched := by
  rw [normSched]
  apply (List.map_congr_left fun period hperiod => ?_).trans (List.map_id sched)
  exact List.mergeSort_of_pairwise ((h period hperiod).imp fun hab => decide_eq_true hab)

theorem init_eq {n p : Nat} {kps kps' : List Nat} (hpad : padKps (max n kps.length) kps = .ok kps')
    (hp : 0 < p) {sched : Schedule} {kpPool : List Nat}
    (hinit : initSched (initPattern kps'.sum p) kps' = .ok (sched, kpPool))
    (hsorted : ∀ period ∈ sched, period.Pairwise (· ≤ ·)) :
    init n kps p [] = .ok ⟨⟨max n kps.length, kps', p, sched, kpPool⟩, initPattern kps'.sum p⟩ := by
  rw [init, initHelper_nil p hpad]
  simp only [bind, Except.bind, List.any_nil, Bool.false_eq_true, if_false, List.length_nil, ge_iff_le,
    Nat.le_zero, Nat.ne_of_gt hp, false_and, ne_eq, not_true_eq_false, List.map_nil, Nat.sub_zero, hinit,
    List.nil_append, pure, Except.pure, normSched_of_sorted hsorted]

theorem init_at {n p : Nat} {kps kps' : List Nat} (hpad : padKps (max n kps.length) kps = .ok kps')
    (hp : 0 < p) (hle : p ≤ kps'.sum) : ∃ s, init n kps p [] = .ok s ∧
      At (max n kps.length) kps' p s ∧ ∀ c, Key kps' p c → s.key ≤ c := by
  have hsizes := initPattern_sizes hp hle
  have hlen := length_keyPoints kps'
  obtain ⟨kpPool, hinit, hempty⟩ := initSched_eq (hsizes.sum_eq.trans hlen.symm)
  rw [padKps_length (Nat.le_max_right n kps.length) hpad] at hempty
  rw [← hlen] at hsizes
  have hsorted := (cuts_splitLengths (keyPoints_sorted kps') hsizes.sum_eq).sorted
  rw [hlen] at hsizes hsorted
  refine ⟨_, init_eq hpad hp hinit hsorted, ?_, fun c hc => ?_⟩
  · rw [← hlen] at hsizes
    have hat := @at_splitLengths _ p _ _ _ ⟨⟨max n kps.length, kps', p, [], kps'⟩, []⟩ rfl rfl hempty hsizes
    rwa [hlen] at hat
  · cases c with
    | nil => exact absurd hc nofun
    | cons pattern sched =>
      rw [← hlen]
      rcases lt_or_eq_of_le (initPattern_le hp hc.1) with hlt | rfl
      · exact le_of_lt (lt_cons_iff.mpr (Or.inl hlt))
      · exact cons_le_cons _ (splitLengths_le (keyPoints_sorted kps') hc.2)

theorem exists_two_of_countP {s : List Nat} {inner : Nat → Bool} (h : 1 < s.countP inner) :
    ∃ b c, b ≤ c ∧ [b, c].Subperm s ∧ inner b = true ∧ inner c = true := by
  rw [List.countP_eq_length_filter] at h
  cases hl : s.filter inner with
  | nil =>
    rw [hl] at h
    exact absurd h (Nat.not_lt_zero 1)
  | cons b l =>
    cases l with
    | nil =>
      rw [hl] at h
      exact absurd h (Nat.lt_irrefl 1)
    | cons c l =>
      have hinner : ∀ i ∈ b :: c :: l, inner i = true := by
        rw [← hl]
        exact fun i hi => (List.mem_filter.mp hi).2
      have hb : inner b = true := hinner b List.mem_cons_self
      have hc : inner c = true := hinner c (List.mem_cons_of_mem b List.mem_cons_self)
      have hsub : [b, c].Subperm s := by
        have htwo : [b, c].Sublist (b :: c :: l) := (List.nil_sublist l).cons_cons c |>.cons_cons b
        rw [← hl] at htwo
        exact (htwo.trans List.filter_sublist).subperm
      -- the two in order
      rcases Nat.le_total b c with hle | hle
      · exact ⟨b, c, hle, hsub, hb, hc⟩
      · exact ⟨c, b, hle, (List.Perm.swap b c []).subperm.trans hsub, hc, hb⟩

theorem four_of_between {s : List Nat} {a b c d : Nat} (hle : b ≤ c) (hmiddle : [b, c].Subperm s)
    (ha : a ∈ s) (hab : a < b) (hd : d ∈ s) (hcd : c < d) : [a, b, c, d].Subperm s := by
  have hthree : [b, c, d].Subperm s := by
    have hd' : d ∉ [b, c] := by
      simp only [List.mem_cons, List.not_mem_nil, or_false]
      omega
    have hswap : [b, c, d].Perm [d, b, c] := @List.perm_append_comm _ [b, c] [d]
    exact hswap.subperm.trans (List.cons_subperm_of_not_mem_of_mem hd' hd hmiddle)
  have ha' : a ∉ [b, c, d] := by
    simp only [List.mem_cons, List.not_mem_nil, or_false]
    omega
  exact List.cons_subperm_of_not_mem_of_mem ha' ha hthree

theorem middle_subperm {s : List Nat} {a b c d : Nat} (hfour : [a, b, c, d].Subperm s) : [b, c].Subperm s := by
  have hsub : [b, c].Sublist [a, b, c, d] :=
    List.Sublist.cons a (((List.nil_sublist [d]).cons_cons c).cons_cons b)
  exact hsub.subperm.trans hfour

theorem thin_iff_between (kps : List Nat) : Thin (keyPoints kps) ↔ between kps ≤ 1 := by
  rw [between]
  generalize keyPoints kps = s
  constructor
  · intro h
    by_contra hmany
    obtain ⟨b, c, hle, hmiddle, hb, hc⟩ := exists_two_of_countP (Nat.not_le.mp hmany)
    obtain ⟨⟨a, ha, hab⟩, _⟩ := of_decide_eq_true hb
    obtain ⟨_, d, hd, hcd⟩ := of_decide_eq_true hc
    exact h a b c d hab hle hcd (four_of_between hle hmiddle ha hab hd hcd)
  · intro hfew a b c d hab hbc hcd hfour
    have hinner : [b, c].countP (fun i => (∃ a ∈ s, a < i) ∧ ∃ d ∈ s, i < d) = 2 := by
      have ha : a ∈ s := hfour.subset List.mem_cons_self
      have hd : d ∈ s := hfour.subset (by simp)
      apply List.countP_eq_length.mpr
      intro i hi
      apply decide_eq_true
      rcases List.mem_cons.mp hi with rfl | hi
      · exact ⟨⟨a, ha, hab⟩, d, hd, Nat.lt_of_le_of_lt hbc hcd⟩
      · rw [List.mem_singleton.mp hi]
        exact ⟨⟨a, ha, Nat.lt_of_lt_of_le hab hbc⟩, d, hd, hcd⟩
    have hle := (middle_subperm hfour).countP_le (fun i => (∃ a ∈ s, a < i) ∧ ∃ d ∈ s, i < d)
    omega

/-- Two key points strictly between two others, and room for them in the first period: a schedule
that starts with them is never reached. -/
theorem exists_missed {kps : List Nat} {p b c : Nat} (hp : 2 ≤ p) (hlt : p < (keyPoints kps).length) (hbc : b ≤ c)
    (hsub : [b, c].Subperm (keyPoints kps)) :
    ∃ sched, BoundedSched kps p sched ∧ sched.head? = some [b, c] := by
  obtain ⟨l, hl, hsublist⟩ := List.subperm_iff.mp hsub
  obtain ⟨others, hothers⟩ := hsublist.exists_perm_append
  have hperm : ([b, c] ++ others.mergeSort (· ≤ ·)).Perm (keyPoints kps) :=
    (((List.mergeSort_perm others _).append_left [b, c]).trans hothers.symm).trans hl
  have hlen := hperm.length_eq
  rw [List.length_append] at hlen
  have hsorted : (others.mergeSort (· ≤ ·)).Pairwise (· ≤ ·) := List.pairwise_mergeSort' (· ≤ ·) others
  generalize others.mergeSort (· ≤ ·) = rest at hperm hlen hsorted
  simp only [List.length_cons, List.length_nil, Nat.zero_add] at hlen
  have hsizes := @initPattern_sizes rest.length (p - 1) (by omega) (by omega)
  have hcut := cuts_splitLengths hsorted hsizes.sum_eq
  refine ⟨[b, c] :: (initPattern rest.length (p - 1)).splitLengths rest, boundedSched_iff.mpr ⟨?_, ?_⟩, rfl⟩
  · obtain ⟨q, rfl⟩ : ∃ q, p = q + 1 := ⟨p - 1, by omega⟩
    rw [List.map_cons, hcut.lengths, sizes_cons_iff]
    have hrest : (keyPoints kps).length - 2 = rest.length := by omega
    have htwo : [b, c].length = 2 := rfl
    rw [htwo, hrest]
    exact ⟨Nat.zero_lt_two, by omega, hsizes⟩
  · have htwo : [b, c].Pairwise (· ≤ ·) := by simp [hbc]
    rw [List.map_cons, hcut.lengths]
    exact cuts_cons rfl htwo hperm hcut

/-- The iteration ends, yields no schedule twice, and passes over none where no step does. -/
theorem exhausts {n p : Nat} {kps kps' : List Nat} (hpad : padKps (max n kps.length) kps = .ok kps')
    (hp : 0 < p) (hle : p ≤ kps'.sum) : ∃ s rounds out, init n kps p [] = .ok s ∧
      (∀ fuel, rounds ≤ fuel → exhaust nextIter .stopIteration fuel s = some out) ∧
      (∀ t ∈ out, At (max n kps.length) kps' p t) ∧ (out.map (·.sched)).Nodup ∧
      (Full kps' p → ∀ sched, BoundedSched kps' p sched → sched ∈ out.map (·.sched)) := by
  have hlen := padKps_length (Nat.le_max_right n kps.length) hpad
  obtain ⟨s, hinit, hat, hleast⟩ := init_at hpad hp hle
  have hstep := fun s (h : At (max n kps.length) kps' p s) => h.step hlen hp
  have hrise : ∀ s, At (max n kps.length) kps' p s → s.nextIter = .error .stopIteration ∨
      ∃ s', s.nextIter = .ok s' ∧ At (max n kps.length) kps' p s' ∧ s.key < s'.key := by
    intro s h
    rcases hstep s h with ⟨hstop, _⟩ | ⟨s', hok, hat', hlt, _⟩
    · exact Or.inl hstop
    · exact Or.inr ⟨s', hok, hat', hlt⟩
  obtain ⟨out, hout, hall, hrising⟩ :=
    exhaust_of_rising (fun s h => mem_keys h.key) hrise hat (Nat.lt_succ_self _)
  have hkeyOf : ∀ t ∈ out, t.key = t.sched.map List.length :: t.sched := by
    intro t ht
    rw [BPSched.key, ← (hall t ht).1.cuts.lengths]
  refine ⟨s, _, out, hinit, fun fuel hfuel => exhaust_mono hfuel hout, fun t ht => (hall t ht).1, ?_, ?_⟩
  · have hkeys : (out.map (·.key)).Nodup := hrising.imp ne_of_lt
    have hmap : out.map (·.key) = (out.map (·.sched)).map fun sched => sched.map List.length :: sched := by
      rw [List.map_map]
      exact List.map_congr_left hkeyOf
    rw [hmap] at hkeys
    exact hkeys.of_map _
  · intro hfull sched hsched
    have hkey := boundedSched_iff.mp hsched
    have hnext : ∀ s, At (max n kps.length) kps' p s → s.key < sched.map List.length :: sched →
        ∃ s', s.nextIter = .ok s' ∧ At (max n kps.length) kps' p s' ∧ s'.key ≤ sched.map List.length :: sched := by
      intro s hs hlt
      rcases hstep s hs with ⟨_, hgreatest⟩ | ⟨s', hok, hat', _, hgap⟩
      · exact absurd hlt (not_lt.mpr (hgreatest _ hkey))
      · exact ⟨s', hok, hat', hgap hfull _ hkey hlt⟩
    have hmem := mem_exhaust_of_least hnext hout hat (hleast _ hkey)
    obtain ⟨t, ht, hteq⟩ := List.mem_map.mp hmem
    rw [hkeyOf t ht] at hteq
    exact List.mem_map.mpr ⟨t, ht, (List.cons.inj hteq).2⟩

/-- What the scheduler yields is always such a schedule. -/
theorem At.bounded {n p : Nat} {kps : List Nat} {s : BPSched} (h : At n kps p s) : BoundedSched kps p s.sched := by
  have hkey := h.key
  rw [BPSched.key, ← h.cuts.lengths] at hkey
  exact boundedSched_iff.mpr hkey

end BPSched

/-- Whatever the counts, the scheduler yields only such schedules, and none twice. -/
theorem bounded_sound {n p : Nat} {kps kps' : List Nat}
    (hpad : padKps (max n kps.length) kps = .ok kps') (hp : 1 ≤ p) (hle : p ≤ kps'.sum) :
    ∃ s rounds out, BPSched.init n kps p [] = .ok s ∧
      (∀ fuel, rounds ≤ fuel → exhaust BPSched.nextIter .stopIteration fuel s = some out) ∧
      (∀ sched ∈ out.map (·.sched), BoundedSched kps' p sched) ∧ (out.map (·.sched)).Nodup := by
  obtain ⟨s, rounds, out, hinit, hout, hall, hnodup, _⟩ := BPSched.exhausts hpad hp hle
  refine ⟨s, rounds, out, hinit, hout, fun sched hsched => ?_, hnodup⟩
  obtain ⟨t, ht, rfl⟩ := List.mem_map.mp hsched
  exact (hall t ht).bounded

/-- Iterated to the end, the scheduler yields every schedule of `p` non-empty sorted periods exactly
once just when `p` is one or the number of key points, or at most one key point belongs to a thread
strictly between the lowest and the highest one with key points. -/
theorem bounded_complete_iff {n p : Nat} {kps kps' : List Nat}
    (hpad : padKps (max n kps.length) kps = .ok kps') (hp : 1 ≤ p) (hle : p ≤ kps'.sum) :
    ∃ s rounds out, BPSched.init n kps p [] = .ok s ∧
      (∀ fuel, rounds ≤ fuel → exhaust BPSched.nextIter .stopIteration fuel s = some out) ∧
      ((∀ sched, BoundedSched kps' p sched → (out.map (·.sched)).count sched = 1) ↔
        p = 1 ∨ p = kps'.sum ∨ between kps' ≤ 1) := by
  obtain ⟨s, rounds, out, hinit, hout, hall, hnodup, hmem⟩ := BPSched.exhausts hpad hp hle
  refine ⟨s, rounds, out, hinit, hout, ?_⟩
  rw [← length_keyPoints, ← thin_iff_between]
  rw [← length_keyPoints] at hle
  constructor
  · intro hcomplete
    by_contra hnot
    rw [not_or, not_or] at hnot
    obtain ⟨hone, hmany, hthick⟩ := hnot
    rw [Thin] at hthick
    push Not at hthick
    obtain ⟨a, b, c, d, hab, hbc, hcd, hfour⟩ := hthick
    have htwo : 2 ≤ p := by omega
    have hlt : p < (keyPoints kps').length := by omega
    obtain ⟨sched, hsched, hhead⟩ := exists_missed htwo hlt hbc (middle_subperm hfour)
    have hcount : 0 < (out.map (·.sched)).count sched := by
      rw [hcomplete sched hsched]
      exact Nat.one_pos
    obtain ⟨t, ht, rfl⟩ := List.mem_map.mp (List.count_pos_iff.mp hcount)
    -- it would have the lowest or the highest thread in its first period
    rcases (hall t ht).first b c hhead with hlow | hhigh
    · exact absurd hab (Nat.not_lt.mpr (hlow a (hfour.subset List.mem_cons_self)))
    · exact absurd hcd (Nat.not_lt.mpr (hhigh d (hfour.subset (by simp))))
  · intro hfull sched hsched
    exact List.count_eq_one_of_mem hnodup (hmem hfull sched hsched)

/-- The third thread gets its key points from the second one. -/
theorem bounded_complete_iff_padded : ∃ s rounds out, BPSched.init 3 [1, 1] 2 [] = .ok s ∧
    (∀ fuel, rounds ≤ fuel → exhaust BPSched.nextIter .stopIteration fuel s = some out) ∧
    ((∀ sched, BoundedSched [1, 1, 1] 2 sched → (out.map (·.sched)).count sched = 1) ↔
      2 = 1 ∨ 2 = [1, 1, 1].sum ∨ between [1, 1, 1] ≤ 1) :=
  bounded_complete_iff rfl (by decide) (by decide)

/-- Four threads with one key point each: threads 1 and 2 are never alone in the first of two periods. -/
theorem bounded_misses_middle : ∃ s out, BPSched.init 4 [1, 1, 1, 1] 2 [] = .ok s ∧
    exhaust BPSched.nextIter .stopIteration 14 s = some out ∧
    BoundedSched [1, 1, 1, 1] 2 [[1, 2], [0, 3]] ∧ (out.map (·.sched)).count [[1, 2], [0, 3]] = 0 := by
  have hinit : BPSched.initSched (BPSched.initPattern [1, 1, 1, 1].sum 2) [1, 1, 1, 1] =
      .ok ([[0], [1, 2, 3]], [0, 0, 0, 0]) := rfl
  have hsorted : ∀ period ∈ [[0], [1, 2, 3]], List.Pairwise (· ≤ ·) period := by decide
  refine ⟨_, _, init_eq rfl Nat.zero_lt_two hinit hsorted, rfl, boundedSched_iff.mpr ⟨⟨rfl, ?_, rfl⟩, rfl, ?_, ?_⟩, ?_⟩
  · decide
  · decide
  · decide
  · decide

end Period.Scheduler
