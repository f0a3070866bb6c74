import Mathlib.Data.List.Chain
import Period.Scheduler.MixedEnd
import Period.Scheduler.YieldPattern

/-!
# Bug depth

A bug of depth `d` shows when `d + 1` key points of alternating threads are passed in
a given order. `SBPMESched` with `d + 1` periods covers such a chain exactly when, for
each thread, all but two neighbouring key points of the chain are as early or as late
as they can be; only the last key point of the chain has some more freedom.
-/

namespace Period.Scheduler

open Enumeration Search Parts
set_option autoImplicit false

/-- A thread and the number of one of its key points. -/
abbrev KeyPoint := Nat × Nat

/-- The chain is passed one key point a period. -/
def Covers (sched : Schedule) (chain : List KeyPoint) : Prop :=
  ∀ j t k, chain[j]? = some (t, k) → LiesIn sched t k j

def threads (chain : List KeyPoint) : List Nat := chain.map Prod.fst

def keysOf (t : Nat) (chain : List KeyPoint) : List Nat :=
  (chain.filter fun x => x.1 = t).map Prod.snd

structure LegalChain (kps : List Nat) (chain : List KeyPoint) : Prop where
  lt : ∀ x ∈ chain, x.2 < kpsOf kps x.1
  adjacent : (threads chain).IsChain (· ≠ ·)
  increasing : chain.Pairwise fun a b => a.1 = b.1 → a.2 < b.2

theorem keysOf_length (t : Nat) (chain : List KeyPoint) :
    (keysOf t chain).length = (threads chain).count t := by
  rw [keysOf, List.length_map, ← List.countP_eq_length_filter, threads, List.count, List.countP_map]
  apply List.countP_congr
  intro x _
  simp

/-- The key points of a thread are numbered like its letters. -/
theorem keysOf_getElem? {chain : List KeyPoint} {j t k : Nat} (h : chain[j]? = some (t, k)) :
    (keysOf t chain)[((threads chain).take j).count t]? = some k := by
  have hcount : ((threads chain).take j).count t = (chain.take j).countP fun x => x.1 = t := by
    rw [threads, ← List.map_take, ← threads, ← keysOf_length, keysOf, List.length_map,
      List.countP_eq_length_filter]
  rw [hcount, keysOf, List.getElem?_map, getElem?_filter_countP h (by simp)]
  rfl

theorem threads_getElem? {chain : List KeyPoint} {j t : Nat} (h : (threads chain)[j]? = some t) :
    ∃ k, chain[j]? = some (t, k) := by
  rw [threads, List.getElem?_map] at h
  obtain ⟨x, hx, rfl⟩ := Option.map_eq_some_iff.mp h
  exact ⟨x.2, hx⟩

theorem keysOf_pairwise {kps : List Nat} {chain : List KeyPoint} (h : LegalChain kps chain)
    (t : Nat) : (keysOf t chain).Pairwise (· < ·) := by
  rw [keysOf, List.pairwise_map]
  refine (h.increasing.filter _).imp_of_mem fun ha hb hlt => hlt ?_
  have ha := of_decide_eq_true (List.mem_filter.mp ha).2
  have hb := of_decide_eq_true (List.mem_filter.mp hb).2
  rw [ha, hb]

theorem keysOf_lt {kps : List Nat} {chain : List KeyPoint} (h : LegalChain kps chain) {t : Nat} :
    ∀ k ∈ keysOf t chain, k < kpsOf kps t := by
  intro k hk
  obtain ⟨x, hx, rfl⟩ := List.mem_map.mp hk
  obtain ⟨hx, ht⟩ := List.mem_filter.mp hx
  rw [← of_decide_eq_true ht]
  exact h.lt x hx

/-- A layout of the chain's own word covers it when every thread hits its key points. -/
theorem covers_layout_iff {n : Nat} {chain : List KeyPoint} {parts : List (List Nat)}
    (hparts : Parted n (threads chain) parts) (hlt : ∀ t ∈ threads chain, t < n) :
    Covers (layout (threads chain) parts) chain ↔
      ∀ t, t < n → Hits 0 (parts.getD t []) (keysOf t chain) := by
  have hlies : ∀ j t k, chain[j]? = some (t, k) →
      (LiesIn (layout (threads chain) parts) t k j ↔
        ((parts.getD t []).take (((threads chain).take j).count t)).sum ≤ k ∧
          k < ((parts.getD t []).take (((threads chain).take j).count t + 1)).sum) := by
    intro j t k hj
    have hletter : (threads chain)[j]? = some t := by rw [threads, List.getElem?_map, hj]; rfl
    rw [LiesIn, layout_count_take, layout_count_take, count_take_succ hletter, if_pos rfl]
  constructor
  · intro h t ht
    refine hits_iff.mpr ⟨by rw [hparts.part_length t ht, keysOf_length], fun r k hr => ?_⟩
    have hcount : r < (threads chain).count t := by
      rw [← keysOf_length]
      exact (List.getElem?_eq_some_iff.mp hr).1
    obtain ⟨j, hj, rfl⟩ := exists_occurrence hcount
    obtain ⟨k', hk'⟩ := threads_getElem? hj
    have hkey := keysOf_getElem? hk'
    rw [hr] at hkey
    cases hkey
    rw [Nat.zero_add, Nat.zero_add]
    exact (hlies j t k hk').mp (h j t k hk')
  · intro h j t k hj
    have ht : t < n := hlt t (List.mem_map.mpr ⟨(t, k), List.mem_of_getElem? hj, rfl⟩)
    have hhit := (hits_iff.mp (h t ht)).2 _ k (keysOf_getElem? hj)
    rw [Nat.zero_add, Nat.zero_add] at hhit
    exact (hlies j t k hj).mpr hhit

theorem count_threads_le {kps : List Nat} {chain : List KeyPoint} (h : LegalChain kps chain)
    (t : Nat) : (threads chain).count t ≤ kpsOf kps t := by
  rw [← keysOf_length]
  cases hkeys : keysOf t chain with
  | nil => exact Nat.zero_le _
  | cons k ks =>
    have hpair := keysOf_pairwise h t
    have hlt := @keysOf_lt _ _ h t
    rw [hkeys] at hpair hlt
    have := head_add_length_lt hpair hlt
    rw [List.length_cons]
    omega

/-- One thread: some reachable parts hit its key points. -/
theorem exists_part_hits_iff {kps ckps : List Nat} {chain : List KeyPoint}
    (hchain : LegalChain kps chain) (hckps : ∀ t ∈ threads chain, kpsOf ckps t = kpsOf kps t)
    (t : Nat) :
    (∃ l ∈ spreads ((threads chain).count t) (kpsOf ckps t), Hits 0 l (keysOf t chain)) ↔
      Hugs 0 (kpsOf kps t) (keysOf t chain) := by
  have hlen := keysOf_length t chain
  have hle := count_threads_le hchain t
  cases hm : (threads chain).count t with
  | zero =>
    rw [hm, List.length_eq_zero_iff] at hlen
    rw [hlen]
    refine ⟨fun _ => hugs_of_length_le (Nat.zero_le 2), fun _ => ⟨[], List.mem_singleton.mpr rfl, ?_⟩⟩
    trivial
  | succ m =>
    have ht : t ∈ threads chain := List.count_pos_iff.mp (by omega)
    have hhugs := @exists_spread_hits m 0 (kpsOf kps t) (keysOf t chain) (hlen.trans hm)
      (keysOf_pairwise hchain t) (fun k _ => Nat.zero_le k)
      (fun k hk => by rw [Nat.zero_add]; exact keysOf_lt hchain k hk)
    rw [Nat.zero_add] at hhugs
    rw [hckps t ht, ← hhugs]
    constructor
    · intro h
      obtain ⟨l, hl, hhits⟩ := h
      exact ⟨l, (mem_spreads (Nat.succ_pos m) (by omega)).mp hl, hhits⟩
    · intro h
      obtain ⟨l, hl, hhits⟩ := h
      exact ⟨l, (mem_spreads (Nat.succ_pos m) (by omega)).mpr hl, hhits⟩

theorem exists_layout_covers_iff {n : Nat} {kps ckps : List Nat} {chain : List KeyPoint}
    (hchain : LegalChain kps chain) (hckps : ∀ t ∈ threads chain, kpsOf ckps t = kpsOf kps t)
    (hlt : ∀ t ∈ threads chain, t < n) :
    (∃ sched ∈ layouts n ckps (threads chain), Covers sched chain) ↔
      ∀ t, Hugs 0 (kpsOf kps t) (keysOf t chain) := by
  have hle : ∀ t, (threads chain).count t ≤ kpsOf ckps t := by
    intro t
    rcases Nat.eq_zero_or_pos ((threads chain).count t) with h0 | hpos
    · omega
    · rw [hckps t (List.count_pos_iff.mp hpos)]
      exact count_threads_le hchain t
  constructor
  · intro h t
    obtain ⟨sched, hmem, hcovers⟩ := h
    obtain ⟨parts, hparts, rfl⟩ := List.mem_map.mp hmem
    have hhits := (covers_layout_iff (parted_of_mem hle hparts) hlt).mp hcovers
    rcases Nat.lt_or_ge t n with ht | ht
    · exact (exists_part_hits_iff hchain hckps t).mp
        ⟨_, (mem_part_readings.mp hparts).2 t ht, hhits t ht⟩
    · apply hugs_of_length_le
      rw [keysOf_length, List.count_eq_zero.mpr fun hmem => Nat.not_lt.mpr ht (hlt t hmem)]
      exact Nat.zero_le 2
  · intro h
    choose part hpart hhits using fun t => (exists_part_hits_iff hchain hckps t).mpr (h t)
    have hget : ∀ t, t < n → ((List.range n).map part).getD t [] = part t := fun t ht => by simp [ht]
    have hmem : (List.range n).map part ∈ readings (partLists n ckps (threads chain)) :=
      mem_part_readings.mpr ⟨by simp, fun t ht => by rw [hget t ht]; exact hpart t⟩
    refine ⟨_, List.mem_map.mpr ⟨_, hmem, rfl⟩, ?_⟩
    refine (covers_layout_iff (parted_of_mem hle hmem) hlt).mpr fun t ht => ?_
    rw [hget t ht]
    exact hhits t

structure MixedPair (n : Nat) (kps c w : List Nat) : Prop where
  choosable : Choosable n kps c
  legal : LegalWord n (calCkps n kps c) c.toFinset none w
  pos : 0 < w.length

namespace MixedPair
variable {n : Nat} {kps c w : List Nat} {sched : Schedule}

theorem mem_chosen (h : MixedPair n kps c w) {t : Nat} (ht : t ∈ w) : t ∈ c := by
  have hcount := h.legal.count_le t
  have hpos := List.count_pos_iff.mpr ht
  rw [kpsOf_calCkps] at hcount
  split at hcount
  · rename_i hmem
    exact hmem.1
  · omega

theorem ckps_eq (h : MixedPair n kps c w) {t : Nat} (ht : t ∈ c) :
    kpsOf (calCkps n kps c) t = kpsOf kps t := by
  rw [kpsOf_calCkps, if_pos ⟨ht, (h.choosable t ht).1⟩]

theorem exists_parts (h : MixedPair n kps c w)
    (hsched : sched ∈ layouts n (calCkps n kps c) w) :
    ∃ parts, sched = layout w parts ∧ Parted n w parts ∧
      ∀ t, t < n → parts.getD t [] ∈ spreads (w.count t) (kpsOf (calCkps n kps c) t) := by
  obtain ⟨parts, hparts, rfl⟩ := List.mem_map.mp hsched
  exact ⟨parts, rfl, parted_of_mem h.legal.count_le hparts, (mem_part_readings.mp hparts).2⟩

theorem sched_length (hsched : sched ∈ layouts n (calCkps n kps c) w) :
    sched.length = w.length := by
  obtain ⟨parts, _, rfl⟩ := List.mem_map.mp hsched
  exact layout_length w parts

theorem sched_count (h : MixedPair n kps c w) (hsched : sched ∈ layouts n (calCkps n kps c) w)
    {t : Nat} (ht : t ∈ c) {j : Nat} (hj : w.length ≤ j) :
    (sched.take j).flatten.count t = kpsOf kps t := by
  obtain ⟨parts, rfl, hparted, hspread⟩ := h.exists_parts hsched
  have htn := (h.choosable t ht).1
  have hcount : 0 < w.count t :=
    List.count_pos_iff.mpr (h.legal.must t (List.mem_toFinset.mpr ht))
  have hmem := (mem_spreads hcount (h.legal.count_le t)).mp (hspread t htn)
  rw [layout_count_take, List.take_of_length_le hj, ← hparted.part_length t htn, List.take_length,
    hmem.sum_eq, h.ckps_eq ht]

/-- Only the thread of a period passes key points in it. -/
theorem letter_of_liesIn (hsched : sched ∈ layouts n (calCkps n kps c) w) {t k j : Nat}
    (hlies : LiesIn sched t k j) : w[j]? = some t := by
  obtain ⟨parts, _, rfl⟩ := List.mem_map.mp hsched
  obtain ⟨hlo, hhi⟩ := hlies
  rw [layout_count_take] at hlo hhi
  by_contra hne
  have hsame : (w.take (j + 1)).count t = (w.take j).count t := by
    cases hj : w[j]? with
    | none =>
      have hlen := List.getElem?_eq_none_iff.mp hj
      rw [List.take_of_length_le hlen, List.take_of_length_le (Nat.le_succ_of_le hlen)]
    | some x => rw [count_take_succ hj, if_neg (fun hx => hne (hj.trans (congrArg some hx)))]; rfl
  rw [hsame] at hhi
  omega

theorem mixed_count (h : MixedPair n kps c w) (hsched : sched ∈ layouts n (calCkps n kps c) w)
    (j t : Nat) :
    ((mixedSched n kps ((c, w), sched)).take j).flatten.count t =
      (sched.take j).flatten.count t +
        if w.length ≤ j ∧ t < n ∧ t ∉ c then kpsOf kps t else 0 := by
  have hlen := sched_length hsched
  rw [mixedSched, extendLast_count_take (by rw [hlen]; exact h.pos), hlen, otherKps_count]
  by_cases hj : w.length ≤ j
  · by_cases ht : t ∈ c
    · have := (h.choosable t ht).2
      have hne : kpsOf (calCkps n kps c) t ≠ 0 := by
        rw [h.ckps_eq ht]
        omega
      rw [if_pos hj, if_neg (fun h => hne h.2), if_neg (fun h => h.2.2 ht)]
    · simp [hj, ht]
  · simp [hj]

theorem sched_count_not_chosen (h : MixedPair n kps c w)
    (hsched : sched ∈ layouts n (calCkps n kps c) w) {t : Nat} (ht : t ∉ c) (j : Nat) :
    (sched.take j).flatten.count t = 0 := by
  obtain ⟨parts, _, rfl⟩ := List.mem_map.mp hsched
  have hzero : (w.take j).count t = 0 :=
    List.count_eq_zero.mpr fun hmem => ht (h.mem_chosen (List.mem_of_mem_take hmem))
  rw [layout_count_take, hzero]
  rfl

/-- The chosen threads run as in the schedule of the word. -/
theorem liesIn_chosen (h : MixedPair n kps c w) (hsched : sched ∈ layouts n (calCkps n kps c) w)
    {t : Nat} (ht : t ∈ c) (k j : Nat) :
    LiesIn (mixedSched n kps ((c, w), sched)) t k j ↔ LiesIn sched t k j := by
  rw [LiesIn, LiesIn, h.mixed_count hsched, h.mixed_count hsched]
  simp [ht]

theorem liesIn_other (h : MixedPair n kps c w) (hsched : sched ∈ layouts n (calCkps n kps c) w)
    {t : Nat} (ht : t ∉ c) {k j : Nat} (hj : j < w.length) :
    LiesIn (mixedSched n kps ((c, w), sched)) t k j ↔ j + 1 = w.length ∧ t < n ∧ k < kpsOf kps t := by
  rw [LiesIn, h.mixed_count hsched, h.mixed_count hsched, h.sched_count_not_chosen hsched ht,
    h.sched_count_not_chosen hsched ht, if_neg (by omega)]
  by_cases hlast : w.length ≤ j + 1
  · by_cases htn : t < n
    · rw [if_pos ⟨hlast, htn, ht⟩]
      omega
    · rw [if_neg (fun h => htn h.2.1)]
      omega
  · rw [if_neg (fun h => hlast h.1)]
    omega

/-- The last key point of the last period's thread is passed in it. -/
theorem liesIn_last {u : Nat} (h : MixedPair n kps c (w ++ [u]))
    (hsched : sched ∈ layouts n (calCkps n kps c) (w ++ [u])) :
    LiesIn sched u (kpsOf kps u - 1) w.length := by
  have hu : u ∈ c := h.mem_chosen (by simp)
  have hpos := (h.choosable u hu).2
  refine ⟨?_, ?_⟩
  · obtain ⟨parts, rfl, hparted, hspread⟩ := h.exists_parts hsched
    have hun := (h.choosable u hu).1
    have hcount : (w ++ [u]).count u = w.count u + 1 := by simp
    have hmem := (mem_spreads (by omega) (h.legal.count_le u)).mp (hspread u hun)
    have hlen := hmem.length_eq
    rw [layout_count_take, List.take_left]
    obtain ⟨before, x, hx⟩ := (List.eq_nil_or_concat' (parts.getD u [])).resolve_left
      (List.length_pos_iff.mp (by omega))
    have hsum := hmem.sum_eq
    have hxpos := hmem.pos x (by rw [hx]; exact List.mem_append_right _ List.mem_cons_self)
    rw [hx, List.length_append, List.length_singleton] at hlen
    rw [hx, List.sum_append, List.sum_singleton, h.ckps_eq hu] at hsum
    rw [hx, List.take_append_of_le_length (by omega), List.take_of_length_le (by omega)]
    omega
  · rw [h.sched_count hsched hu (by simp)]
    omega

end MixedPair

/-! ## The chains that are covered -/

/-- The last key point of a chain may stand for the last one of another thread, when its own
thread has no other key point in the chain: it is passed in the last period anyway. -/
def Closes (kps : List Nat) (chain chain' : List KeyPoint) : Prop :=
  chain' = chain ∨ ∃ before t k u, chain = before ++ [(t, k)] ∧ t ∉ threads before ∧
    chain' = before ++ [(u, kpsOf kps u - 1)]

/-- For some last key point, the key points of every thread hug the ends. -/
def Attainable (kps : List Nat) (chain : List KeyPoint) : Prop :=
  ∃ chain', Closes kps chain chain' ∧ LegalChain kps chain' ∧
    ∀ t, Hugs 0 (kpsOf kps t) (keysOf t chain')

theorem Covers.pairwise {sched : Schedule} {chain : List KeyPoint} (h : Covers sched chain) :
    chain.Pairwise fun a b => a.1 = b.1 → a.2 < b.2 := by
  rw [List.pairwise_iff_getElem]
  intro i j hi hj hij hsame
  have hlo : chain[i].2 < (sched.take (i + 1)).flatten.count chain[i].1 :=
    (h i _ _ (List.getElem?_eq_getElem hi)).2
  have hhi : (sched.take j).flatten.count chain[j].1 ≤ chain[j].2 :=
    (h j _ _ (List.getElem?_eq_getElem hj)).1
  rw [← hsame] at hhi
  have hsub : (sched.take (i + 1)).flatten.count chain[i].1 ≤
      (sched.take j).flatten.count chain[i].1 := passed_mono sched _ hij
  omega

section Covered
variable {n : Nat} {kps c w : List Nat} {sched : Schedule} {chain : List KeyPoint}

theorem attainable_of_layout (h : MixedPair n kps c w)
    (hsched : sched ∈ layouts n (calCkps n kps c) w) {chain' : List KeyPoint}
    (hcloses : Closes kps chain chain') (hthreads : threads chain' = w) (hcovers : Covers sched chain')
    (hlt : ∀ x ∈ chain', x.2 < kpsOf kps x.1) : Attainable kps chain := by
  have hlegal : LegalChain kps chain' :=
    ⟨hlt, hthreads ▸ h.legal.adjacent, hcovers.pairwise⟩
  refine ⟨chain', hcloses, hlegal, ?_⟩
  subst hthreads
  exact (exists_layout_covers_iff hlegal (fun t ht => h.ckps_eq (h.mem_chosen ht)) h.legal.lt).mp
    ⟨sched, hsched, hcovers⟩

/-- Before the last period only the thread of the period runs. -/
theorem liesIn_before {w' : List Nat} {u : Nat} {before : List KeyPoint} {x : KeyPoint}
    (h : MixedPair n kps c (w' ++ [u])) (hsched : sched ∈ layouts n (calCkps n kps c) (w' ++ [u]))
    (hcovers : Covers (mixedSched n kps ((c, w' ++ [u]), sched)) (before ++ [x]))
    (hlen : before.length = w'.length) {j t k : Nat} (hj : before[j]? = some (t, k)) :
    t ∈ c ∧ w'[j]? = some t ∧ LiesIn sched t k j := by
  have hjlen := (List.getElem?_eq_some_iff.mp hj).1
  have hlies := hcovers j t k (by rw [List.getElem?_append_left hjlen]; exact hj)
  by_cases hc : t ∈ c
  · have hin := (h.liesIn_chosen hsched hc k j).mp hlies
    have hletter := MixedPair.letter_of_liesIn hsched hin
    rw [List.getElem?_append_left (by omega)] at hletter
    exact ⟨hc, hletter, hin⟩
  · have hlast := (h.liesIn_other hsched hc (by simp; omega)).mp hlies
    simp only [List.length_append, List.length_singleton] at hlast
    omega

theorem covers_concat {before : List KeyPoint} {x : KeyPoint}
    (hbefore : ∀ j t k, before[j]? = some (t, k) → LiesIn sched t k j)
    (hx : LiesIn sched x.1 x.2 before.length) : Covers sched (before ++ [x]) := by
  intro j t k hj
  rcases Nat.lt_trichotomy j before.length with hjlt | hjeq | hjgt
  · rw [List.getElem?_append_left hjlt] at hj
    exact hbefore j t k hj
  · subst hjeq
    rw [List.getElem?_concat_length] at hj
    cases hj
    exact hx
  · rw [List.getElem?_eq_none (by simp; omega)] at hj
    cases hj

theorem attainable_of_covers (h : MixedPair n kps c w)
    (hsched : sched ∈ layouts n (calCkps n kps c) w) (hchain : LegalChain kps chain)
    (hlen : chain.length = w.length) (hcovers : Covers (mixedSched n kps ((c, w), sched)) chain) :
    Attainable kps chain := by
  have hpos := h.pos
  obtain ⟨before, ⟨t, k⟩, rfl⟩ := (List.eq_nil_or_concat' chain).resolve_left
    (List.length_pos_iff.mp (by omega))
  obtain ⟨w', u, rfl⟩ := (List.eq_nil_or_concat' w).resolve_left (List.length_pos_iff.mp hpos)
  have hlen' : before.length = w'.length := by simpa using hlen
  have hbefore : ∀ j t' k', before[j]? = some (t', k') →
      t' ∈ c ∧ w'[j]? = some t' ∧ LiesIn sched t' k' j :=
    fun j t' k' hj => liesIn_before h hsched hcovers hlen' hj
  have hthreads : threads before = w' := by
    apply List.ext_getElem?
    intro j
    rw [threads, List.getElem?_map]
    cases hj : before[j]? with
    | none => rw [List.getElem?_eq_none (hlen' ▸ List.getElem?_eq_none_iff.mp hj)]; rfl
    | some x => exact (hbefore j x.1 x.2 hj).2.1.symm
  have hlies := hcovers before.length t k (by simp)
  have hu : u ∈ c := h.mem_chosen (by simp)
  have hcov : ∀ x : KeyPoint, LiesIn sched x.1 x.2 before.length → Covers sched (before ++ [x]) :=
    fun x hx => covers_concat (fun j t' k' hj => (hbefore j t' k' hj).2.2) hx
  have hlt := List.forall_mem_append.mp hchain.lt
  by_cases hc : t ∈ c
  · have hin := (h.liesIn_chosen hsched hc k _).mp hlies
    have hletter := MixedPair.letter_of_liesIn hsched hin
    rw [hlen', List.getElem?_concat_length] at hletter
    cases hletter
    refine attainable_of_layout h hsched (Or.inl rfl) ?_ (hcov (t, k) hin) hchain.lt
    rw [threads, List.map_append, ← threads, hthreads]
    rfl
  · have hlast := h.liesIn_last hsched
    rw [← hlen'] at hlast
    have hnew : t ∉ threads before := by
      intro hmem
      obtain ⟨j, hj⟩ := List.mem_iff_getElem?.mp hmem
      obtain ⟨k', hk'⟩ := threads_getElem? hj
      exact hc (hbefore j t k' hk').1
    refine attainable_of_layout h hsched (Or.inr ⟨before, t, k, u, rfl, hnew, rfl⟩) ?_
      (hcov (u, kpsOf kps u - 1) hlast) (List.forall_mem_append.mpr ⟨hlt.1, ?_⟩)
    · rw [threads, List.map_append, ← threads, hthreads]
      rfl
    · intro x hx
      rw [List.mem_singleton.mp hx]
      have := (h.choosable u hu).2
      show kpsOf kps u - 1 < kpsOf kps u
      omega

end Covered

def chosenOf (chain : List KeyPoint) : List Nat := (threads chain).toFinset.sort

theorem mem_chosenOf {chain : List KeyPoint} {t : Nat} : t ∈ chosenOf chain ↔ t ∈ threads chain := by
  simp [chosenOf]

theorem threads_concat (chain : List KeyPoint) (x : KeyPoint) :
    threads (chain ++ [x]) = threads chain ++ [x.1] := by simp [threads]

theorem keysOf_concat (t : Nat) (chain : List KeyPoint) (x : KeyPoint) :
    keysOf t (chain ++ [x]) = keysOf t chain ++ if x.1 = t then [x.2] else [] := by
  rw [keysOf, List.filter_append, List.map_append, ← keysOf]
  split <;> simp_all

theorem keysOf_eq_nil {t : Nat} {chain : List KeyPoint} (h : t ∉ threads chain) :
    keysOf t chain = [] := by
  rw [← List.length_eq_zero_iff, keysOf_length, List.count_eq_zero]
  exact h

theorem isChain_concat_iff (w : List Nat) (x : Nat) :
    (w ++ [x]).IsChain (· ≠ ·) ↔ w.IsChain (· ≠ ·) ∧ ∀ y ∈ w.getLast?, y ≠ x := by
  simp [List.isChain_append]

/-- Another thread may take the last key point of a chain. -/
theorem legalChain_concat {kps : List Nat} {before : List KeyPoint} {x : KeyPoint} {m : Nat}
    (h : LegalChain kps (before ++ [x])) (hpos : 0 < kpsOf kps m) (hm : m ∉ threads before) :
    LegalChain kps (before ++ [(m, kpsOf kps m - 1)]) := by
  refine ⟨List.forall_mem_append.mpr ⟨(List.forall_mem_append.mp h.lt).1, ?_⟩, ?_, ?_⟩
  · intro y hy
    rw [List.mem_singleton.mp hy]
    show kpsOf kps m - 1 < kpsOf kps m
    omega
  · have hadj := h.adjacent
    rw [threads_concat, isChain_concat_iff] at hadj ⊢
    refine ⟨hadj.1, fun y hy he => hm ?_⟩
    rw [← show y = m from he]
    exact List.mem_of_mem_getLast? hy
  · refine List.pairwise_append.mpr ⟨(List.pairwise_append.mp h.increasing).1,
      List.pairwise_singleton _ _, fun a ha b hb hab => ?_⟩
    rw [List.mem_singleton.mp hb] at hab
    exact absurd (List.mem_map.mpr ⟨a, ha, hab⟩) hm

/-- Another thread at the end, where neither of the two has a key point before. -/
theorem hugs_concat_swap {kps : List Nat} {before : List KeyPoint} {l m k k' : Nat}
    (h : ∀ t, Hugs 0 (kpsOf kps t) (keysOf t (before ++ [(l, k')]))) (hl : l ∉ threads before)
    (hm : m ∉ threads before) (t : Nat) : Hugs 0 (kpsOf kps t) (keysOf t (before ++ [(m, k)])) := by
  have hold := h t
  rw [keysOf_concat] at hold ⊢
  by_cases htm : m = t
  · subst htm
    rw [keysOf_eq_nil hm]
    exact hugs_of_length_le (by simp)
  · by_cases htl : l = t
    · subst htl
      rw [keysOf_eq_nil hl, if_neg htm]
      exact hugs_of_length_le (by simp)
    · rw [if_neg htl] at hold
      rwa [if_neg htm]

/-- With the smallest other thread at the end, no smaller one is left over. -/
theorem not_skipped_concat {kps : List Nat} {before : List KeyPoint} {l m k k' : Nat}
    (hm : minDumped kps.length kps (chosenOf (before ++ [(l, k')])) = m) (hlt : m < l) (hln : l < kps.length) :
    ¬ Skipped (minDumped kps.length kps (chosenOf (before ++ [(m, k)]))) (threads (before ++ [(m, k)])) := by
  rintro ⟨x, hx, _, hxlt⟩
  rw [threads_concat] at hx
  obtain rfl : m = x := by simpa using hx
  have hxn := Nat.lt_trans hxlt (Nat.lt_trans hlt hln)
  have hsmall := minDumped_mem hxn
  generalize minDumped kps.length kps (chosenOf (before ++ [(m, k)])) = y at *
  rw [mem_chosenOf, threads_concat] at hsmall
  have hy : y ∉ chosenOf (before ++ [(l, k')]) := by
    rw [mem_chosenOf, threads_concat]
    intro hmem
    rcases List.mem_append.mp hmem with hmem | hmem
    · exact hsmall.2 (List.mem_append_left _ hmem)
    · have := List.mem_singleton.mp hmem
      omega
  have := minDumped_le hxn hsmall.1 hy
  omega

/-- A chain whose word would be skipped can be closed with the smallest other thread. -/
theorem exists_not_skipped {kps : List Nat} {chain : List KeyPoint} (h : Attainable kps chain) :
    ∃ chain', Closes kps chain chain' ∧ LegalChain kps chain' ∧
      (∀ t, Hugs 0 (kpsOf kps t) (keysOf t chain')) ∧
      ¬ Skipped (minDumped kps.length kps (chosenOf chain')) (threads chain') := by
  obtain ⟨chain', hcloses, hlegal, hhugs⟩ := h
  by_cases hskip : Skipped (minDumped kps.length kps (chosenOf chain')) (threads chain')
  swap
  · exact ⟨chain', hcloses, hlegal, hhugs, hskip⟩
  obtain ⟨l, hlast, hnew, hlt⟩ := hskip
  generalize hm : minDumped kps.length kps (chosenOf chain') = m at hlt
  obtain ⟨before, ⟨l', k'⟩, rfl⟩ := (List.eq_nil_or_concat' chain').resolve_left
    (by rintro rfl; simp [threads] at hlast)
  rw [threads_concat] at hlast hnew
  rw [List.dropLast_concat] at hnew
  obtain rfl : l' = l := by simpa using hlast
  have hln : l' < kps.length :=
    kpsOf_pos_lt (Nat.zero_lt_of_lt (hlegal.lt (l', k') (by simp)))
  have hmin := minDumped_mem (hm ▸ Nat.lt_trans hlt hln :
    minDumped kps.length kps (chosenOf (before ++ [(l', k')])) < kps.length)
  rw [hm, mem_chosenOf, threads_concat] at hmin
  obtain ⟨hpos, hmem⟩ := hmin
  have hbefore : m ∉ threads before := fun h => hmem (List.mem_append_left _ h)
  refine ⟨before ++ [(m, kpsOf kps m - 1)], Or.inr ?_, legalChain_concat hlegal hpos hbefore,
    hugs_concat_swap hhugs hnew hbefore, not_skipped_concat hm hlt hln⟩
  rcases hcloses with he | ⟨before', t, k, u, he, ht, he'⟩
  · exact ⟨before, l', k', m, he.symm, hnew, rfl⟩
  · obtain ⟨rfl, _⟩ := List.append_inj' he' rfl
    exact ⟨before, t, k, m, he, ht, rfl⟩

/-! ## The schedules that are met -/

theorem mem_openPairs {n p : Nat} {kps c w : List Nat} (hc : c ∈ chosenLists n p)
    (hw : w ∈ mixedWords n p kps c) (hskip : ¬ Skipped (minDumped n kps c) w) :
    (c, w) ∈ mixedPairs n p kps := by
  have hmem : (c, w) ∈ openPairs n p kps (chosenLists n p) :=
    List.mem_flatMap.mpr ⟨c, hc, List.mem_map.mpr ⟨w, List.mem_filter.mpr ⟨hw, by simpa using hskip⟩,
      rfl⟩⟩
  rw [mixedPairs]
  cases hfirst : firstPair n p kps with
  | none =>
    have hnone := List.findSome?_eq_none_iff.mp hfirst c hc
    rw [Option.map_eq_none_iff, List.head?_eq_none_iff] at hnone
    rw [hnone] at hw
    exact absurd hw List.not_mem_nil
  | some v =>
    simp only
    split
    · exact List.mem_cons_of_mem v hmem
    · exact hmem

section Chain
variable {kps : List Nat} {chain : List KeyPoint} (h : LegalChain kps chain)
include h

theorem threads_lt : ∀ t ∈ threads chain, t < kps.length := by
  intro t ht
  obtain ⟨x, hx, rfl⟩ := List.mem_map.mp ht
  exact kpsOf_pos_lt (Nat.zero_lt_of_lt (h.lt x hx))

theorem chosenOf_pair (hne : chain ≠ []) : MixedPair kps.length kps (chosenOf chain) (threads chain) := by
  have hchoosable : Choosable kps.length kps (chosenOf chain) := by
    intro t ht
    obtain ⟨x, hx, rfl⟩ := List.mem_map.mp (mem_chosenOf.mp ht)
    have hpos := Nat.zero_lt_of_lt (h.lt x hx)
    exact ⟨kpsOf_pos_lt hpos, hpos⟩
  refine ⟨hchoosable, ⟨by simp, h.adjacent, fun t => ?_, fun t ht => ?_, threads_lt h⟩, ?_⟩
  · rw [kpsOf_calCkps]
    by_cases ht : t ∈ threads chain
    · rw [if_pos ⟨mem_chosenOf.mpr ht, threads_lt h t ht⟩]
      exact count_threads_le h t
    · rw [List.count_eq_zero.mpr ht]
      exact Nat.zero_le _
  · exact mem_chosenOf.mp (List.mem_toFinset.mp ht)
  · rw [threads, List.length_map]
    exact List.length_pos_iff.mpr hne

theorem chosenOf_mem (hne : chain ≠ []) : chosenOf chain ∈ chosenLists kps.length chain.length := by
  obtain ⟨x, hx⟩ := List.exists_mem_of_ne_nil _ hne
  refine mem_chosenLists.mpr ⟨?_, ?_, ?_, fun t ht => threads_lt h t (mem_chosenOf.mp ht)⟩
  · exact List.ne_nil_of_mem (mem_chosenOf.mpr (List.mem_map.mpr ⟨x, hx, rfl⟩))
  · rw [chosenOf, Finset.length_sort]
    exact (List.toFinset_card_le _).trans_eq (List.length_map ..)
  · exact (Finset.sortedLT_sort _).pairwise

end Chain

theorem covers_of_closes {kps : List Nat} {chain chain' : List KeyPoint} {sched : Schedule}
    (hchain : LegalChain kps chain) (hlegal : LegalChain kps chain') (hne : chain' ≠ [])
    (hcloses : Closes kps chain chain')
    (hsched : sched ∈ layouts kps.length (calCkps kps.length kps (chosenOf chain')) (threads chain'))
    (hcovers : Covers sched chain') :
    Covers (mixedSched kps.length kps ((chosenOf chain', threads chain'), sched)) chain := by
  have hpair := chosenOf_pair hlegal hne
  have hsame : ∀ j t k, chain'[j]? = some (t, k) →
      LiesIn (mixedSched kps.length kps ((chosenOf chain', threads chain'), sched)) t k j := by
    intro j t k hj
    have ht : t ∈ threads chain' := List.mem_map.mpr ⟨(t, k), List.mem_of_getElem? hj, rfl⟩
    exact (hpair.liesIn_chosen hsched (mem_chosenOf.mpr ht) k j).mpr (hcovers j t k hj)
  rcases hcloses with rfl | ⟨before, t, k, u, rfl, hnew, rfl⟩
  · exact hsame
  intro j t' k' hj
  have hlen : (threads (before ++ [(u, kpsOf kps u - 1)])).length = before.length + 1 := by
    simp [threads]
  rcases Nat.lt_trichotomy j before.length with hlt | rfl | hgt
  · rw [List.getElem?_append_left hlt] at hj
    exact hsame j t' k' (by rw [List.getElem?_append_left hlt]; exact hj)
  · -- the last key point: its thread has no other period
    rw [List.getElem?_concat_length] at hj
    cases hj
    have hkt := hchain.lt (t, k) (by simp)
    by_cases ht : t ∈ chosenOf (before ++ [(u, kpsOf kps u - 1)])
    · refine (hpair.liesIn_chosen hsched ht k _).mpr ⟨?_, ?_⟩
      · obtain ⟨parts, rfl, _⟩ := hpair.exists_parts hsched
        have hzero : ((threads (before ++ [(u, kpsOf kps u - 1)])).take before.length).count t = 0 := by
          rw [threads_concat, List.take_left' (by simp [threads]), List.count_eq_zero]
          exact hnew
        rw [layout_count_take, hzero]
        exact Nat.zero_le k
      · rw [hpair.sched_count hsched ht (by omega)]
        exact hkt
    · refine (hpair.liesIn_other hsched ht (by omega)).mpr ⟨by omega, ?_, hkt⟩
      exact kpsOf_pos_lt (Nat.zero_lt_of_lt hkt)
  · rw [List.getElem?_eq_none (by simp; omega)] at hj
    cases hj

theorem Closes.length_eq {kps : List Nat} {chain chain' : List KeyPoint}
    (h : Closes kps chain chain') : chain'.length = chain.length := by
  rcases h with rfl | ⟨before, t, k, u, rfl, _, rfl⟩
  · rfl
  · simp

/-- An attainable chain is covered by a schedule of a pair that is visited. -/
theorem exists_covers_of_attainable {kps : List Nat} {chain : List KeyPoint}
    (hchain : LegalChain kps chain) (hne : chain ≠ []) (h : Attainable kps chain) :
    ∃ a ∈ mixedTriples kps.length chain.length kps, Covers (mixedSched kps.length kps a) chain := by
  obtain ⟨chain', hcloses, hlegal, hhugs, hskip⟩ := exists_not_skipped h
  have hlen := hcloses.length_eq
  have hne' : chain' ≠ [] := by
    rw [← List.length_pos_iff, hlen]
    exact List.length_pos_iff.mpr hne
  have hpair := chosenOf_pair hlegal hne'
  obtain ⟨sched, hsched, hcovers⟩ := (exists_layout_covers_iff hlegal
    (fun t ht => hpair.ckps_eq (mem_chosenOf.mpr ht)) (threads_lt hlegal)).mpr hhugs
  have hword : threads chain' ∈ mixedWords kps.length chain.length kps (chosenOf chain') :=
    mem_words.mpr ⟨by rw [threads, List.length_map, hlen], hpair.legal⟩
  have hmem := mem_openPairs (hlen ▸ chosenOf_mem hlegal hne') hword hskip
  exact ⟨_, List.mem_flatMap.mpr ⟨_, hmem, List.mem_map.mpr ⟨sched, hsched, rfl⟩⟩,
    covers_of_closes hchain hlegal hne' hcloses hsched hcovers⟩

/-- The schedule is among those of `for sched in SBPMESched(n, kps, p)`, which ends. -/
def SBPMESched.Yields (n : Nat) (kps : List Nat) (p : Nat) (sched : Schedule) : Prop :=
  ∃ fuel s out, SBPMESched.init fuel n kps p [] false = .ok s ∧
    exhaust (SBPMESched.nextIter fuel) .stopIteration fuel s = some out ∧
    sched ∈ out.map (·.sched)

theorem Covers.perm {sched sched' : Schedule} {chain : List KeyPoint}
    (h : List.Forall₂ List.Perm sched sched') : Covers sched chain ↔ Covers sched' chain := by
  have hcount : ∀ j t, (sched.take j).flatten.count t = (sched'.take j).flatten.count t := by
    intro j t
    exact (List.Perm.flatten_congr (List.forall₂_take j h)).count_eq t
  have hlies : ∀ t k j, LiesIn sched t k j ↔ LiesIn sched' t k j := fun t k j => by
    rw [LiesIn, LiesIn, hcount, hcount]
  exact ⟨fun hc j t k hj => (hlies t k j).mp (hc j t k hj),
    fun hc j t k hj => (hlies t k j).mpr (hc j t k hj)⟩

theorem choosable_of_pos {kps c : List Nat} {p : Nat} (hpos : ∀ k ∈ kps, 0 < k)
    (hc : c ∈ chosenLists kps.length p) : Choosable kps.length kps c := by
  intro i hi
  have hlt := (mem_chosenLists.mp hc).2.2.2 i hi
  refine ⟨hlt, ?_⟩
  rw [kpsOf, List.getD_eq_getElem _ _ hlt]
  exact hpos _ (List.getElem_mem hlt)

section Yields
variable {kps : List Nat} {chain : List KeyPoint} (hpos : ∀ k ∈ kps, 0 < k) (hne : chain ≠ [])
  (hchain : LegalChain kps chain)
include hpos hne hchain

/-- The iteration over the schedules of all visited pairs. -/
theorem SBPMESched.exhausts_chain :
    ∃ N, ∀ fuel, N ≤ fuel → ∃ s out, SBPMESched.init fuel kps.length kps chain.length [] false = .ok s ∧
      exhaust (SBPMESched.nextIter fuel) .stopIteration fuel s = some out ∧
      List.Forall₂ (SBPMESched.At kps.length chain.length kps)
        (mixedTriples kps.length chain.length kps) out := by
  have hpad : padKps (max kps.length kps.length) kps = .ok kps := by
    rw [padKps, Nat.max_self, if_neg (Nat.lt_irrefl _)]
  have hkps := fun c (hc : c ∈ chosenLists kps.length chain.length) => choosable_of_pos hpos hc
  have hsome : firstPair kps.length chain.length kps ≠ none := by
    intro hnone
    have hnil := List.findSome?_eq_none_iff.mp hnone _ (chosenOf_mem hchain hne)
    rw [Option.map_eq_none_iff, List.head?_eq_none_iff] at hnil
    have hword : threads chain ∈ mixedWords kps.length chain.length kps (chosenOf chain) :=
      mem_words.mpr ⟨by rw [threads, List.length_map], (chosenOf_pair hchain hne).legal⟩
    rw [hnil] at hword
    exact absurd hword List.not_mem_nil
  obtain ⟨N, hN⟩ := exists_enough kps.length chain.length kps
  refine ⟨N + (mixedTriples kps.length chain.length kps).length, fun fuel hfuel => ?_⟩
  have hexhausts := @SBPMESched.exhausts kps.length chain.length kps kps
    (List.length_pos_iff.mpr hne) hpad
  rw [Nat.max_self] at hexhausts
  exact hexhausts hkps (hN fuel (by omega)) hsome (by omega)

theorem attainable_of_yields {sched : Schedule}
    (hyields : SBPMESched.Yields kps.length kps chain.length sched) (hcovers : Covers sched chain) :
    Attainable kps chain := by
  obtain ⟨fuel, s, out, hinit, hout, hmem⟩ := hyields
  obtain ⟨N, hN⟩ := SBPMESched.exhausts_chain hpos hne hchain
  obtain ⟨s', out', hinit', hout', hall⟩ := hN (max fuel N) (Nat.le_max_right _ _)
  have hle := Nat.le_max_left fuel N
  -- the same run with more rounds
  have hpad : padKps (max kps.length kps.length) kps = .ok kps := by
    rw [padKps, Nat.max_self, if_neg (Nat.lt_irrefl _)]
  rw [SBPMESched.init_mono (List.length_pos_iff.mpr hne) hpad hle hinit] at hinit'
  cases hinit'
  have hsame := exhaust_mono hle (exhaust_of_agrees
    (fun s r h => SBPMESched.nextIter_mono hle (by simp) h)
    (fun s h => SBPMESched.nextIter_mono hle (by simp) h) hout)
  rw [hsame] at hout'
  cases hout'
  obtain ⟨t, ht, rfl⟩ := List.mem_map.mp hmem
  obtain ⟨a, ha, hat⟩ := exists_of_forall₂ hall.flip ht
  obtain ⟨⟨c, w⟩, hv, hmap⟩ := List.mem_flatMap.mp ha
  obtain ⟨sched, hsched, rfl⟩ := List.mem_map.mp hmap
  obtain ⟨hc, hw⟩ := mem_mixedPairs hv
  obtain ⟨hlen, hlegal⟩ := mem_words.mp hw
  have hpair : MixedPair kps.length kps c w :=
    ⟨choosable_of_pos hpos hc, hlegal, by rw [hlen]; exact List.length_pos_iff.mpr hne⟩
  exact attainable_of_covers hpair hsched hchain hlen.symm ((Covers.perm hat.sched_perm).mp hcovers)

theorem yields_of_attainable (h : Attainable kps chain) :
    ∃ sched, SBPMESched.Yields kps.length kps chain.length sched ∧ Covers sched chain := by
  obtain ⟨a, ha, hcovers⟩ := exists_covers_of_attainable hchain hne h
  obtain ⟨N, hN⟩ := SBPMESched.exhausts_chain hpos hne hchain
  obtain ⟨s, out, hinit, hout, hall⟩ := hN N (Nat.le_refl N)
  obtain ⟨t, ht, hat⟩ := exists_of_forall₂ hall ha
  exact ⟨t.sched, ⟨N, s, out, hinit, hout, List.mem_map.mpr ⟨t, ht, rfl⟩⟩,
    (Covers.perm hat.sched_perm).mpr hcovers⟩

/-- The chains of key points that are covered. -/
theorem sbpmeSched_covers_iff :
    (∃ sched, SBPMESched.Yields kps.length kps chain.length sched ∧ Covers sched chain) ↔
      Attainable kps chain :=
  ⟨fun ⟨_, hyields, hcovers⟩ => attainable_of_yields hpos hne hchain hyields hcovers,
    yields_of_attainable hpos hne hchain⟩

end Yields

theorem sbpmeSched_covers_iff_two :
    (∃ sched, SBPMESched.Yields 2 [1, 1] 2 sched ∧ Covers sched [(0, 0), (1, 0)]) ↔
      Attainable [1, 1] [(0, 0), (1, 0)] := by
  refine @sbpmeSched_covers_iff [1, 1] [(0, 0), (1, 0)] (by decide) (by decide) ⟨?_, ?_, ?_⟩
  · decide
  · decide
  · decide

/-- Thread 0 leaves key points before its first one, between and after: no schedule of
five periods passes this chain. -/
theorem sbpmeSched_misses_chain : LegalChain [5, 2] [(0, 1), (1, 0), (0, 2), (1, 1), (0, 3)] ∧
    ¬ ∃ sched, SBPMESched.Yields 2 [5, 2] 5 sched ∧
      Covers sched [(0, 1), (1, 0), (0, 2), (1, 1), (0, 3)] := by
  have hlegal : LegalChain [5, 2] [(0, 1), (1, 0), (0, 2), (1, 1), (0, 3)] :=
    ⟨by decide, by decide, by decide⟩
  refine ⟨hlegal, fun h => ?_⟩
  obtain ⟨sched, hyields, hcovers⟩ := h
  obtain ⟨chain', hcloses, _, hhugs⟩ :=
    attainable_of_yields (by decide) (by decide) hlegal hyields hcovers
  rcases hcloses with rfl | ⟨before, t, k, u, hsplit, hnew, rfl⟩
  · rcases (hugs_cons_cons 0 5 1 2 [3]).mp (hhugs 0) with hleft | hright
    · exact absurd hleft.1 (by decide)
    · exact absurd (hright 0 3 rfl) (by decide)
  · have hinit : before ++ [(t, k)] = [(0, 1), (1, 0), (0, 2), (1, 1)] ++ [(0, 3)] := hsplit.symm
    obtain ⟨rfl, hlast⟩ := List.append_inj' hinit rfl
    cases hlast
    exact hnew (by decide)

end Period.Scheduler
