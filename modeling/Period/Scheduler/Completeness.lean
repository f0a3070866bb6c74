import Mathlib.Data.List.Chain
import Period.Scheduler.Serial

/-!
# Which schedules the serialised scheduler produces

A schedule of single-thread periods is determined by its word and by how many key
points each period of a thread holds. `SBPSched` meets all words, but of the parts of
a thread only those in which at most two neighbouring ones are larger than one.
-/

namespace Period.Scheduler

open Enumeration Search Parts
set_option autoImplicit false

def wordOf (sched : Schedule) : List Nat := sched.map (·.headD 0)

def partsOf (t : Nat) (sched : Schedule) : List Nat :=
  (sched.filter fun period => period.head? = some t).map List.length

/-- A schedule of `p` non-empty single-thread periods, adjacent ones of different threads,
in which thread `i` has `kps[i]` key points. -/
structure SerialSched (kps : List Nat) (p : Nat) (sched : Schedule) : Prop where
  length_eq : sched.length = p
  single : ∀ period ∈ sched, ∃ x m, period = List.replicate (m + 1) x
  adjacent : sched.IsChain fun a b => a.head? ≠ b.head?
  count_eq : ∀ i, sched.flatten.count i = kpsOf kps i

section Reading
variable {sched : Schedule} (hne : ∀ period ∈ sched, period ≠ [])
include hne

theorem countP_head (t : Nat) :
    (sched.countP fun period => period.head? = some t) = (wordOf sched).count t := by
  rw [wordOf, List.count, List.countP_map]
  apply List.countP_congr
  intro period hp
  cases period with
  | nil => exact absurd rfl (hne [] hp)
  | cons x period => simp

theorem partsOf_length (t : Nat) : (partsOf t sched).length = (wordOf sched).count t := by
  rw [partsOf, List.length_map, ← List.countP_eq_length_filter, countP_head hne]

/-- The parts of a thread are numbered like its letters. -/
theorem partsOf_getElem? {j t : Nat} {period : List Nat} (hj : sched[j]? = some period)
    (ht : period.head? = some t) :
    (partsOf t sched)[((wordOf sched).take j).count t]? = some period.length := by
  have hcount := countP_head (fun q (hq : q ∈ sched.take j) => hne q (List.mem_of_mem_take hq)) t
  rw [wordOf, ← List.map_take, ← wordOf, ← hcount, partsOf, List.getElem?_map,
    getElem?_filter_countP hj (by simpa using ht)]
  rfl

end Reading

theorem SerialSched.ne_nil {kps : List Nat} {p : Nat} {sched : Schedule}
    (h : SerialSched kps p sched) : ∀ period ∈ sched, period ≠ [] := by
  intro period hp
  obtain ⟨x, m, rfl⟩ := h.single period hp
  simp

theorem partsOf_sum {sched : Schedule}
    (hsingle : ∀ period ∈ sched, ∃ x m, period = List.replicate (m + 1) x) (t : Nat) :
    (partsOf t sched).sum = sched.flatten.count t := by
  induction sched with
  | nil => rfl
  | cons period sched ih =>
    have ih := ih fun q hq => hsingle q (List.mem_cons_of_mem period hq)
    obtain ⟨x, m, rfl⟩ := hsingle _ List.mem_cons_self
    rw [List.flatten_cons, List.count_append, List.count_replicate, ← ih, partsOf, partsOf]
    by_cases hx : x = t
    · rw [List.filter_cons_of_pos (by simp [List.replicate_succ, hx]), if_pos (by simpa using hx)]
      simp
    · rw [List.filter_cons_of_neg (by simp [List.replicate_succ, hx]), if_neg (by simpa using hx),
        Nat.zero_add]

theorem partsOf_pos {sched : Schedule} (hne : ∀ period ∈ sched, period ≠ []) (t : Nat) :
    ∀ x ∈ partsOf t sched, 0 < x := by
  intro x hx
  obtain ⟨period, hp, rfl⟩ := List.mem_map.mp hx
  exact List.length_pos_iff.mpr (hne period (List.mem_of_mem_filter hp))

namespace SerialSched
variable {n p : Nat} {kps : List Nat} {sched : Schedule}

theorem count_wordOf_le (h : SerialSched kps p sched) (t : Nat) :
    (wordOf sched).count t ≤ kpsOf kps t := by
  rw [← partsOf_length h.ne_nil, ← h.count_eq, ← partsOf_sum h.single]
  exact length_le_sum (partsOf_pos h.ne_nil t)

theorem mem_wordOf (h : SerialSched kps p sched) {t : Nat} (ht : 0 < kpsOf kps t) :
    t ∈ wordOf sched := by
  rw [← h.count_eq, List.count_pos_iff, List.mem_flatten] at ht
  obtain ⟨period, hp, ht⟩ := ht
  obtain ⟨x, m, rfl⟩ := h.single period hp
  obtain rfl := (List.mem_replicate.mp ht).2
  exact List.mem_map.mpr ⟨_, hp, rfl⟩

theorem wordOf_legal (h : SerialSched kps p sched) (hn : ∀ i, 0 < kpsOf kps i → i < n) :
    LegalWord n kps (neededThreads n kps) none (wordOf sched) := by
  refine ⟨by simp, ?_, h.count_wordOf_le, ?_, ?_⟩
  · rw [wordOf, List.isChain_map]
    refine h.adjacent.imp_of_mem_imp fun a b ha hb hab => ?_
    obtain ⟨x, m, rfl⟩ := h.single a ha
    obtain ⟨y, m', rfl⟩ := h.single b hb
    simpa [List.replicate_succ] using hab
  · exact fun i hi => h.mem_wordOf (Finset.mem_filter.mp hi).2
  · intro i hi
    have := h.count_wordOf_le i
    have := List.count_pos_iff.mpr hi
    exact hn i (by omega)

theorem eq_layout (h : SerialSched kps p sched) (hn : ∀ i, 0 < kpsOf kps i → i < n) :
    sched = layout (wordOf sched) ((List.range n).map fun t => partsOf t sched) := by
  apply List.ext_getElem?
  intro j
  rw [layout_getElem?, wordOf, List.getElem?_map]
  cases hj : sched[j]? with
  | none => rfl
  | some period =>
    have hp := List.mem_of_getElem? hj
    obtain ⟨x, m, rfl⟩ := h.single period hp
    have hx : x < n := (h.wordOf_legal hn).lt x (List.mem_map.mpr ⟨_, hp, rfl⟩)
    have hpart := partsOf_getElem? h.ne_nil hj (t := x) rfl
    simp only [Option.map_some, List.replicate_succ, List.headD_cons, List.getD_eq_getElem?_getD,
      List.getElem?_map, List.getElem?_range hx, Option.getD_some]
    rw [← wordOf, hpart]
    simp [List.replicate_succ]

end SerialSched

section Layouts
variable {n : Nat} {kps w : List Nat} {parts : List (List Nat)} (hparts : Parted n w parts)
  (hpos : ∀ i, i < n → ∀ x ∈ parts.getD i [], 0 < x) (hw : ∀ x ∈ w, x < n)
include hparts hpos hw

theorem layout_getElem?_some {j x : Nat} (hj : w[j]? = some x) :
    ∃ m, (parts.getD x [])[(w.take j).count x]? = some (m + 1) ∧
      (layout w parts)[j]? = some (List.replicate (m + 1) x) := by
  have hx := hw x (List.mem_of_getElem? hj)
  have hlen : (w.take j).count x < (parts.getD x []).length := by
    rw [hparts.part_length x hx]
    exact count_take_lt_count hj
  obtain ⟨m, hm⟩ := Nat.exists_eq_succ_of_ne_zero
    (Nat.ne_of_gt (hpos x hx _ (List.getElem_mem hlen)))
  refine ⟨m, by rw [List.getElem?_eq_getElem hlen, hm], ?_⟩
  rw [layout_getElem?, hj, Option.map_some, List.getD_eq_getElem _ _ hlen, hm]

theorem layout_single : ∀ period ∈ layout w parts, ∃ x m, period = List.replicate (m + 1) x := by
  intro period hp
  obtain ⟨j, hj⟩ := List.mem_iff_getElem?.mp hp
  cases hx : w[j]? with
  | none => simp [layout_getElem?, hx] at hj
  | some x =>
    obtain ⟨m, _, hm⟩ := layout_getElem?_some hparts hpos hw hx
    rw [hm] at hj
    exact ⟨x, m, (Option.some.inj hj).symm⟩

theorem layout_ne_nil : ∀ period ∈ layout w parts, period ≠ [] := by
  intro period hp
  obtain ⟨x, m, rfl⟩ := layout_single hparts hpos hw period hp
  simp

theorem wordOf_layout : wordOf (layout w parts) = w := by
  apply List.ext_getElem?
  intro j
  rw [wordOf, List.getElem?_map]
  cases hx : w[j]? with
  | none => simp [layout_getElem?, hx]
  | some x =>
    obtain ⟨m, _, hm⟩ := layout_getElem?_some hparts hpos hw hx
    rw [hm]
    rfl

theorem partsOf_layout {t : Nat} (ht : t < n) : partsOf t (layout w parts) = parts.getD t [] := by
  have hne := layout_ne_nil hparts hpos hw
  have hword := wordOf_layout hparts hpos hw
  have hlen : (partsOf t (layout w parts)).length = (parts.getD t []).length := by
    rw [partsOf_length hne, hword, hparts.part_length t ht]
  apply List.ext_getElem?
  intro r
  rcases Nat.lt_or_ge r (w.count t) with hr | hr
  · obtain ⟨j, hj, rfl⟩ := exists_occurrence hr
    obtain ⟨m, hpart, hm⟩ := layout_getElem?_some hparts hpos hw hj
    have hread := partsOf_getElem? hne hm (t := t) rfl
    rw [hword] at hread
    rw [hread, hpart, List.length_replicate]
  · rw [← hparts.part_length t ht] at hr
    rw [List.getElem?_eq_none hr, List.getElem?_eq_none (by omega)]

theorem layout_serial (hword : w.IsChain (· ≠ ·))
    (hsum : ∀ i, i < n → (parts.getD i []).sum = kpsOf kps i)
    (hn : ∀ i, 0 < kpsOf kps i → i < n) : SerialSched kps w.length (layout w parts) := by
  have hne := layout_ne_nil hparts hpos hw
  have hsingle := layout_single hparts hpos hw
  refine ⟨layout_length w parts, hsingle, ?_, fun i => ?_⟩
  · rw [← wordOf_layout hparts hpos hw, wordOf, List.isChain_map] at hword
    refine hword.imp_of_mem_imp fun a b ha hb hab => ?_
    obtain ⟨x, m, rfl⟩ := hsingle a ha
    obtain ⟨y, m', rfl⟩ := hsingle b hb
    simpa [List.replicate_succ] using hab
  · rw [← partsOf_sum hsingle]
    rcases Nat.lt_or_ge i n with hi | hi
    · rw [partsOf_layout hparts hpos hw hi, hsum i hi]
    · have hzero : kpsOf kps i = 0 := by
        by_contra h
        have := hn i (by omega)
        omega
      have hcount : (wordOf (layout w parts)).count i = 0 := by
        rw [wordOf_layout hparts hpos hw, List.count_eq_zero]
        intro hmem
        have := hw i hmem
        omega
      rw [← partsOf_length hne, List.length_eq_zero_iff] at hcount
      rw [hcount, hzero]
      rfl

end Layouts

/-! ## The schedules that are met -/

theorem spreads_sound {m total : Nat} {l : List Nat} (hle : m ≤ total) (hzero : m = 0 → total = 0)
    (h : l ∈ spreads m total) : l.sum = total ∧ (∀ x ∈ l, 0 < x) ∧ TwoAdjacent l := by
  cases m with
  | zero =>
    rw [List.mem_singleton.mp h, hzero rfl]
    exact ⟨rfl, by simp, twoAdjacent_of_length_le (by simp)⟩
  | succ m =>
    have hs := (mem_spreads (Nat.succ_pos m) hle).mp h
    exact ⟨hs.sum_eq, hs.pos, hs.adjacent⟩

theorem spreads_complete {m total : Nat} {l : List Nat} (hlen : l.length = m) (hsum : l.sum = total)
    (hpos : ∀ x ∈ l, 0 < x) (hadj : TwoAdjacent l) : l ∈ spreads m total := by
  have hle := length_le_sum hpos
  rw [hlen, hsum] at hle
  cases m with
  | zero => exact List.mem_singleton.mpr (List.length_eq_zero_iff.mp hlen)
  | succ m => exact (mem_spreads (Nat.succ_pos m) hle).mpr ⟨hlen, hsum, hpos, hadj⟩

section Pairs
variable {n p : Nat} {kps : List Nat} (hn : ∀ i, 0 < kpsOf kps i → i < n)
include hn

theorem LegalWord.kpsOf_eq_zero {w : List Nat} (h : LegalWord n kps (neededThreads n kps) none w)
    {i : Nat} (hi : w.count i = 0) : kpsOf kps i = 0 := by
  by_contra hne
  have hpos : 0 < kpsOf kps i := by omega
  have hneeded : i ∈ neededThreads n kps := by simp [neededThreads, hpos, hn i hpos]
  exact List.count_eq_zero.mp hi (h.must i hneeded)

theorem mem_serialPairs {sched : Schedule} :
    sched ∈ (serialPairs n kps p).map Prod.snd ↔
      SerialSched kps p sched ∧ ∀ t, TwoAdjacent (partsOf t sched) := by
  simp only [serialPairs, layered, id, serialWords, List.mem_map, List.mem_flatMap, layouts]
  constructor
  · intro h
    obtain ⟨_, ⟨w, hw, _, ⟨parts, hmem, rfl⟩, rfl⟩, rfl⟩ := h
    obtain ⟨rfl, hlegal⟩ := mem_words.mp hw
    have hparts := parted_of_mem hlegal.count_le hmem
    have hspread : ∀ i, i < n → (parts.getD i []).sum = kpsOf kps i ∧
        (∀ x ∈ parts.getD i [], 0 < x) ∧ TwoAdjacent (parts.getD i []) := fun i hi =>
      spreads_sound (hlegal.count_le i) (hlegal.kpsOf_eq_zero hn)
        ((mem_part_readings.mp hmem).2 i hi)
    have hpos : ∀ i, i < n → ∀ x ∈ parts.getD i [], 0 < x := fun i hi => (hspread i hi).2.1
    refine ⟨layout_serial hparts hpos hlegal.lt hlegal.adjacent (fun i hi => (hspread i hi).1) hn,
      fun t => ?_⟩
    rcases Nat.lt_or_ge t n with ht | ht
    · rw [partsOf_layout hparts hpos hlegal.lt ht]
      exact (hspread t ht).2.2
    · apply twoAdjacent_of_length_le
      rw [partsOf_length (layout_ne_nil hparts hpos hlegal.lt), wordOf_layout hparts hpos hlegal.lt,
        List.count_eq_zero.mpr fun hmem => Nat.not_lt.mpr ht (hlegal.lt t hmem)]
      exact Nat.zero_le 2
  · intro h
    obtain ⟨hserial, hadj⟩ := h
    have hlegal := hserial.wordOf_legal hn
    have hlen : (wordOf sched).length = p := by rw [wordOf, List.length_map, hserial.length_eq]
    refine ⟨(wordOf sched, sched), ⟨wordOf sched, mem_words.mpr ⟨hlen, hlegal⟩, sched,
      ⟨(List.range n).map fun t => partsOf t sched, ?_, (hserial.eq_layout hn).symm⟩, rfl⟩, rfl⟩
    refine mem_part_readings.mpr ⟨by simp, fun i hi => ?_⟩
    have hget : ((List.range n).map fun t => partsOf t sched).getD i [] = partsOf i sched := by
      simp [hi]
    rw [hget]
    refine spreads_complete (partsOf_length hserial.ne_nil i) ?_ (partsOf_pos hserial.ne_nil i)
      (hadj i)
    rw [partsOf_sum hserial.single, hserial.count_eq]

end Pairs

/-- A word with given parts for one thread and the starting parts for the others. -/
theorem exists_serialSched {n : Nat} {kps w l : List Nat} {t : Nat}
    (hn : ∀ i, 0 < kpsOf kps i → i < n) (hw : LegalWord n kps (neededThreads n kps) none w)
    (ht : t < n) (hlen : l.length = w.count t) (hsum : l.sum = kpsOf kps t)
    (hpos : ∀ x ∈ l, 0 < x) :
    ∃ sched, SerialSched kps w.length sched ∧ partsOf t sched = l := by
  have hget : ∀ i, i < n → ((List.range n).map fun i =>
      if i = t then l else firstParts (w.count i) (kpsOf kps i)).getD i [] =
        if i = t then l else firstParts (w.count i) (kpsOf kps i) := fun i hi => by simp [hi]
  generalize hparts : ((List.range n).map fun i =>
      if i = t then l else firstParts (w.count i) (kpsOf kps i)) = parts at hget
  have hfirst : ∀ i, firstParts (w.count i) (kpsOf kps i) ∈ spreads (w.count i) (kpsOf kps i) :=
    fun i => List.mem_of_head? (spreads_head _ _ (hw.count_le i))
  have hsound := fun i => spreads_sound (hw.count_le i) (hw.kpsOf_eq_zero hn) (hfirst i)
  have hparted : Parted n w parts := by
    refine ⟨by simp [← hparts], fun i hi => ?_⟩
    rw [hget i hi]
    split
    · rename_i hit
      rw [hlen, hit]
    · exact (spreads_part (hw.count_le i) (hfirst i)).1
  have hpos' : ∀ i, i < n → ∀ x ∈ parts.getD i [], 0 < x := by
    intro i hi
    rw [hget i hi]
    split
    · exact hpos
    · exact (hsound i).2.1
  refine ⟨layout w parts, layout_serial hparted hpos' hw.lt hw.adjacent (fun i hi => ?_) hn, ?_⟩
  · rw [hget i hi]
    split
    · rename_i hit
      rw [hsum, hit]
    · exact (hsound i).1
  · rw [partsOf_layout hparted hpos' hw.lt ht, hget t ht, if_pos rfl]

/-- The schedule is among those of `for sched in SBPSched(n, kps, p)`, which ends. -/
def SBPSched.Yields (n : Nat) (kps : List Nat) (p : Nat) (sched : Schedule) : Prop :=
  ∃ s k out, SBPSched.init n kps p [] = .ok s ∧
    exhaust SBPSched.nextIter .stopIteration k s = some out ∧ sched ∈ out.map (·.sched)

section Yields
variable {n p : Nat} {kps kps' : List Nat} (hp : 0 < p)
  (hpad : padKps (max n kps.length) kps = .ok kps')
include hp hpad

theorem SBPSched.yields_iff {sched : Schedule} :
    SBPSched.Yields n kps p sched ↔
      SerialSched kps' p sched ∧ ∀ t, TwoAdjacent (partsOf t sched) := by
  have hlen := padKps_length (Nat.le_max_right n kps.length) hpad
  rw [← mem_serialPairs (n := max n kps.length) fun i hi => hlen ▸ kpsOf_pos_lt hi]
  constructor
  · intro h
    obtain ⟨s, k, out, hinit, hout, hmem⟩ := h
    obtain ⟨out', hout', hscheds⟩ := SBPSched.exhausts hp hpad hinit (Nat.le_max_right k _)
    rw [exhaust_mono (Nat.le_max_left k _) hout] at hout'
    cases hout'
    rwa [← hscheds]
  · intro h
    cases hw : (serialWords (max n kps.length) kps' p).head? with
    | none =>
      rw [serialPairs, layered, List.head?_eq_none_iff.mp hw] at h
      simp at h
    | some w =>
      have hinit := SBPSched.init_eq hp hpad
      rw [hw] at hinit
      obtain ⟨out, hout, hscheds⟩ := SBPSched.exhausts hp hpad hinit (Nat.le_refl _)
      exact ⟨_, _, out, hinit, hout, hscheds ▸ h⟩

/-- All schedules are produced exactly when no thread can get three periods and have two
key points to spare. -/
theorem sbpSched_complete_iff :
    (∀ sched, SerialSched kps' p sched →
      (SBPSched.Yields n kps p sched ↔ ∀ t, TwoAdjacent (partsOf t sched))) ∧
    ((∀ sched, SerialSched kps' p sched → SBPSched.Yields n kps p sched) ↔
      ∀ w, w.length = p →
        LegalWord (max n kps.length) kps' (neededThreads (max n kps.length) kps') none w →
        ∀ t, 3 ≤ w.count t → kpsOf kps' t ≤ w.count t + 1) := by
  have hlen := padKps_length (Nat.le_max_right n kps.length) hpad
  have hn : ∀ i, 0 < kpsOf kps' i → i < max n kps.length := fun i hi => hlen ▸ kpsOf_pos_lt hi
  have hyields : ∀ sched, SerialSched kps' p sched →
      (SBPSched.Yields n kps p sched ↔ ∀ t, TwoAdjacent (partsOf t sched)) := by
    intro sched hserial
    rw [SBPSched.yields_iff hp hpad, and_iff_right hserial]
  refine ⟨hyields, ?_, ?_⟩
  · intro hall w hwlen hw t hcount
    by_contra hspare
    have ht := hw.lt t (List.count_pos_iff.mp (by omega))
    obtain ⟨l, hl, hsum, hpos, hadj⟩ := exists_not_twoAdjacent hcount (Nat.lt_of_not_le hspare)
    obtain ⟨sched, hserial, hparts⟩ := exists_serialSched hn hw ht hl hsum hpos
    rw [hwlen] at hserial
    exact hadj (hparts ▸ (hyields sched hserial).mp (hall sched hserial) t)
  · intro hspare sched hserial
    refine (hyields sched hserial).mpr fun t => ?_
    have hword : (wordOf sched).length = p := by rw [wordOf, List.length_map, hserial.length_eq]
    have hcount := partsOf_length hserial.ne_nil t
    rcases Nat.lt_or_ge ((wordOf sched).count t) 3 with hfew | hmany
    · exact twoAdjacent_of_length_le (by omega)
    · have hle := hspare (wordOf sched) hword (hserial.wordOf_legal hn) t hmany
      apply twoAdjacent_of_sum_le (partsOf_pos hserial.ne_nil t)
      rw [partsOf_sum hserial.single, hserial.count_eq, hcount]
      exact hle

end Yields

theorem sbpSched_complete_iff_two : ∃ kps', padKps 2 [2] = .ok kps' ∧
    (∀ sched, SerialSched kps' 2 sched →
      (SBPSched.Yields 2 [2] 2 sched ↔ ∀ t, TwoAdjacent (partsOf t sched))) ∧
    ((∀ sched, SerialSched kps' 2 sched → SBPSched.Yields 2 [2] 2 sched) ↔
      ∀ w, w.length = 2 → LegalWord 2 kps' (neededThreads 2 kps') none w →
        ∀ t, 3 ≤ w.count t → kpsOf kps' t ≤ w.count t + 1) :=
  ⟨[2, 2], rfl, sbpSched_complete_iff Nat.two_pos rfl⟩

/-- Thread 0 has two key points to spare and may not spend them on its first and its
third period. -/
theorem sbpSched_misses_ends : SerialSched [5, 2] 5 [[0, 0], [1], [0], [1], [0, 0]] ∧
    ¬ SBPSched.Yields 2 [5, 2] 5 [[0, 0], [1], [0], [1], [0, 0]] := by
  constructor
  · refine ⟨rfl, ?_, by decide, fun i => ?_⟩
    · intro period hp
      simp only [List.mem_cons, List.not_mem_nil, or_false] at hp
      rcases hp with rfl | rfl | rfl | rfl | rfl
      · exact ⟨0, 1, rfl⟩
      · exact ⟨1, 0, rfl⟩
      · exact ⟨0, 0, rfl⟩
      · exact ⟨1, 0, rfl⟩
      · exact ⟨0, 1, rfl⟩
    · match i with
      | 0 => rfl
      | 1 => rfl
      | i + 2 => simp [kpsOf]
  · intro h
    have hadj := ((SBPSched.yields_iff (by decide) rfl).mp h).2 0
    rcases (twoAdjacent_cons_cons 2 1 [2]).mp hadj with ⟨h1, _⟩ | h2
    · omega
    · exact absurd (h2 2 List.mem_cons_self) (by decide)

end Period.Scheduler
