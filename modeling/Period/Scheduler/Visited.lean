import Period.Scheduler.Frame

/-!
# Which words are visited

A word of the search spends the key points of its threads. A thread without key points can
only stand in its closing part, where each of the remaining chosen threads has one period and
the least comes first. The chosen threads are the letters of the word.
-/

namespace Period.Scheduler

open Enumeration Search
set_option autoImplicit false

/-- From letter `i` on, every letter is an obligatory thread that has had no period yet, and
none is smaller; only the thread of the period in front of the word may have to wait. -/
def Closing (mustDo : Finset Nat) (last : Option Nat) (u : List Nat) (i : Nat) (t : List Nat) : Prop :=
  (i :: t).Nodup ∧ ∀ y ∈ i :: t, y ∈ mustDo ∧ y ∉ u ∧ (i ≤ y ∨ u = [] ∧ some y = last)

structure Searched (n : Nat) (kps : List Nat) (mustDo : Finset Nat) (last : Option Nat)
    (w : List Nat) : Prop where
  first : ∀ x ∈ w.head?, some x ≠ last
  adjacent : w.IsChain (· ≠ ·)
  must : ∀ i ∈ mustDo, i ∈ w
  lt : ∀ i ∈ w, i < n
  spend : ∀ u i t, w = u ++ i :: t → u.count i < kpsOf kps i ∨ Closing mustDo last u i t

section Searched
variable {n : Nat} {kps : List Nat} {mustDo : Finset Nat} {last : Option Nat} {x : Nat}
  {w : List Nat}

theorem closing_erase {u t : List Nat} {i : Nat} :
    Closing (mustDo.erase x) (some x) u i t ↔ Closing mustDo last (x :: u) i t := by
  constructor
  · rintro ⟨hnodup, hall⟩
    refine ⟨hnodup, fun y hy => ?_⟩
    obtain ⟨hmem, hyu, hle⟩ := hall y hy
    obtain ⟨hne, hmem⟩ := Finset.mem_erase.mp hmem
    refine ⟨hmem, ?_, Or.inl (hle.resolve_right fun h => hne (Option.some.inj h.2))⟩
    exact fun h => (List.mem_cons.mp h).elim hne hyu
  · rintro ⟨hnodup, hall⟩
    refine ⟨hnodup, fun y hy => ?_⟩
    obtain ⟨hmem, hyu, hle⟩ := hall y hy
    obtain ⟨hne, hyu⟩ := not_or.mp (mt List.mem_cons.mpr hyu)
    exact ⟨Finset.mem_erase.mpr ⟨hne, hmem⟩, hyu,
      Or.inl (hle.resolve_right fun h => List.cons_ne_nil _ _ h.1)⟩

/-- The shortcut of the search is taken where the closing part begins. -/
theorem closing_nil_iff (hmust : ∀ i ∈ mustDo, i ∈ x :: w) :
    Closing mustDo last [] x w ↔ Due (w.length + 1) mustDo last x := by
  constructor
  · rintro ⟨hnodup, hall⟩
    have hset : mustDo = (x :: w).toFinset := by
      ext y
      exact ⟨fun hy => List.mem_toFinset.mpr (hmust y hy), fun hy => (hall y (List.mem_toFinset.mp hy)).1⟩
    refine ⟨?_, (hall x List.mem_cons_self).1, fun y hy hne => ?_⟩
    · rw [hset, List.toFinset_card_of_nodup hnodup, List.length_cons]
    · exact (hall y (hmust y hy)).2.2.resolve_right fun h => hne h.2
  · rintro ⟨hcard, hx, hle⟩
    have hsub : mustDo ⊆ (x :: w).toFinset := fun y hy => List.mem_toFinset.mpr (hmust y hy)
    have hbound : (x :: w).toFinset.card ≤ mustDo.card := by
      rw [← hcard]
      exact List.toFinset_card_le _
    have hset := Finset.eq_of_subset_of_card_le hsub hbound
    have hnodup : (x :: w).Nodup := by
      apply Multiset.coe_nodup.mp
      apply Multiset.toFinset_card_eq_card_iff_nodup.mp
      rw [← List.toFinset_coe] at hset
      rw [← hset, ← hcard, Multiset.coe_card, List.length_cons]
    refine ⟨hnodup, fun y hy => ?_⟩
    have hmem : y ∈ mustDo := hset ▸ List.mem_toFinset.mpr hy
    refine ⟨hmem, List.not_mem_nil, ?_⟩
    by_cases hlast : some y = last
    · exact Or.inr ⟨rfl, hlast⟩
    · exact Or.inl (hle y hmem hlast)

theorem searched_cons_iff : Searched n kps mustDo last (x :: w) ↔
    x ∈ leads n (w.length + 1) kps mustDo last ∧
      Searched n (useUp kps x) (mustDo.erase x) (some x) w := by
  rw [mem_leads]
  constructor
  · intro h
    have hadj := (isChain_cons_iff x w).mp h.adjacent
    refine ⟨⟨h.lt x List.mem_cons_self, h.first x rfl, ?_⟩, hadj.1, hadj.2, ?_, ?_, ?_⟩
    · rcases h.spend [] x w rfl with hpos | hclosing
      · exact Or.inl (by simpa using hpos)
      · exact Or.inr ((closing_nil_iff h.must).mp hclosing)
    · exact forall_mem_erase_iff.mpr h.must
    · exact fun i hi => h.lt i (List.mem_cons_of_mem x hi)
    · intro u i t hw
      rcases h.spend (x :: u) i t (by rw [hw, List.cons_append]) with hcount | hclosing
      · exact Or.inl (count_lt_useUp_iff.mpr hcount)
      · exact Or.inr (closing_erase.mpr hclosing)
  · rintro ⟨⟨hx, hlast, hlead⟩, h⟩
    have hmust := forall_mem_erase_iff.mp h.must
    refine ⟨?_, (isChain_cons_iff x w).mpr ⟨h.first, h.adjacent⟩, hmust, ?_, ?_⟩
    · intro y hy
      obtain rfl : x = y := Option.some.inj hy
      exact hlast
    · intro i hi
      rcases List.mem_cons.mp hi with rfl | hi
      · exact hx
      · exact h.lt i hi
    · intro u i t hw
      cases u with
      | nil =>
        cases hw
        exact hlead.imp (by simp) (closing_nil_iff hmust).mpr
      | cons y u =>
        obtain ⟨rfl, htail⟩ := List.cons_eq_cons.mp hw
        rcases h.spend u i t htail with hcount | hclosing
        · exact Or.inl (count_lt_useUp_iff.mp hcount)
        · exact Or.inr (closing_erase.mp hclosing)

theorem mem_searchWords {p : Nat} :
    w ∈ searchWords n p kps mustDo last ↔ w.length = p ∧ Searched n kps mustDo last w := by
  induction p generalizing kps mustDo last w with
  | zero =>
    have hnil : Searched n kps mustDo last [] ↔ mustDo = ∅ :=
      ⟨fun h => Finset.eq_empty_of_forall_notMem fun i hi => by simpa using h.must i hi,
        fun h => ⟨by simp, by simp, by simp [h], by simp, by simp⟩⟩
    cases w with
    | nil => simp [searchWords, hnil]
    | cons x w =>
      rw [searchWords]
      split <;> simp
  | succ p ih =>
    cases w with
    | nil => simp [searchWords]
    | cons x w =>
      rw [mem_searchWords_succ, ih, searched_cons_iff, List.length_cons, Nat.add_right_cancel_iff]
      constructor
      · rintro ⟨hx, rfl, hw⟩
        exact ⟨rfl, hx, hw⟩
      · rintro ⟨rfl, hx, hw⟩
        exact ⟨hx, rfl, hw⟩

end Searched

/-! ## Words alone -/

/-- The words of the search: what `kps` says about each thread, and where the threads
without key points stand. -/
structure SearchWord (n : Nat) (kps : List Nat) (last : Option Nat) (w : List Nat) : Prop where
  first : ∀ x ∈ w.head?, some x ≠ last
  adjacent : w.IsChain (· ≠ ·)
  lt : ∀ i ∈ w, i < n
  count_le : ∀ i, 0 < kpsOf kps i → w.count i ≤ kpsOf kps i
  idle : ∀ u i t, w = u ++ i :: t → kpsOf kps i = 0 →
    (i :: t).Nodup ∧ ∀ y ∈ i :: t, y ∉ u ∧ (i ≤ y ∨ u = [] ∧ some y = last)

theorem searchWord_of_pos {n : Nat} {kps : List Nat} {last : Option Nat} {w : List Nat}
    (hfirst : ∀ x ∈ w.head?, some x ≠ last) (hadj : w.IsChain (· ≠ ·)) (hlt : ∀ i ∈ w, i < n)
    (hcount : ∀ i, 0 < kpsOf kps i → w.count i ≤ kpsOf kps i)
    (hpos : ∀ i ∈ w.dropLast, 0 < kpsOf kps i) : SearchWord n kps last w := by
  refine ⟨hfirst, hadj, hlt, hcount, fun u i t hw hzero => ?_⟩
  have hout : i ∉ w.dropLast := fun hi => absurd (hpos i hi) (by omega)
  rw [hw, List.dropLast_append_of_ne_nil (List.cons_ne_nil i t), List.mem_append, not_or] at hout
  cases t with
  | nil =>
    refine ⟨List.nodup_singleton i, fun y hy => ?_⟩
    rw [List.mem_singleton.mp hy]
    exact ⟨hout.1, Or.inl (Nat.le_refl i)⟩
  | cons y t => exact absurd List.mem_cons_self hout.2

/-- The word has the right length and does not end with a thread of its own that is larger
than a thread that is left out. -/
structure Frame.Visits (f : Frame) (w : List Nat) : Prop
    extends SearchWord f.n f.pool f.last w where
  length_eq : w.length = f.q
  last_le : ∀ u x, w = u ++ [x] → x ∉ u →
    ∀ y, y < f.n → 0 < kpsOf f.pool y → y ∉ w → x ≤ y

section Visits
variable {f : Frame} {c w : List Nat}

/-- The place where a letter has been used `k` times. -/
theorem exists_split_count {i k : Nat} (h : k < w.count i) :
    ∃ u t, w = u ++ i :: t ∧ u.count i = k := by
  obtain ⟨j, hj, hcount⟩ := exists_occurrence h
  obtain ⟨hlt, hget⟩ := List.getElem?_eq_some_iff.mp hj
  refine ⟨w.take j, w.drop (j + 1), ?_, hcount⟩
  rw [← hget, List.cons_getElem_drop_succ, List.take_append_drop]

theorem Frame.mem_words (hc : c ∈ chosenLists f.n f.q) : w ∈ f.words c ↔
    w.length = f.q ∧ SearchWord f.n f.pool f.last w ∧ ∀ i, i ∈ c ↔ i ∈ w := by
  have hlt := (mem_chosenLists.mp hc).2.2.2
  have hckps : ∀ i, kpsOf (f.ckps c) i = if i ∈ c then kpsOf f.pool i else 0 := by
    intro i
    rw [Frame.ckps, kpsOf_calCkps]
    by_cases hi : i ∈ c
    · rw [if_pos ⟨hi, hlt i hi⟩, if_pos hi]
    · rw [if_neg (fun h => hi h.1), if_neg hi]
  rw [Frame.words, mem_searchWords]
  apply and_congr_right
  intro _
  constructor
  · intro h
    have hmem : ∀ i, i ∈ c ↔ i ∈ w := by
      intro i
      refine ⟨fun hi => h.must i (List.mem_toFinset.mpr hi), fun hi => ?_⟩
      obtain ⟨u, t, hsplit⟩ := List.append_of_mem hi
      rcases h.spend u i t hsplit with hcount | hclosing
      · by_contra hic
        rw [hckps, if_neg hic] at hcount
        exact Nat.not_lt_zero _ hcount
      · exact List.mem_toFinset.mp (hclosing.2 i List.mem_cons_self).1
    refine ⟨⟨h.first, h.adjacent, h.lt, fun i hpos => ?_, fun u i t hsplit hzero => ?_⟩, hmem⟩
    · by_contra hmany
      obtain ⟨u, t, hsplit, hcount⟩ := exists_split_count (Nat.lt_of_not_le hmany)
      rcases h.spend u i t hsplit with hlt | hclosing
      · rw [hckps] at hlt
        split at hlt <;> omega
      · have hout := List.count_eq_zero.mpr (hclosing.2 i List.mem_cons_self).2.1
        omega
    · rcases h.spend u i t hsplit with hlt | hclosing
      · rw [hckps] at hlt
        split at hlt <;> omega
      · exact ⟨hclosing.1, fun y hy => (hclosing.2 y hy).2⟩
  · rintro ⟨h, hletters⟩
    refine ⟨h.first, h.adjacent, fun i hi => (hletters i).mp (List.mem_toFinset.mp hi), h.lt, ?_⟩
    intro u i t hsplit
    have hi : i ∈ c := (hletters i).mpr (by simp [hsplit])
    rw [hckps, if_pos hi]
    by_cases hzero : kpsOf f.pool i = 0
    · obtain ⟨hnodup, hall⟩ := h.idle u i t hsplit hzero
      refine Or.inr ⟨hnodup, fun y hy => ⟨?_, hall y hy⟩⟩
      exact List.mem_toFinset.mpr ((hletters y).mpr (hsplit ▸ List.mem_append_right u hy))
    · have hcount := h.count_le i (Nat.pos_of_ne_zero hzero)
      rw [hsplit, List.count_append, List.count_cons_self] at hcount
      exact Or.inl (by omega)

theorem minDumped_lt_iff {n : Nat} {pool chosen : List Nat} {x : Nat} (hx : x < n) :
    minDumped n pool chosen < x ↔ ∃ y, y < n ∧ 0 < kpsOf pool y ∧ y ∉ chosen ∧ y < x := by
  constructor
  · intro h
    obtain ⟨hpos, hmem⟩ := minDumped_mem (Nat.lt_trans h hx)
    exact ⟨_, Nat.lt_trans h hx, hpos, hmem, h⟩
  · rintro ⟨y, hyn, hpos, hmem, hlt⟩
    exact Nat.lt_of_le_of_lt (minDumped_le hyn hpos hmem) hlt

theorem Frame.skips_iff (hletters : ∀ i, i ∈ c ↔ i ∈ w) (hlt : ∀ i ∈ w, i < f.n) :
    f.Skips (c, w) ↔ ∃ u x y, w = u ++ [x] ∧ x ∉ u ∧ y < f.n ∧ 0 < kpsOf f.pool y ∧ y ∉ w ∧ y < x := by
  constructor
  · rintro ⟨x, hlast, hx, hskip⟩
    have hsplit := List.dropLast_append_getLast? x hlast
    have hxn := hlt x (List.mem_of_getLast? hlast)
    obtain ⟨y, hyn, hpos, hmem, hyx⟩ := (minDumped_lt_iff hxn).mp hskip
    exact ⟨w.dropLast, x, y, hsplit.symm, hx, hyn, hpos, fun hyw => hmem ((hletters y).mpr hyw), hyx⟩
  · rintro ⟨u, x, y, rfl, hx, hyn, hpos, hmem, hyx⟩
    refine ⟨x, List.getLast?_concat, ?_, ?_⟩
    · rwa [List.dropLast_concat]
    · apply (minDumped_lt_iff (hlt x (by simp))).mpr
      exact ⟨y, hyn, hpos, fun hyc => hmem ((hletters y).mp hyc), hyx⟩

/-- The visited words, each with the set of its letters. -/
theorem Frame.mem_pairs_iff : (c, w) ∈ f.pairs ↔
    c ∈ chosenLists f.n f.q ∧ f.Visits w ∧ ∀ i, i ∈ c ↔ i ∈ w := by
  rw [Frame.mem_pairs]
  refine and_congr_right fun hc => ?_
  rw [Frame.mem_words hc]
  constructor
  · rintro ⟨⟨hlen, h, hletters⟩, hskip⟩
    refine ⟨⟨h, hlen, fun u x hsplit hx y hyn hpos hmem => ?_⟩, hletters⟩
    by_contra hlt
    exact hskip ((Frame.skips_iff hletters h.lt).mpr
      ⟨u, x, y, hsplit, hx, hyn, hpos, hmem, Nat.lt_of_not_le hlt⟩)
  · rintro ⟨h, hletters⟩
    refine ⟨⟨h.length_eq, h.toSearchWord, hletters⟩, fun hskip => ?_⟩
    obtain ⟨u, x, y, hsplit, hx, hyn, hpos, hmem, hlt⟩ := (Frame.skips_iff hletters h.lt).mp hskip
    have := h.last_le u x hsplit hx y hyn hpos hmem
    omega

theorem Frame.kpsOf_ckps_word (hv : (c, w) ∈ f.pairs) (i : Nat) :
    kpsOf (f.ckps c) i = if i ∈ w then kpsOf f.pool i else 0 := by
  obtain ⟨hc, _, hletters⟩ := Frame.mem_pairs_iff.mp hv
  rw [Frame.ckps, kpsOf_calCkps]
  by_cases hi : i ∈ w
  · have hmem := (hletters i).mpr hi
    rw [if_pos hi, if_pos ⟨hmem, (mem_chosenLists.mp hc).2.2.2 i hmem⟩]
  · rw [if_neg hi, if_neg fun h => hi ((hletters i).mp h.1)]

def letters (w : List Nat) : List Nat := w.toFinset.sort

@[simp] theorem mem_letters {w : List Nat} {i : Nat} : i ∈ letters w ↔ i ∈ w := by
  simp [letters]

theorem letters_chosen {n q : Nat} {w : List Nat} (hq : 0 < q) (hlen : w.length = q)
    (hlt : ∀ i ∈ w, i < n) : letters w ∈ chosenLists n q := by
  refine mem_chosenLists.mpr ⟨?_, ?_, ?_, ?_⟩
  · intro hnil
    cases w with
    | nil =>
      rw [List.length_nil] at hlen
      omega
    | cons x w =>
      have hx : x ∈ letters (x :: w) := mem_letters.mpr List.mem_cons_self
      rw [hnil] at hx
      exact absurd hx List.not_mem_nil
  · rw [letters, Finset.length_sort, ← hlen]
    exact w.toFinset_card_le
  · exact (Finset.sortedLT_sort _).pairwise
  · exact fun i hi => hlt i (mem_letters.mp hi)

theorem Frame.mem_pairs_letters (hq : 0 < f.q) : (letters w, w) ∈ f.pairs ↔ f.Visits w := by
  constructor
  · exact fun h => (Frame.mem_pairs_iff.mp h).2.1
  · intro h
    exact Frame.mem_pairs_iff.mpr ⟨letters_chosen hq h.length_eq h.lt, h, fun _ => mem_letters⟩

theorem Frame.exists_pair_iff (hq : 0 < f.q) : (∃ c, (c, w) ∈ f.pairs) ↔ f.Visits w := by
  constructor
  · rintro ⟨c, h⟩
    exact (Frame.mem_pairs_iff.mp h).2.1
  · exact fun h => ⟨letters w, (Frame.mem_pairs_letters hq).mpr h⟩

theorem Frame.firstPair_eq_none_iff (hq : 0 < f.q) :
    f.firstPair = none ↔ ∀ w, w.length = f.q → ¬ SearchWord f.n f.pool f.last w := by
  rw [Frame.firstPair, List.findSome?_eq_none_iff]
  constructor
  · intro h w hlen hw
    have hc := letters_chosen hq hlen hw.lt
    have hmem : w ∈ f.words (letters w) :=
      (Frame.mem_words hc).mpr ⟨hlen, hw, fun _ => mem_letters⟩
    have hnone := List.head?_eq_none_iff.mp (Option.map_eq_none_iff.mp (h _ hc))
    rw [hnone] at hmem
    exact List.not_mem_nil hmem
  · intro h c hc
    rw [Option.map_eq_none_iff, List.head?_eq_none_iff]
    apply List.eq_nil_iff_forall_not_mem.mpr
    intro w hmem
    obtain ⟨hlen, hw, _⟩ := (Frame.mem_words hc).mp hmem
    exact h w hlen hw

end Visits

end Period.Scheduler
