import Period.Foundation.Rearrangement
import Period.Scheduler.Words

/-!
# The words of the search

An obligatory thread without key points left gets a period too, once there are as many
periods as obligatory threads and it is the least of them. `searchWords` lists the
words that `_init_pattern` and `_next_pattern` go through for any counts.
-/

namespace Period.Scheduler

open Enumeration Rearrangement Search
set_option autoImplicit false

/-- The shortcut for as many periods as obligatory threads takes `i`. -/
def Due (p : Nat) (mustDo : Finset Nat) (last : Option Nat) (i : Nat) : Prop :=
  p = mustDo.card ∧ i ∈ mustDo ∧ ∀ j ∈ mustDo, some j ≠ last → i ≤ j

instance (p : Nat) (mustDo : Finset Nat) (last : Option Nat) (i : Nat) :
    Decidable (Due p mustDo last i) := by
  unfold Due
  infer_instance

/-- The threads that the search puts first in a word of `p` letters. -/
def leads (n p : Nat) (kps : List Nat) (mustDo : Finset Nat) (last : Option Nat) : List Nat :=
  (List.range n).filter fun i => some i ≠ last ∧ (0 < kpsOf kps i ∨ Due p mustDo last i)

def searchWords (n : Nat) : Nat → List Nat → Finset Nat → Option Nat → List (List Nat)
  | 0, _, mustDo, _ => if mustDo = ∅ then [[]] else []
  | p + 1, kps, mustDo, last =>
    (leads n (p + 1) kps mustDo last).flatMap fun i =>
      (searchWords n p (useUp kps i) (mustDo.erase i) (some i)).map (i :: ·)

section Leads
variable {n p : Nat} {kps : List Nat} {mustDo : Finset Nat} {last : Option Nat} {i x : Nat}

@[simp] theorem mem_leads : i ∈ leads n p kps mustDo last ↔
    i < n ∧ some i ≠ last ∧ (0 < kpsOf kps i ∨ Due p mustDo last i) := by
  simp [leads]

theorem leads_sorted : (leads n p kps mustDo last).Pairwise (· < ·) :=
  List.pairwise_lt_range.filter _

theorem leads_of_card_ne (h : p ≠ mustDo.card) :
    leads n p kps mustDo last = candidates n kps last := by
  have hdue : ∀ i, ¬ Due p mustDo last i := fun i hi => h hi.1
  simp only [leads, candidates, hdue, or_false]

/-- Obligatory threads that all have key points left need no shortcut. -/
theorem leads_of_feasible (h : Feasible n kps mustDo) :
    leads n p kps mustDo last = candidates n kps last := by
  apply List.filter_congr
  intro i _
  have hdue : 0 < kpsOf kps i ∨ Due p mustDo last i ↔ 0 < kpsOf kps i :=
    or_iff_left_of_imp fun hi => (h i hi.2.1).2
  simp only [hdue]

theorem leads_after {pre post : List Nat} (h : leads n p kps mustDo last = pre ++ x :: post) :
    post = (List.range' (x + 1) (n - (x + 1))).filter
      (fun i => some i ≠ last ∧ (0 < kpsOf kps i ∨ Due p mustDo last i)) := by
  have hx : x < n ∧ some x ≠ last ∧ (0 < kpsOf kps x ∨ Due p mustDo last x) :=
    mem_leads.mp (by simp [h])
  have hsplit : List.range n = List.range x ++ x :: List.range' (x + 1) (n - (x + 1)) := by
    have hn : n = x + (1 + (n - (x + 1))) := by omega
    conv_lhs => rw [hn, List.range_eq_range', ← List.range'_append_1, ← List.range'_append_1]
    rw [List.range_eq_range']
    simp
  rw [leads, hsplit, List.filter_append, List.filter_cons_of_pos (by simpa using hx.2)] at h
  refine ((List.append_cons_inj_of_notMem ?_ ?_).mp h).2.2.symm
  · simp
  · simp only [List.mem_filter, List.mem_range'_1]
    omega

/-- The letters the search still has to try after `x`. -/
theorem findSome?_leads_after {pre post : List Nat}
    (h : leads n p kps mustDo last = pre ++ x :: post) (hpos : ∀ i ∈ post, 0 < kpsOf kps i)
    (f : Nat → Option (List Nat)) :
    ((List.range' (x + 1) (n - (x + 1))).findSome? fun i =>
      if some i = last then none else if kpsOf kps i ≤ 0 then none else f i) =
      post.findSome? f := by
  rw [leads_after h] at hpos ⊢
  rw [findSome?_filter_of_none
    (q := fun i => some i ≠ last ∧ (0 < kpsOf kps i ∨ Due p mustDo last i))]
  · apply findSome?_congr_on
    intro i hi
    have hkps := hpos i hi
    have hi := of_decide_eq_true (List.mem_filter.mp hi).2
    rw [if_neg hi.1, if_neg (by omega)]
  · intro i _ hi
    have hi := of_decide_eq_false hi
    by_cases hlast : some i = last
    · rw [if_pos hlast]
    · rw [if_neg hlast, if_pos]
      by_contra hkps
      exact hi ⟨hlast, Or.inl (by omega)⟩

end Leads

section Words
variable {n p : Nat} {kps : List Nat} {mustDo : Finset Nat} {last : Option Nat}

theorem mem_searchWords_succ {x : Nat} {w : List Nat} :
    x :: w ∈ searchWords n (p + 1) kps mustDo last ↔
      x ∈ leads n (p + 1) kps mustDo last ∧
        w ∈ searchWords n p (useUp kps x) (mustDo.erase x) (some x) := by
  simp only [searchWords, List.mem_flatMap, List.mem_map, List.cons.injEq]
  constructor
  · rintro ⟨i, hi, v, hv, rfl, rfl⟩
    exact ⟨hi, hv⟩
  · exact fun ⟨hx, hw⟩ => ⟨x, hx, w, hw, rfl, rfl⟩

theorem searchWords_length {w : List Nat} (h : w ∈ searchWords n p kps mustDo last) :
    w.length = p := by
  induction p generalizing kps mustDo last w with
  | zero =>
    rw [searchWords] at h
    split at h
    · rw [List.mem_singleton.mp h, List.length_nil]
    · exact absurd h List.not_mem_nil
  | succ p ih =>
    cases w with
    | nil => simp [searchWords] at h
    | cons x w => rw [List.length_cons, ih (mem_searchWords_succ.mp h).2]

theorem searchWords_must {w : List Nat} (h : w ∈ searchWords n p kps mustDo last) :
    ∀ i ∈ mustDo, i ∈ w := by
  induction p generalizing kps mustDo last w with
  | zero =>
    rw [searchWords] at h
    split at h
    · next hempty =>
      intro i hi
      simp [hempty] at hi
    · exact absurd h List.not_mem_nil
  | succ p ih =>
    cases w with
    | nil => simp [searchWords] at h
    | cons x w =>
      intro i hi
      by_cases hix : i = x
      · exact hix ▸ List.mem_cons_self
      · exact List.mem_cons_of_mem x
          (ih (mem_searchWords_succ.mp h).2 i (Finset.mem_erase.mpr ⟨hix, hi⟩))

/-- Every obligatory thread needs a period of its own. -/
theorem searchWords_eq_nil (h : p < mustDo.card) : searchWords n p kps mustDo last = [] := by
  refine List.eq_nil_iff_forall_not_mem.mpr fun w hw => ?_
  have hsub : mustDo ⊆ w.toFinset := fun i hi => List.mem_toFinset.mpr (searchWords_must hw i hi)
  have hcard := (Finset.card_le_card hsub).trans w.toFinset_card_le
  rw [searchWords_length hw] at hcard
  omega

theorem searchWords_letters {w : List Nat} (h : w ∈ searchWords n p kps mustDo last) :
    ∀ i ∈ w, i < n ∧ (i ∈ mustDo ∨ 0 < kpsOf kps i) := by
  induction p generalizing kps mustDo last w with
  | zero =>
    have hlen := searchWords_length h
    rw [List.length_eq_zero_iff.mp hlen]
    exact nofun
  | succ p ih =>
    cases w with
    | nil => exact nofun
    | cons x w =>
      obtain ⟨hx, hw⟩ := mem_searchWords_succ.mp h
      obtain ⟨hxn, _, hx⟩ := mem_leads.mp hx
      intro i hi
      rcases List.mem_cons.mp hi with rfl | hi
      · exact ⟨hxn, hx.symm.imp (fun hdue => hdue.2.1) id⟩
      · obtain ⟨hin, hi⟩ := ih hw i hi
        refine ⟨hin, hi.imp Finset.mem_of_mem_erase fun hpos => ?_⟩
        rw [kpsOf_useUp] at hpos
        omega

theorem searchWords_head (n p : Nat) (kps : List Nat) (mustDo : Finset Nat) (last : Option Nat) :
    (searchWords n (p + 1) kps mustDo last).head? =
      (leads n (p + 1) kps mustDo last).findSome? fun i =>
        (searchWords n p (useUp kps i) (mustDo.erase i) (some i)).head?.map (i :: ·) := by
  simp only [searchWords, List.head?_flatMap, List.head?_map]

theorem searchWords_sorted (n p : Nat) (kps : List Nat) (mustDo : Finset Nat) (last : Option Nat) :
    (searchWords n p kps mustDo last).Pairwise (· < ·) := by
  induction p generalizing kps mustDo last with
  | zero =>
    rw [searchWords]
    split
    · exact List.pairwise_singleton _ _
    · exact List.Pairwise.nil
  | succ p ih =>
    rw [searchWords]
    exact flatMap_cons_sorted leads_sorted fun i _ => ih _ _ _

theorem searchWords_nodup (n p : Nat) (kps : List Nat) (mustDo : Finset Nat) (last : Option Nat) :
    (searchWords n p kps mustDo last).Nodup := by
  apply (searchWords_sorted n p kps mustDo last).imp
  rintro w _ h rfl
  exact List.lt_irrefl w h

theorem searchWords_of_feasible (h : Feasible n kps mustDo) :
    searchWords n p kps mustDo last = words n p kps mustDo last := by
  induction p generalizing kps mustDo last with
  | zero => rfl
  | succ p ih =>
    rw [searchWords, words, leads_of_feasible h]
    congr 1
    funext i
    rw [ih (h.erase i)]

end Words

/-! ## As many periods as obligatory threads -/

section Full
variable {n p : Nat} {kps : List Nat} {mustDo : Finset Nat} {last : Option Nat}

theorem due_of_find {before after : List Nat} {i : Nat} (hcard : mustDo.card = p)
    (hsort : mustDo.sort = before ++ i :: after) (hbefore : ∀ j ∈ before, some j = last) :
    Due p mustDo last i := by
  have hmem : i ∈ mustDo := (Finset.mem_sort (· ≤ ·)).mp (by simp [hsort])
  refine ⟨hcard.symm, hmem, fun j hj hne => ?_⟩
  have hj : j ∈ before ++ i :: after := hsort ▸ (Finset.mem_sort _).mpr hj
  have hsorted := mustDo.pairwise_sort (· ≤ ·)
  rw [hsort, List.pairwise_append] at hsorted
  rcases List.mem_append.mp hj with hj | hj
  · exact absurd (hbefore j hj) hne
  · rcases List.mem_cons.mp hj with rfl | hj
    · exact Nat.le_refl j
    · exact (List.pairwise_cons.mp hsorted.2.1).1 j hj

theorem notMem_of_before_due {pre post : List Nat} {i j : Nat} (hdue : Due p mustDo last i)
    (hleads : leads n p kps mustDo last = pre ++ i :: post) (hj : j ∈ pre) : j ∉ mustDo := by
  intro hmem
  have hsorted := @leads_sorted n p kps mustDo last
  rw [hleads, List.pairwise_append] at hsorted
  have hlt := hsorted.2.2 j hj i List.mem_cons_self
  have hj' : j ∈ leads n p kps mustDo last := by simp [hleads, hj]
  exact absurd hlt (Nat.not_lt.mpr (hdue.2.2 j hmem (mem_leads.mp hj').2.1))

theorem search_full_head_of (hlt : ∀ i ∈ mustDo, i < n) (hcard : mustDo.card = p + 1)
    (hrest : ∀ i ∈ mustDo,
      (searchWords n p (useUp kps i) (mustDo.erase i) (some i)).head? = some (mustDo.erase i).sort) :
    (searchWords n (p + 1) kps mustDo last).head? =
      mustDo.sort.findSome? fun i =>
        if some i = last then none else some (i :: mustDo.sort.erase i) := by
  have hother : ∀ i ∉ mustDo,
      (searchWords n p (useUp kps i) (mustDo.erase i) (some i)).head?.map (i :: ·) = none := by
    intro i hi
    rw [searchWords_eq_nil]
    · rfl
    · rw [Finset.erase_eq_of_notMem hi, hcard]
      exact Nat.lt_succ_self p
  rw [searchWords_head]
  cases hfind : mustDo.sort.findSome? fun i =>
      if some i = last then none else some (i :: mustDo.sort.erase i) with
  | none =>
    rw [List.findSome?_eq_none_iff] at hfind ⊢
    intro i hi
    apply hother
    intro hmem
    have := hfind i ((Finset.mem_sort _).mpr hmem)
    rw [if_neg (mem_leads.mp hi).2.1] at this
    cases this
  | some w =>
    obtain ⟨before, i, after, hsort, hi, hbefore⟩ := List.findSome?_eq_some_iff.mp hfind
    have hlast : some i ≠ last := by
      intro he
      rw [if_pos he] at hi
      cases hi
    have hskipped : ∀ j ∈ before, some j = last := by
      intro j hj
      by_contra hne
      have := hbefore j hj
      rw [if_neg hne] at this
      cases this
    have hdue := due_of_find hcard hsort hskipped
    have hmem : i ∈ mustDo := hdue.2.1
    have hw : (searchWords n p (useUp kps i) (mustDo.erase i) (some i)).head?.map (i :: ·) = some w := by
      rw [hrest i hmem, ← hi, if_neg hlast, sort_erase]
      rfl
    have hlead : i ∈ leads n (p + 1) kps mustDo last := mem_leads.mpr ⟨hlt i hmem, hlast, Or.inr hdue⟩
    obtain ⟨pre, post, hleads⟩ := List.append_of_mem hlead
    refine List.findSome?_eq_some_iff.mpr ⟨pre, i, post, hleads, hw, fun j hj => ?_⟩
    exact hother j (notMem_of_before_due hdue hleads hj)

theorem search_sorted_head (hlt : ∀ i ∈ mustDo, i < n) (hcard : mustDo.card = p)
    (hlast : ∀ i ∈ mustDo, some i ≠ last) :
    (searchWords n p kps mustDo last).head? = some mustDo.sort := by
  induction p generalizing kps mustDo last with
  | zero =>
    rw [Finset.card_eq_zero.mp hcard, Finset.sort_empty]
    rfl
  | succ p ih =>
    rw [search_full_head_of hlt hcard]
    · have hkeep : ∀ i ∈ mustDo.sort, (if some i = last then none
          else some (i :: mustDo.sort.erase i)) = some (i :: mustDo.sort.erase i) :=
        fun i hi => if_neg (hlast i ((Finset.mem_sort _).mp hi))
      rw [findSome?_congr_on hkeep, findSome?_eq_head]
      cases hsort : mustDo.sort with
      | nil =>
        have := mustDo.length_sort (· ≤ ·)
        rw [hsort, hcard] at this
        simp at this
      | cons i l => simp
    · intro i hi
      apply ih
      · exact fun j hj => hlt j (Finset.mem_of_mem_erase hj)
      · rw [Finset.card_erase_of_mem hi, hcard]
        rfl
      · intro j hj
        simpa using (Finset.mem_erase.mp hj).1

/-- When every period has to go to another obligatory thread, the obligatory threads
follow in increasing order after the first letter. -/
theorem search_full_head (hlt : ∀ i ∈ mustDo, i < n) (hcard : mustDo.card = p + 1) :
    (searchWords n (p + 1) kps mustDo last).head? =
      mustDo.sort.findSome? fun i =>
        if some i = last then none else some (i :: mustDo.sort.erase i) := by
  apply search_full_head_of hlt hcard
  intro i hi
  apply search_sorted_head
  · exact fun j hj => hlt j (Finset.mem_of_mem_erase hj)
  · rw [Finset.card_erase_of_mem hi, hcard]
    rfl
  · intro j hj
    simpa using (Finset.mem_erase.mp hj).1

/-- With a period for each obligatory thread there is a word, unless the only one
would follow itself. -/
theorem searchWords_ne_nil (hlt : ∀ i ∈ mustDo, i < n) (hcard : mustDo.card = p + 1)
    (hlast : ∃ i ∈ mustDo, some i ≠ last) : searchWords n (p + 1) kps mustDo last ≠ [] := by
  intro hnil
  obtain ⟨i, hi, hne⟩ := hlast
  have hhead := @search_full_head n p kps mustDo last hlt hcard
  rw [hnil, List.head?_nil] at hhead
  have := List.findSome?_eq_none_iff.mp hhead.symm i ((Finset.mem_sort _).mpr hi)
  rw [if_neg hne] at this
  cases this

end Full

/-- The last letter can be exchanged for a thread that is not obligatory and has key points. -/
theorem searchWords_swap {n p : Nat} {kps kps' : List Nat} {mustDo : Finset Nat} {last : Option Nat}
    {v : List Nat} {x m : Nat} (hw : v ++ [x] ∈ searchWords n p kps mustDo last) (hxv : x ∉ v)
    (hmv : m ∉ v) (hx : x ∈ mustDo) (hm : m ∉ mustDo) (hlt : ∀ i ∈ mustDo, i < n) (hmn : m < n)
    (hpos : 0 < kpsOf kps' m) (hsame : ∀ i, i ≠ x → i ≠ m → kpsOf kps' i = kpsOf kps i)
    (hfirst : v = [] → some m ≠ last) :
    searchWords n p kps' (insert m (mustDo.erase x)) last ≠ [] := by
  have hne : m ≠ x := fun he => hm (he ▸ hx)
  induction v generalizing p kps kps' mustDo last with
  | nil =>
    obtain rfl : p = 1 := (searchWords_length hw).symm
    obtain ⟨_, hrest⟩ := mem_searchWords_succ.mp hw
    have hdone : mustDo.erase x = ∅ := by
      by_contra hne
      rw [searchWords, if_neg hne] at hrest
      exact List.not_mem_nil hrest
    apply List.ne_nil_of_mem (a := [m])
    apply mem_searchWords_succ.mpr
    refine ⟨mem_leads.mpr ⟨hmn, hfirst rfl, Or.inl hpos⟩, ?_⟩
    simp [searchWords, hdone]
  | cons i v ih =>
    obtain ⟨p, rfl⟩ := Nat.exists_eq_succ_of_ne_zero (show p ≠ 0 by
      rw [← searchWords_length hw]
      simp)
    obtain ⟨hi, hrest⟩ := mem_searchWords_succ.mp hw
    obtain ⟨hxi, hxv⟩ := not_or.mp (mt List.mem_cons.mpr hxv)
    obtain ⟨hmi, hmv⟩ := not_or.mp (mt List.mem_cons.mpr hmv)
    obtain ⟨hin, hlast, hlead⟩ := mem_leads.mp hi
    rcases hlead with hkps | hdue
    · have hcomm : (insert m (mustDo.erase x)).erase i = insert m ((mustDo.erase i).erase x) := by
        rw [Finset.erase_insert_of_ne hmi, Finset.erase_right_comm]
      have hih := @ih p (useUp kps i) (useUp kps' i) (mustDo.erase i) (some i) hrest hxv hmv
        (Finset.mem_erase.mpr ⟨hxi, hx⟩) (fun h => hm (Finset.mem_of_mem_erase h))
        (fun j hj => hlt j (Finset.mem_of_mem_erase hj))
        (by rwa [kpsOf_useUp, if_neg (Ne.symm hmi)])
        (fun j hjx hjm => by rw [kpsOf_useUp, kpsOf_useUp, hsame j hjx hjm])
        (fun _ => by simpa using hmi)
      obtain ⟨w, hmem⟩ := List.exists_mem_of_ne_nil _ hih
      apply List.ne_nil_of_mem (a := i :: w)
      apply mem_searchWords_succ.mpr
      refine ⟨mem_leads.mpr ⟨hin, hlast, Or.inl ?_⟩, ?_⟩
      · rwa [hsame i (Ne.symm hxi) (Ne.symm hmi)]
      · rwa [hcomm]
    -- from here on every period goes to another obligatory thread, `m` among them
    · apply searchWords_ne_nil
      · intro j hj
        rcases Finset.mem_insert.mp hj with rfl | hj
        · exact hmn
        · exact hlt j (Finset.mem_of_mem_erase hj)
      · have hcard := Finset.card_pos.mpr ⟨x, hx⟩
        rw [Finset.card_insert_of_notMem (fun h => hm (Finset.mem_of_mem_erase h)),
          Finset.card_erase_of_mem hx, hdue.1]
        omega
      · exact ⟨i, Finset.mem_insert_of_mem (Finset.mem_erase.mpr ⟨Ne.symm hxi, hdue.2.1⟩), hlast⟩

/-! ## The two searches -/

section Search
variable {n p : Nat} {kps : List Nat} {mustDo : Finset Nat} {last : Option Nat}

theorem search_one_head (n : Nat) (kps : List Nat) (last : Option Nat) :
    (searchWords n 1 kps ∅ last).head? = (candidates n kps last).findSome? fun i => some [i] := by
  rw [searchWords_head, leads_of_card_ne (by simp)]
  rfl

theorem initPattern_search (hp : 0 < p) (hlt : ∀ i ∈ mustDo, i < n) :
    initPattern n p kps mustDo last = (searchWords n p kps mustDo last).head? := by
  induction p generalizing kps mustDo last with
  | zero => omega
  | succ p ih =>
    rw [initPattern]
    by_cases hfew : p + 1 < mustDo.card
    · rw [if_pos hfew, searchWords_eq_nil hfew]
      rfl
    rw [if_neg hfew]
    by_cases hp0 : p = 0
    · subst hp0
      rw [if_pos rfl]
      by_cases hcard : mustDo.card = 1
      · rw [if_pos hcard, search_full_head hlt hcard]
        obtain ⟨c, rfl⟩ := Finset.card_eq_one.mp hcard
        simp
      · have hempty : mustDo = ∅ := Finset.card_eq_zero.mp (by omega)
        rw [if_neg hcard, findSome?_candidates, hempty, search_one_head]
    rw [if_neg hp0]
    by_cases hcard : p + 1 = mustDo.card
    · rw [if_pos hcard, search_full_head hlt hcard.symm]
    · rw [if_neg hcard, findSome?_candidates, searchWords_head, leads_of_card_ne hcard]
      apply findSome?_congr_on
      intro i _
      rw [ih (by omega) fun j hj => hlt j (Finset.mem_of_mem_erase hj)]

/-- A thread that is tried after one with a word has key points left, or leads to none. -/
theorem lead_pos_after {pre post : List Nat} {x : Nat}
    (h : leads n (p + 1) kps mustDo last = pre ++ x :: post) {w : List Nat}
    (hw : w ∈ searchWords n p (useUp kps x) (mustDo.erase x) (some x)) :
    ∀ i ∈ post, 0 < kpsOf kps i := by
  intro i hi
  have hlead : i ∈ leads n (p + 1) kps mustDo last := by simp [h, hi]
  rcases (mem_leads.mp hlead).2.2 with hpos | hdue
  · exact hpos
  -- the shortcut takes the least thread, `x` comes before `i`
  · exfalso
    have hxmem : x ∈ mustDo := by
      by_contra hx
      have hcard : (mustDo.erase x).card = p + 1 := by rw [Finset.erase_eq_of_notMem hx, hdue.1]
      rw [searchWords_eq_nil (by omega)] at hw
      exact List.not_mem_nil hw
    have hx : x ∈ leads n (p + 1) kps mustDo last := by simp [h]
    have hle := hdue.2.2 x hxmem (mem_leads.mp hx).2.1
    have hsorted := @leads_sorted n (p + 1) kps mustDo last
    rw [h, List.pairwise_append] at hsorted
    have := (List.pairwise_cons.mp hsorted.2.1).1 i hi
    omega

theorem nextPattern_one {pre post : List Nat} {x : Nat}
    (hleads : leads n 1 kps mustDo last = pre ++ x :: post) (hdone : mustDo.erase x = ∅) :
    nextPattern n 1 kps [x] mustDo last =
      (post.flatMap fun i =>
        (searchWords n 0 (useUp kps i) (mustDo.erase i) (some i)).map (i :: ·)).head? := by
  have hpos := lead_pos_after (w := []) hleads (by simp [searchWords, hdone])
  rw [nextPattern]
  rcases Finset.erase_eq_empty_iff mustDo x |>.mp hdone with rfl | rfl
  · rw [Finset.card_empty, if_neg (by omega), if_neg (by omega),
      findSome?_leads_after hleads hpos, List.head?_flatMap]
    rfl
  · have hnodup := (@leads_sorted n 1 kps {x} last).imp Nat.ne_of_lt
    rw [hleads, List.pairwise_append, List.pairwise_cons] at hnodup
    have hnone : (post.flatMap fun i =>
        (searchWords n 0 (useUp kps i) (({x} : Finset Nat).erase i) (some i)).map (i :: ·)) = [] := by
      refine List.flatMap_eq_nil_iff.mpr fun i hi => ?_
      have hne : i ≠ x := (hnodup.2.1.1 i hi).symm
      rw [searchWords, Finset.erase_eq_of_notMem (by simpa using hne), if_neg (by simp)]
      rfl
    rw [hnone]
    simp

theorem nextPattern_search_walks (hp : 0 < p) (hlt : ∀ i ∈ mustDo, i < n) :
    WalksTo (fun w => nextPattern n p kps w mustDo last) (searchWords n p kps mustDo last) none := by
  induction p generalizing kps mustDo last with
  | zero => omega
  | succ p ih =>
    rw [searchWords]
    apply walksTo_flatMap
    intro pre x post hleads
    rw [Option.or_none]
    cases p with
    | zero =>
      rw [searchWords]
      by_cases hdone : mustDo.erase x = ∅
      · rw [if_pos hdone]
        exact ⟨nextPattern_one hleads hdone, trivial⟩
      · rw [if_neg hdone]
        trivial
    | succ p =>
      apply walksTo_map fun w =>
        nextPattern n (p + 1) (useUp kps x) w (mustDo.erase x) (some x)
      · intro w hw
        have hpost : post.findSome? (fun i =>
              (initPattern n (p + 1) (useUp kps i) (mustDo.erase i) (some i)).map (i :: ·)) =
            (post.flatMap fun i =>
              (searchWords n (p + 1) (useUp kps i) (mustDo.erase i) (some i)).map (i :: ·)).head? := by
          rw [List.head?_flatMap]
          apply findSome?_congr_on
          intro i _
          rw [initPattern_search (by omega) fun j hj => hlt j (Finset.mem_of_mem_erase hj),
            List.head?_map]
        rw [nextPattern, findSome?_leads_after hleads (lead_pos_after hleads hw), hpost]
        cases nextPattern n (p + 1) (useUp kps x) w (mustDo.erase x) (some x) <;> rfl
      · exact ih (by omega) fun j hj => hlt j (Finset.mem_of_mem_erase hj)

theorem initPattern_eq (hp : 0 < p) (h : Feasible n kps mustDo) :
    initPattern n p kps mustDo last = (words n p kps mustDo last).head? := by
  rw [initPattern_search hp fun i hi => (h i hi).1, searchWords_of_feasible h]

/-- The successor search walks through the legal words. -/
theorem nextPattern_walks (hp : 0 < p) (h : Feasible n kps mustDo) :
    WalksTo (fun w => nextPattern n p kps w mustDo last) (words n p kps mustDo last) none := by
  rw [← searchWords_of_feasible h]
  exact nextPattern_search_walks hp fun i hi => (h i hi).1

end Search

def ValidWord (n p : Nat) (kps : List Nat) (mustDo : Finset Nat) (last : Option Nat) (w : List Nat) : Prop :=
  w.length = p ∧ LegalWord n kps mustDo last w

theorem words_sorted {n p : Nat} {kps : List Nat} {mustDo : Finset Nat} {last : Option Nat}
    (h : Feasible n kps mustDo) : (words n p kps mustDo last).Pairwise (· < ·) := by
  rw [← searchWords_of_feasible h]
  exact searchWords_sorted n p kps mustDo last

/-- `_init_pattern` finds the least legal word, and `_next_pattern` the next one. -/
theorem patterns_exact {n p : Nat} {kps : List Nat} {mustDo : Finset Nat} (last : Option Nat) (hp : 1 ≤ p)
    (h : Feasible n kps mustDo) :
    (∀ w, initPattern n p kps mustDo last = some w ↔ IsLeast {w | ValidWord n p kps mustDo last w} w) ∧
    (initPattern n p kps mustDo last = none ↔ ∀ w, ¬ ValidWord n p kps mustDo last w) ∧
    ∀ w, ValidWord n p kps mustDo last w →
      (∀ w', nextPattern n p kps w mustDo last = some w' ↔
        IsLeast {w' | ValidWord n p kps mustDo last w' ∧ w < w'} w') ∧
      (nextPattern n p kps w mustDo last = none ↔ IsGreatest {w | ValidWord n p kps mustDo last w} w) := by
  have hmem : ∀ w, ValidWord n p kps mustDo last w ↔ w ∈ words n p kps mustDo last := fun w => mem_words.symm
  have hsorted := @words_sorted n p kps mustDo last h
  simp only [hmem]
  refine ⟨fun w => ?_, ?_, fun w hw => ?_⟩
  · rw [initPattern_eq hp h]
    exact head?_eq_some_iff_isLeast hsorted
  · rw [initPattern_eq hp h, List.head?_eq_none_iff, List.eq_nil_iff_forall_not_mem]
  · have hnext := succeeds_of_walksTo hsorted (nextPattern_walks hp h) hw
    refine ⟨fun w' => hnext.eq_some_iff, ?_⟩
    rw [hnext.eq_none_iff]
    exact ⟨fun hle => ⟨hw, hle⟩, fun hgreatest => hgreatest.2⟩

/-- Three periods, with thread 0 and thread 1 obligatory, after thread 0. -/
theorem patterns_exact_three :
    let valid := ValidWord 3 3 [2, 1, 1] {0, 1} (some 0)
    (∀ w, initPattern 3 3 [2, 1, 1] {0, 1} (some 0) = some w ↔ IsLeast {w | valid w} w) ∧
    (initPattern 3 3 [2, 1, 1] {0, 1} (some 0) = none ↔ ∀ w, ¬ valid w) ∧
    ∀ w, valid w →
      (∀ w', nextPattern 3 3 [2, 1, 1] w {0, 1} (some 0) = some w' ↔ IsLeast {w' | valid w' ∧ w < w'} w') ∧
      (nextPattern 3 3 [2, 1, 1] w {0, 1} (some 0) = none ↔ IsGreatest {w | valid w} w) := by
  have h : ∀ i ∈ ({0, 1} : Finset Nat), i < 3 ∧ 0 < kpsOf [2, 1, 1] i := by decide
  exact patterns_exact (some 0) (by decide) h

end Period.Scheduler
