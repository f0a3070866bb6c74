import Mathlib.Data.List.Nodup
import Period.Analysis.MemGroup
import Period.Foundation.Rearrangement
import Period.Foundation.Runs

/-!
# The merged so list

Lines are sorted by location and then by type, so the type that a location ends up with is
the largest one other than `R/W`.
-/

namespace Period.Analysis

open Rearrangement Runs
set_option autoImplicit false

section Removal
variable {α : Type} [DecidableEq α] {bad : α → Bool}

theorem removeAll_sublist (l : List α) : (removeAll bad l).Sublist l := by
  have hfold : ∀ l' l : List α,
      (l'.foldl (fun l a => if bad a then l.erase a else l) l).Sublist l := by
    intro l'
    induction l' with
    | nil => exact List.Sublist.refl
    | cons a l' ih =>
      intro l
      rw [List.foldl_cons]
      split
      · exact (ih _).trans List.erase_sublist
      · exact ih l
  exact hfold l l

theorem mem_removeAll {l : List α} {a : α} : a ∈ removeAll bad l ↔ a ∈ l ∧ bad a = false := by
  have hfold : ∀ l' l : List α,
      (l'.foldl (fun l a => if bad a then l.erase a else l) l).count a =
        l.count a - if bad a then l'.count a else 0 := by
    intro l'
    induction l' with
    | nil => simp
    | cons b l' ih =>
      intro l
      rw [List.foldl_cons, ih]
      by_cases hab : b = a
      · subst hab
        by_cases hb : bad b = true
        · rw [if_pos hb, if_pos hb, if_pos hb, List.count_erase_self, List.count_cons_self]
          omega
        · rw [if_neg hb, if_neg hb, if_neg hb]
      · rw [List.count_cons_of_ne hab]
        congr 1
        split
        · exact List.count_erase_of_ne (Ne.symm hab)
        · rfl
  rw [← List.count_pos_iff, removeAll, hfold, ← List.count_pos_iff]
  by_cases ha : bad a = true
  · simp [ha]
  · simp [ha]

end Removal

/-- The largest type of a location other than `R/W`. -/
def topType (soList : List SoEntry) (loc : Text) : Text :=
  ((soList.filter fun each => each.loc = loc ∧ each.typ ≠ typRW).map SoEntry.typ).foldl max []

theorem le_topType {soList : List SoEntry} {each : SoEntry} (h : each ∈ soList)
    (hRW : each.typ ≠ typRW) : each.typ ≤ topType soList each.loc := by
  apply (foldl_max_spec _ _).1
  apply List.mem_cons_of_mem
  exact List.mem_map_of_mem (List.mem_filter.mpr ⟨h, decide_eq_true ⟨rfl, hRW⟩⟩)

theorem topType_eq {soList : List SoEntry} {loc T : Text}
    (hmem : ∃ each ∈ soList, each.loc = loc ∧ each.typ = T ∧ T ≠ typRW)
    (hle : ∀ each ∈ soList, each.loc = loc → each.typ ≠ typRW → each.typ ≤ T) :
    topType soList loc = T := by
  apply le_antisymm
  · rcases List.mem_cons.mp (foldl_max_spec ((soList.filter fun each =>
        each.loc = loc ∧ each.typ ≠ typRW).map SoEntry.typ) []).2 with heq | htop
    · rw [topType, heq]
      exact not_lt.mp (List.not_lt_nil T)
    · obtain ⟨each, heach, htyp⟩ := List.mem_map.mp htop
      obtain ⟨hin, hkeep⟩ := List.mem_filter.mp heach
      obtain ⟨hloc, hRW⟩ := of_decide_eq_true hkeep
      rw [topType, ← htyp]
      exact hle each hin hloc hRW
  · obtain ⟨each, hin, rfl, rfl, hRW⟩ := hmem
    exact le_topType hin hRW

/-- The entries `pureSoList` after the lines `done`. -/
structure Merged (done pureSoList : List SoEntry) : Prop where
  locs : ∀ each ∈ done, ∃ e ∈ pureSoList, e.loc = each.loc
  nodup : (pureSoList.map SoEntry.loc).Nodup
  last : ∀ e ∈ pureSoList.getLast?, ∀ each ∈ done, each.loc ≤ e.loc
  typ_mem : ∀ e ∈ pureSoList, ∃ each ∈ done, each.loc = e.loc ∧ each.typ = e.typ
  typ_le : ∀ e ∈ pureSoList, ∀ each ∈ done, each.loc = e.loc → each.typ ≠ typRW →
    each.typ ≤ e.typ ∧ e.typ ≠ typRW

theorem loc_le_of_words_le {e e' : SoEntry} (h : e.words ≤ e'.words) : e.loc ≤ e'.loc := by
  rcases le_cons_iff.mp h with hlt | ⟨heq, _⟩
  · exact le_of_lt hlt
  · exact le_of_eq heq

theorem typ_le_of_words_le {e e' : SoEntry} (h : e.words ≤ e'.words) (hloc : e.loc = e'.loc) :
    e.typ ≤ e'.typ := by
  rcases le_cons_iff.mp h with hlt | ⟨_, htail⟩
  · exact absurd hlt (hloc ▸ lt_irrefl e.loc)
  · rcases le_cons_iff.mp htail with hlt | ⟨heq, _⟩
    · exact le_of_lt hlt
    · exact le_of_eq heq

theorem merged_nil : Merged [] [] :=
  ⟨nofun, List.nodup_nil, nofun, nofun, nofun⟩

section Merging
variable {done entries : List SoEntry} {last each : SoEntry} (h : Merged done (entries ++ [last]))
  (hle : ∀ d ∈ done, d.words ≤ each.words)
include h hle

theorem merged_new (hlt : last.loc < each.loc) :
    Merged (done ++ [each]) (entries ++ [last] ++ [each]) := by
  have hlast := h.last last (by simp)
  have hnew : ∀ d ∈ done, d.loc ≠ each.loc := fun d hd => ne_of_lt (lt_of_le_of_lt (hlast d hd) hlt)
  have hfresh : ∀ e ∈ entries ++ [last], e.loc ≠ each.loc := by
    intro e he
    obtain ⟨d, hd, hdloc, _⟩ := h.typ_mem e he
    exact hdloc ▸ hnew d hd
  refine ⟨fun x hx => ?_, ?_, fun e he x hx => ?_, fun e he => ?_, fun e he x hx hxe hRW => ?_⟩
  · rcases List.mem_append.mp hx with hx | hx
    · obtain ⟨e, he, heq⟩ := h.locs x hx
      exact ⟨e, List.mem_append_left _ he, heq⟩
    · obtain rfl := List.mem_singleton.mp hx
      exact ⟨x, by simp, rfl⟩
  · rw [List.map_append, List.nodup_append]
    refine ⟨h.nodup, List.nodup_singleton _, ?_⟩
    intro a ha b hb
    obtain ⟨e, he, rfl⟩ := List.mem_map.mp ha
    rw [List.map_singleton, List.mem_singleton] at hb
    exact hb ▸ hfresh e he
  · rw [List.getLast?_concat] at he
    obtain rfl := Option.some.inj he
    rcases List.mem_append.mp hx with hx | hx
    · exact loc_le_of_words_le (hle x hx)
    · exact le_of_eq (congrArg _ (List.mem_singleton.mp hx))
  · rcases List.mem_append.mp he with he | he
    · obtain ⟨d, hd, hde⟩ := h.typ_mem e he
      exact ⟨d, List.mem_append_left _ hd, hde⟩
    · obtain rfl := List.mem_singleton.mp he
      exact ⟨e, by simp, rfl, rfl⟩
  · rcases List.mem_append.mp he with hold | hnow
    · rcases List.mem_append.mp hx with hx | hx
      · exact h.typ_le e hold x hx hxe hRW
      · obtain rfl := List.mem_singleton.mp hx
        exact absurd hxe.symm (hfresh e hold)
    · obtain rfl := List.mem_singleton.mp hnow
      rcases List.mem_append.mp hx with hx | hx
      · exact absurd hxe (hnew x hx)
      · obtain rfl := List.mem_singleton.mp hx
        exact ⟨le_refl _, hRW⟩

theorem merged_take (hloc : each.loc = last.loc) (hRW : each.typ ≠ typRW) :
    Merged (done ++ [each]) (entries ++ [{ last with typ := each.typ }]) := by
  have hlast := h.last last (by simp)
  have hnodup := h.nodup
  rw [List.map_append, List.nodup_append] at hnodup
  have hother : ∀ e ∈ entries, e.loc ≠ last.loc := fun e he =>
    hnodup.2.2 _ (List.mem_map_of_mem he) _ (by simp)
  refine ⟨fun x hx => ?_, ?_, fun e he x hx => ?_, fun e he => ?_, fun e he x hx hxe hxRW => ?_⟩
  · rcases List.mem_append.mp hx with hx | hx
    · obtain ⟨e, he, heq⟩ := h.locs x hx
      rcases List.mem_append.mp he with he | he
      · exact ⟨e, List.mem_append_left _ he, heq⟩
      · obtain rfl := List.mem_singleton.mp he
        exact ⟨_, List.mem_append_right _ List.mem_cons_self, heq⟩
    · obtain rfl := List.mem_singleton.mp hx
      exact ⟨_, List.mem_append_right _ List.mem_cons_self, hloc.symm⟩
  · have hmap := h.nodup
    rw [List.map_append] at hmap ⊢
    exact hmap
  · rw [List.getLast?_concat] at he
    obtain rfl := Option.some.inj he
    rcases List.mem_append.mp hx with hx | hx
    · exact hlast x hx
    · exact le_of_eq ((congrArg _ (List.mem_singleton.mp hx)).trans hloc)
  · rcases List.mem_append.mp he with he | he
    · obtain ⟨d, hd, hde⟩ := h.typ_mem e (List.mem_append_left _ he)
      exact ⟨d, List.mem_append_left _ hd, hde⟩
    · obtain rfl := List.mem_singleton.mp he
      exact ⟨each, by simp, hloc, rfl⟩
  · rcases List.mem_append.mp he with hold | hnow
    · rcases List.mem_append.mp hx with hx | hx
      · exact h.typ_le e (List.mem_append_left _ hold) x hx hxe hxRW
      · obtain rfl := List.mem_singleton.mp hx
        exact absurd (hxe.symm.trans hloc) (hother e hold)
    · obtain rfl := List.mem_singleton.mp hnow
      have hxloc : x.loc = last.loc := hxe
      rcases List.mem_append.mp hx with hx | hx
      · have htyp : x.typ ≤ each.typ := typ_le_of_words_le (hle x hx) (hxloc.trans hloc.symm)
        exact ⟨htyp, hRW⟩
      · obtain rfl := List.mem_singleton.mp hx
        exact ⟨le_refl _, hRW⟩

omit hle in
theorem merged_skip (hloc : each.loc = last.loc) (hRW : each.typ = typRW) :
    Merged (done ++ [each]) (entries ++ [last]) := by
  refine ⟨fun x hx => ?_, h.nodup, fun e he x hx => ?_, fun e he => ?_, fun e he x hx hxe hxRW => ?_⟩
  · rcases List.mem_append.mp hx with hx | hx
    · exact h.locs x hx
    · obtain rfl := List.mem_singleton.mp hx
      exact ⟨last, by simp, hloc.symm⟩
  · rcases List.mem_append.mp hx with hx | hx
    · exact h.last e he x hx
    · rw [List.getLast?_concat] at he
      obtain rfl := Option.some.inj he
      exact le_of_eq ((congrArg _ (List.mem_singleton.mp hx)).trans hloc)
  · obtain ⟨d, hd, hde⟩ := h.typ_mem e he
    exact ⟨d, List.mem_append_left _ hd, hde⟩
  · rcases List.mem_append.mp hx with hx | hx
    · exact h.typ_le e he x hx hxe hxRW
    · obtain rfl := List.mem_singleton.mp hx
      exact absurd hRW hxRW

end Merging

/-- Lines come in order: an old location is the one of the last entry. -/
theorem merged_step {done pureSoList : List SoEntry} {each : SoEntry} (h : Merged done pureSoList)
    (hle : ∀ d ∈ done, d.words ≤ each.words) :
    Merged (done ++ [each]) (mergeSo pureSoList each) := by
  rcases List.eq_nil_or_concat' pureSoList with rfl | ⟨entries, last, rfl⟩
  · have hdone : done = [] := by
      cases done with
      | nil => rfl
      | cons d done =>
        obtain ⟨e, he, _⟩ := h.locs d List.mem_cons_self
        exact absurd he List.not_mem_nil
    subst hdone
    refine ⟨?_, List.nodup_singleton _, ?_, ?_, ?_⟩ <;> simp [mergeSo]
  · rw [mergeSo, List.getLast?_concat]
    simp only
    by_cases hloc : each.loc ≠ last.loc
    · obtain ⟨d, hd, hdloc, _⟩ := h.typ_mem last (by simp)
      have hge : last.loc ≤ each.loc := hdloc ▸ loc_le_of_words_le (hle d hd)
      rw [if_pos hloc]
      exact merged_new h hle (lt_of_le_of_ne hge (Ne.symm hloc))
    · rw [if_neg hloc]
      split
      · next hRW =>
        rw [List.dropLast_concat]
        exact merged_take h hle (not_not.mp hloc) hRW
      · next hRW => exact merged_skip h (not_not.mp hloc) (not_not.mp hRW)

theorem sortSo_pairwise (soList : List SoEntry) :
    (sortSo soList).Pairwise fun e e' => e.words ≤ e'.words := by
  have hsorted := @List.pairwise_mergeSort SoEntry (fun e e' => decide (e.words ≤ e'.words))
    (fun a b c hab hbc => decide_eq_true (le_trans (of_decide_eq_true hab) (of_decide_eq_true hbc)))
    (fun a b => by
      rw [Bool.or_eq_true, decide_eq_true_eq, decide_eq_true_eq]
      exact le_total a.words b.words) soList
  exact hsorted.imp of_decide_eq_true

theorem merged_sortSo (soList : List SoEntry) :
    Merged soList ((sortSo soList).foldl mergeSo []) := by
  have hrun : ∀ (rest done pureSoList : List SoEntry), Merged done pureSoList →
      (done ++ rest).Pairwise (fun e e' => e.words ≤ e'.words) →
      Merged (done ++ rest) (rest.foldl mergeSo pureSoList) := by
    intro rest
    induction rest with
    | nil => exact fun done pureSoList h _ => by rwa [List.append_nil]
    | cons each rest ih =>
      intro done pureSoList h hsorted
      have hle : ∀ d ∈ done, d.words ≤ each.words := fun d hd =>
        (List.pairwise_append.mp hsorted).2.2 d hd each List.mem_cons_self
      have hsplit : done ++ each :: rest = (done ++ [each]) ++ rest := by
        rw [List.append_assoc]
        rfl
      rw [hsplit] at hsorted ⊢
      exact ih _ _ (merged_step h hle) hsorted
  have h := hrun (sortSo soList) [] [] merged_nil (sortSo_pairwise soList)
  rw [List.nil_append] at h
  have hmem : ∀ e, e ∈ sortSo soList ↔ e ∈ soList := fun e => List.mem_mergeSort
  refine ⟨fun x hx => h.locs x ((hmem x).mpr hx), h.nodup,
    fun e he x hx => h.last e he x ((hmem x).mpr hx), fun e he => ?_,
    fun e he x hx => h.typ_le e he x ((hmem x).mpr hx)⟩
  obtain ⟨d, hd, hde⟩ := h.typ_mem e he
  exact ⟨d, (hmem d).mp hd, hde⟩

theorem pureSo_nodup (soList : List SoEntry) : ((pureSo soList).map SoEntry.loc).Nodup :=
  (merged_sortSo soList).nodup.sublist ((removeAll_sublist _).map SoEntry.loc)

end Period.Analysis
