import Period.Analysis.KeyPoints

/-!
# The cleaning is exact

The scan rewrites the types that it reads, but only accesses into accesses. So what it leaves of
a group is told by the list as it was, and the list keeps its locations.
-/

namespace Period.Analysis

set_option autoImplicit false

/-- `main` after the insertion. Each set is read in an order of its own. -/
def finish (orders : Nat → SetOrder × SetOrder) (memGroupList : List Group) (pureSoList : List SoEntry) :
    Output :=
  let r := cleanGroupsIn orders memGroupList pureSoList
  let memGroupList := prune r.1
  let conConfigList := SetOrder.sorted.elems (conConfigSet memGroupList)
  { conConfigList, memGroupList
    pureSoList := removeAll (fun each => !conConfigList.contains each.loc) r.2 }

theorem update_eq_finish (o : SetOrder) (soList : List SoEntry) (memGroupList : List Group) :
    update o soList memGroupList =
      finish (fun _ => (o, o)) (insertAll memGroupList (pureSo soList)) (pureSo soList) := by
  rw [update, finish]
  simp only [cleanGroups_eq_cleanGroupsIn, SetOrder.sorted, List.contains_eq_mem, decide_not]

section Kept
variable {β : Type} {f : SoEntry → β} (hf : ∀ e typ, f { e with typ := typ } = f e)
include hf

theorem map_setType (mark loc : Text) (l : List SoEntry) : (setType mark loc l).map f = l.map f := by
  induction l with
  | nil => rfl
  | cons e l ih =>
    rw [setType_cons]
    split
    · rw [List.map_cons, List.map_cons, hf]
    · rw [List.map_cons, List.map_cons, ih]

theorem map_scan (mark : Text) (l : List Text) (s : Scan) :
    (l.foldl (scanOne mark) s).pureSoList.map f = s.pureSoList.map f := by
  induction l generalizing s with
  | nil => rfl
  | cons loc l ih =>
    rw [List.foldl_cons, ih, scanOne]
    split
    · rfl
    · split
      · exact map_setType hf mark loc s.pureSoList
      · rfl

theorem map_cleanGroupsIn (orders : Nat → SetOrder × SetOrder) (memGroupList : List Group)
    (pureSoList : List SoEntry) :
    (cleanGroupsIn orders memGroupList pureSoList).2.map f = pureSoList.map f := by
  have hfold : ∀ (l : List (Group × Nat)) (r : List Group × List SoEntry),
      (l.foldl (fun r g => cleanGroupIn (orders g.2) r g.1) r).2.map f = r.2.map f := by
    intro l
    induction l with
    | nil => exact fun _ => rfl
    | cons g l ih =>
      intro r
      rw [List.foldl_cons, ih, cleanGroupIn]
      simp only
      rw [map_scan hf, map_scan hf]
  exact hfold memGroupList.zipIdx ([], pureSoList)

end Kept

theorem removeAll_eq_filter {α : Type} [DecidableEq α] (bad : α → Bool) (l : List α) :
    removeAll bad l = l.filter fun a => !bad a := by
  have hfold : ∀ post pre : List α,
      post.foldl (fun l a => if bad a then l.erase a else l) (pre.filter (fun a => !bad a) ++ post) =
        (pre ++ post).filter fun a => !bad a := by
    intro post
    induction post with
    | nil => simp
    | cons a post ih =>
      intro pre
      have hsplit : pre ++ a :: post = (pre ++ [a]) ++ post := by simp
      rw [List.foldl_cons, hsplit, ← ih (pre ++ [a]), List.filter_append]
      by_cases hbad : bad a = true
      · have hnot : a ∉ pre.filter fun a => !bad a := by simp [hbad]
        rw [if_pos hbad, List.erase_append_right _ hnot, List.erase_cons_head]
        simp [hbad]
      · rw [if_neg hbad]
        simp [hbad]
  exact hfold l []

/-- What the list says about the locations of a group, when every location has one entry. -/
def restricted (pureSoList : List SoEntry) (g : Group) : Group where
  id := g.id
  stores := g.stores.filter fun x => ∃ e ∈ pureSoList, e.loc = x ∧ isAccess e.typ = true
  loads := g.loads.filter fun x => ∃ e ∈ pureSoList, e.loc = x ∧ isAccess e.typ = true
  others := (g.stores ∪ g.loads).filter fun x => ∃ e ∈ pureSoList, e.loc = x ∧ isAccess e.typ = false

section Unique
variable {pureSoList : List SoEntry} (hnodup : (pureSoList.map SoEntry.loc).Nodup)
include hnodup

theorem kindOf_eq_some_iff (b : Bool) (x : Text) :
    kindOf pureSoList x = some b ↔ ∃ e ∈ pureSoList, e.loc = x ∧ isAccess e.typ = b := by
  constructor
  · intro hkind
    obtain ⟨e, hfind, hb⟩ := Option.map_eq_some_iff.mp hkind
    exact ⟨e, List.mem_of_find?_eq_some hfind, by simpa using List.find?_some hfind, hb⟩
  · rintro ⟨e, he, rfl, rfl⟩
    exact kindOf_of_mem hnodup he

theorem cleaned_eq_restricted (g : Group) : cleaned pureSoList g = restricted pureSoList g := by
  simp only [cleaned, restricted, kindOf_eq_some_iff hnodup, Finset.union_comm]

theorem finish_memGroupList (orders : Nat → SetOrder × SetOrder) (memGroupList : List Group) :
    (finish orders memGroupList pureSoList).memGroupList =
      (memGroupList.map (restricted pureSoList)).filter fun g => g.stores ≠ ∅ ∨ g.others ≠ ∅ := by
  rw [finish]
  simp only
  rw [(cleanGroupsIn_eq orders memGroupList pureSoList).1, prune, removeAll_eq_filter,
    List.map_congr_left fun g _ => cleaned_eq_restricted hnodup g]
  apply List.filter_congr
  intro g _
  simp

end Unique

section Output
variable (orders : Nat → SetOrder × SetOrder) (memGroupList : List Group) (pureSoList : List SoEntry)

theorem finish_conConfigList_pairwise :
    (finish orders memGroupList pureSoList).conConfigList.Pairwise (· < ·) :=
  (Finset.sortedLT_sort _).pairwise

theorem mem_finish_conConfigList (x : Text) : x ∈ (finish orders memGroupList pureSoList).conConfigList ↔
    ∃ g ∈ (finish orders memGroupList pureSoList).memGroupList,
      x ∈ g.stores ∨ x ∈ g.loads ∨ x ∈ g.others := by
  have hlist : (finish orders memGroupList pureSoList).conConfigList =
      (conConfigSet (finish orders memGroupList pureSoList).memGroupList).sort := rfl
  rw [hlist, Finset.mem_sort, mem_conConfigSet]

theorem map_loc_finish : (finish orders memGroupList pureSoList).pureSoList.map SoEntry.loc =
    (pureSoList.map SoEntry.loc).filter
      fun x => x ∈ (finish orders memGroupList pureSoList).conConfigList := by
  rw [← @map_cleanGroupsIn Text SoEntry.loc (fun _ _ => rfl) orders memGroupList pureSoList, List.filter_map]
  rw [finish]
  simp only
  rw [removeAll_eq_filter]
  congr 1
  apply List.filter_congr
  intro e _
  simp

end Output

theorem loc_mem_of_restricted {pureSoList : List SoEntry} {g : Group} {x : Text}
    (hin : x ∈ (restricted pureSoList g).stores ∨ x ∈ (restricted pureSoList g).loads ∨
      x ∈ (restricted pureSoList g).others) :
    x ∈ pureSoList.map SoEntry.loc ∧ (x ∈ g.stores ∨ x ∈ g.loads) := by
  rcases hin with hin | hin | hin
  · obtain ⟨hx, e, he, rfl, _⟩ := Finset.mem_filter.mp hin
    exact ⟨List.mem_map_of_mem he, Or.inl hx⟩
  · obtain ⟨hx, e, he, rfl, _⟩ := Finset.mem_filter.mp hin
    exact ⟨List.mem_map_of_mem he, Or.inr hx⟩
  · obtain ⟨hx, e, he, rfl, _⟩ := Finset.mem_filter.mp hin
    exact ⟨List.mem_map_of_mem he, Finset.mem_union.mp hx⟩

/-- The groups that are left are the restricted ones that are not only read; what is printed is
the sorted union of their sets, and what is saved are its locations. -/
theorem finish_exact (orders : Nat → SetOrder × SetOrder) (memGroupList : List Group)
    {pureSoList : List SoEntry} (hnodup : (pureSoList.map SoEntry.loc).Nodup) :
    (finish orders memGroupList pureSoList).memGroupList =
      (memGroupList.map (restricted pureSoList)).filter (fun g => g.stores ≠ ∅ ∨ g.others ≠ ∅) ∧
    ((finish orders memGroupList pureSoList).conConfigList.Pairwise (· < ·) ∧
      ∀ x, x ∈ (finish orders memGroupList pureSoList).conConfigList ↔
        ∃ g ∈ (finish orders memGroupList pureSoList).memGroupList,
          x ∈ g.stores ∨ x ∈ g.loads ∨ x ∈ g.others) ∧
    ((finish orders memGroupList pureSoList).pureSoList.map SoEntry.loc).Perm
      (finish orders memGroupList pureSoList).conConfigList := by
  have hgroups := finish_memGroupList hnodup orders memGroupList
  have hsorted := finish_conConfigList_pairwise orders memGroupList pureSoList
  have hmem := mem_finish_conConfigList orders memGroupList pureSoList
  refine ⟨hgroups, ⟨hsorted, hmem⟩, ?_⟩
  rw [map_loc_finish]
  apply (List.perm_ext_iff_of_nodup (hnodup.filter _) (hsorted.imp ne_of_lt)).mpr
  intro x
  rw [List.mem_filter, decide_eq_true_eq, and_iff_right_iff_imp]
  -- what is printed has an entry
  intro hx
  obtain ⟨g, hg, hin⟩ := (hmem x).mp hx
  rw [hgroups] at hg
  obtain ⟨g, _, rfl⟩ := List.mem_map.mp (List.mem_filter.mp hg).1
  exact (loc_mem_of_restricted hin).1

/-- A location that one group writes and another reads. -/
theorem finish_exact_shared :
    let memGroupList : List Group := [⟨15, {"a.c:1".toList}, ∅, ∅⟩, ⟨18, ∅, {"a.c:1".toList}, ∅⟩]
    let pureSoList : List SoEntry := [⟨"a.c:1".toList, typRW, "f".toList, "1".toList⟩]
    let out := finish (fun _ => (SetOrder.sorted, SetOrder.sorted)) memGroupList pureSoList
    out.memGroupList =
      (memGroupList.map (restricted pureSoList)).filter (fun g => g.stores ≠ ∅ ∨ g.others ≠ ∅) ∧
    (out.conConfigList.Pairwise (· < ·) ∧ ∀ x, x ∈ out.conConfigList ↔
      ∃ g ∈ out.memGroupList, x ∈ g.stores ∨ x ∈ g.loads ∨ x ∈ g.others) ∧
    (out.pureSoList.map SoEntry.loc).Perm out.conConfigList :=
  finish_exact (fun _ => (SetOrder.sorted, SetOrder.sorted)) _ (by decide)

end Period.Analysis
