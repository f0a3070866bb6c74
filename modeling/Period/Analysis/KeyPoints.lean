import Period.Analysis.Groups

/-!
# What is printed

One location through the whole script: the type it ends up with, the groups that know it,
and whether the cleaning keeps it.
-/

namespace Period.Analysis

set_option autoImplicit false

/-- A location of another operation is printed when a group knows it, and a location without
entry never. -/
theorem mem_conConfigList (o : SetOrder) (soList : List SoEntry) (memGroupList : List Group)
    {x : Text} (hkind : kindOf (pureSo soList) x ≠ some true) :
    x ∈ (update o soList memGroupList).conConfigList ↔
      kindOf (pureSo soList) x = some false ∧
        inGroups (insertAll memGroupList (pureSo soList)) x = true := by
  have hlist : (update o soList memGroupList).conConfigList =
      (conConfigSet (prune (cleanGroups o (insertAll memGroupList (pureSo soList))
        (pureSo soList)).1)).sort := rfl
  rw [hlist, Finset.mem_sort, mem_conConfigSet, cleanGroups_eq, mem_inGroups]
  constructor
  · rintro ⟨left, hleft, hx⟩
    obtain ⟨g, hg, rfl⟩ := List.mem_map.mp (mem_removeAll.mp hleft).1
    rcases hx with hx | hx | hx
    · exact absurd (Finset.mem_filter.mp hx).2 hkind
    · exact absurd (Finset.mem_filter.mp hx).2 hkind
    · obtain ⟨hin, hfalse⟩ := Finset.mem_filter.mp hx
      exact ⟨hfalse, g, hg, (Finset.mem_union.mp hin).symm⟩
  · rintro ⟨hfalse, g, hg, hx⟩
    have hothers : x ∈ (cleaned (pureSo soList) g).others :=
      Finset.mem_filter.mpr ⟨Finset.mem_union.mpr hx.symm, hfalse⟩
    refine ⟨cleaned (pureSo soList) g, mem_removeAll.mpr ⟨List.mem_map_of_mem hg, ?_⟩,
      Or.inr (Or.inr hothers)⟩
    apply decide_eq_false
    intro hempty
    rw [hempty.2] at hothers
    exact absurd hothers (Finset.notMem_empty x)

/-- The entry of a location with a line of another type than `R/W`, before the removal. -/
theorem exists_merged {soList : List SoEntry} {each : SoEntry} (h : each ∈ soList)
    (hRW : each.typ ≠ typRW) :
    ∃ e ∈ (sortSo soList).foldl mergeSo [], e.loc = each.loc ∧ e.typ = topType soList each.loc := by
  have hm := merged_sortSo soList
  obtain ⟨e, he, hloc⟩ := hm.locs each h
  obtain ⟨d, hd, hdloc, hdtyp⟩ := hm.typ_mem e he
  refine ⟨e, he, hloc, (topType_eq ⟨d, hd, hdloc.trans hloc, hdtyp, ?_⟩ fun x hx hxloc hxRW => ?_).symm⟩
  · exact (hm.typ_le e he each h hloc.symm hRW).2
  · exact (hm.typ_le e he x hx (hxloc.trans hloc.symm) hxRW).1

theorem kindOf_of_mem {pureSoList : List SoEntry} (hnodup : (pureSoList.map SoEntry.loc).Nodup)
    {e : SoEntry} (he : e ∈ pureSoList) : kindOf pureSoList e.loc = some (isAccess e.typ) := by
  induction pureSoList with
  | nil => exact absurd he List.not_mem_nil
  | cons d l ih =>
    obtain ⟨hd, hl⟩ := List.nodup_cons.mp hnodup
    rw [kindOf_cons]
    rcases List.mem_cons.mp he with rfl | he
    · rw [if_pos rfl]
    · have hne : d.loc ≠ e.loc := by
        intro heq
        rw [heq] at hd
        exact hd (List.mem_map_of_mem he)
      rw [if_neg hne, ih hl he]

theorem kindOf_eq_none {pureSoList : List SoEntry} {x : Text} (h : ∀ e ∈ pureSoList, e.loc ≠ x) :
    kindOf pureSoList x = none := by
  rw [kindOf, Option.map_eq_none_iff, List.find?_eq_none]
  intro e he
  simpa using h e he

theorem isAccess_eq_false {typ T : Text} (htyp : typ ∈ sensitiveTypes) (hle : typ ≤ T) :
    isAccess T = false := by
  have hlt : ∀ t ∈ sensitiveTypes, typRW < t ∧ typR < t ∧ typW < t := by decide
  obtain ⟨hRW, hR, hW⟩ := hlt typ htyp
  apply decide_eq_false
  rintro (rfl | rfl | rfl)
  · exact absurd hRW (not_lt.mpr hle)
  · exact absurd hR (not_lt.mpr hle)
  · exact absurd hW (not_lt.mpr hle)

theorem printed_iff (o : SetOrder) (soList : List SoEntry) (memGroupList : List Group)
    {each : SoEntry} (h : each ∈ soList) (htyp : each.typ ∈ sensitiveTypes) :
    each.loc ∈ (update o soList memGroupList).conConfigList ↔
      topType soList each.loc ∈ sensitiveTypes ∨
        topType soList each.loc ≠ typUnlock ∧ inGroups memGroupList each.loc = true := by
  have hRW : each.typ ≠ typRW := by
    have hne : ∀ t ∈ sensitiveTypes, t ≠ typRW := by decide
    exact hne _ htyp
  have hunlock : typUnlock ∉ sensitiveTypes := by decide
  obtain ⟨e, he, hloc, htop⟩ := exists_merged h hRW
  have haccess : isAccess e.typ = false := isAccess_eq_false htyp (htop ▸ le_topType h hRW)
  have hnodup := (merged_sortSo soList).nodup
  have hpure : ∀ d, d ∈ pureSo soList ↔
      d ∈ (sortSo soList).foldl mergeSo [] ∧ d.typ ≠ typUnlock := by
    intro d
    rw [pureSo, mem_removeAll, decide_eq_false_iff_not]
  have honly : ∀ d ∈ pureSo soList, d.loc = e.loc → d = e := fun d hd hdloc =>
    List.inj_on_of_nodup_map hnodup ((hpure d).mp hd).1 he hdloc
  rw [← hloc, ← htop] at *
  by_cases hT : e.typ = typUnlock
  · have hnone : kindOf (pureSo soList) e.loc = none := by
      apply kindOf_eq_none
      intro d hd hdloc
      obtain rfl := honly d hd hdloc
      exact ((hpure d).mp hd).2 hT
    rw [mem_conConfigList o soList memGroupList (by rw [hnone]; nofun), hnone, hT]
    simp [hunlock]
  · have hmem : e ∈ pureSo soList := (hpure e).mpr ⟨he, hT⟩
    have hfalse : kindOf (pureSo soList) e.loc = some false := by
      rw [kindOf_of_mem (pureSo_nodup soList) hmem, haccess]
    rw [mem_conConfigList o soList memGroupList (by rw [hfalse]; nofun), inGroups_insertAll]
    constructor
    · rintro ⟨_, hin | ⟨d, hd, hdloc, hdtyp⟩⟩
      · exact Or.inr ⟨hT, hin⟩
      · exact Or.inl (honly d hd hdloc ▸ hdtyp)
    · rintro (hsens | ⟨_, hin⟩)
      · exact ⟨hfalse, Or.inr ⟨e, hmem, rfl, hsens⟩⟩
      · exact ⟨hfalse, Or.inl hin⟩

def soEntries (lines : List Text) : List SoEntry :=
  (lines.filter fun line => !isDebug line).filterMap soEntry

/-- No line makes the script fail. -/
def Readable (lines : List Text) : Prop := ∀ line ∈ lines, isDebug line = false → soEntry line ≠ none

theorem readSo_eq {lines : List Text} (h : Readable lines) : readSo lines = some (soEntries lines) := by
  have hmap : ∀ l : List Text, (∀ line ∈ l, soEntry line ≠ none) →
      l.mapM soEntry = some (l.filterMap soEntry) := by
    intro l hl
    induction l with
    | nil => rfl
    | cons line l ih =>
      obtain ⟨e, he⟩ := Option.ne_none_iff_exists'.mp (hl line List.mem_cons_self)
      rw [List.mapM_cons, he, ih fun x hx => hl x (List.mem_cons_of_mem line hx),
        List.filterMap_cons_some he]
      rfl
  apply hmap
  intro line hline
  obtain ⟨hmem, hdebug⟩ := List.mem_filter.mp hline
  exact h line hmem (by simpa using hdebug)

theorem readSo_eq_none {lines : List Text} (h : ¬ Readable lines) : readSo lines = none := by
  have hmap : ∀ l : List Text, (∃ line ∈ l, soEntry line = none) → l.mapM soEntry = none := by
    intro l hl
    induction l with
    | nil =>
      obtain ⟨line, hline, _⟩ := hl
      exact absurd hline List.not_mem_nil
    | cons x l ih =>
      rw [List.mapM_cons]
      cases hx : soEntry x with
      | none => rfl
      | some e =>
        obtain ⟨line, hline, hnone⟩ := hl
        rcases List.mem_cons.mp hline with rfl | hline
        · rw [hx] at hnone
          cases hnone
        · rw [ih ⟨line, hline, hnone⟩]
          rfl
  simp only [Readable, not_forall, not_not] at h
  obtain ⟨line, hline, hdebug, hnone⟩ := h
  exact hmap _ ⟨line, List.mem_filter.mpr ⟨hline, by simp [hdebug]⟩, hnone⟩

/-- A location with a sensitive line is printed exactly when all lines can be read and its largest
type is sensitive as well, or is not `unlock` and a memory group knows the location. -/
theorem sensitive_printed_iff (o : SetOrder) {lines : List Text} (memGroupList : List Group)
    {loc : Text} (hline : ∃ each ∈ soEntries lines, each.loc = loc ∧ each.typ ∈ sensitiveTypes) :
    (∃ out, updateMemGroupSo o lines memGroupList = some out ∧ loc ∈ out.conConfigList) ↔
      Readable lines ∧ (topType (soEntries lines) loc ∈ sensitiveTypes ∨
        topType (soEntries lines) loc ≠ typUnlock ∧
          ∃ g ∈ memGroupList, loc ∈ g.stores ∨ loc ∈ g.loads) := by
  obtain ⟨each, h, rfl, htyp⟩ := hline
  by_cases hread : Readable lines
  · have hrun : updateMemGroupSo o lines memGroupList =
        some (update o (soEntries lines) memGroupList) := by
      rw [updateMemGroupSo, readSo_eq hread]
      rfl
    rw [hrun, ← mem_inGroups, ← printed_iff o (soEntries lines) memGroupList h htyp]
    simp only [Option.some.injEq, exists_eq_left', hread, true_and]
  · have hrun : updateMemGroupSo o lines memGroupList = none := by
      rw [updateMemGroupSo, readSo_eq_none hread]
      rfl
    rw [hrun]
    simp only [reduceCtorEq, false_and, exists_false, hread]

/-- A location that is freed and allocated again, and one that only gives a lock back. -/
def reallocLines : List Text :=
  ["a.c:7 realloc f 1\n".toList, "b.c:2 unlock g 2\n".toList, "a.c:7 free f 1\n".toList, "a.c:7 R/W f 1\n".toList]

def reallocGroup : Group := ⟨15, {"a.c:7".toList}, {"b.c:2".toList}, ∅⟩

theorem sensitive_printed_iff_realloc :
    (∃ out, updateMemGroupSo SetOrder.sorted reallocLines [reallocGroup] = some out ∧
      "a.c:7".toList ∈ out.conConfigList) ↔
      Readable reallocLines ∧ (topType (soEntries reallocLines) "a.c:7".toList ∈ sensitiveTypes ∨
        topType (soEntries reallocLines) "a.c:7".toList ≠ typUnlock ∧
          ∃ g ∈ [reallocGroup], "a.c:7".toList ∈ g.stores ∨ "a.c:7".toList ∈ g.loads) :=
  sensitive_printed_iff SetOrder.sorted [reallocGroup] (by decide)

def lockLine : Text := "a.c:7 lock f 1\n".toList

def unlockLine : Text := "a.c:7 unlock f 1\n".toList

/-- With both lines the location is lost. -/
theorem lock_lost : ¬ ∀ (o : SetOrder) (lines : List Text) (memGroupList : List Group) (loc : Text),
    (∃ each ∈ soEntries lines, each.loc = loc ∧ each.typ ∈ sensitiveTypes) →
    ∃ out, updateMemGroupSo o lines memGroupList = some out ∧ loc ∈ out.conConfigList := by
  intro h
  obtain ⟨out, hrun, hmem⟩ := h SetOrder.sorted [lockLine, unlockLine] [] "a.c:7".toList (by decide)
  have hread : readSo [lockLine, unlockLine] =
      some [⟨"a.c:7".toList, "lock".toList, "f".toList, "1".toList⟩,
        ⟨"a.c:7".toList, "unlock".toList, "f".toList, "1".toList⟩] := by decide
  rw [updateMemGroupSo, hread] at hrun
  obtain rfl := Option.some.inj hrun
  have hprinted := (printed_iff _ _ [] List.mem_cons_self (by decide)).mp hmem
  revert hprinted
  decide

end Period.Analysis
