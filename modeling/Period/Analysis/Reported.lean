import Period.Analysis.CarriedOver
import Period.Analysis.Mempair
import Period.Analysis.Synthetic

/-!
# From the dump to the pairs

Groups are made for accesses only, and unknown locations go to groups of their own. So the pairs
of a location that the dump reports are told by the dump: the objects that it accesses at both.
-/

namespace Period.Analysis

set_option autoImplicit false

/-- No group is empty, and none is that of the unknown object. -/
def Inhabited (groups : List Group) : Prop :=
  ∀ g ∈ groups, g.id ≠ 1 ∧ ∃ w x, x ∈ g.side w

theorem Inhabited.addInstruction {isWrite : Bool} {sourceLoc : Text} {groups : List Group}
    (h : Inhabited groups) (key : Int) : Inhabited (addInstruction isWrite sourceLoc groups key) := by
  by_cases hkey : key = 1
  · rwa [Period.Analysis.addInstruction, if_pos hkey]
  · rw [addInstruction_eq hkey]
    intro g hg
    obtain ⟨old, hold, rfl⟩ := List.mem_map.mp hg
    by_cases hid : old.id = key
    · rw [if_pos hid, Group.addLoc_id]
      exact ⟨hid ▸ hkey, isWrite, sourceLoc, Group.mem_side_addLoc.mpr (Or.inr ⟨rfl, rfl⟩)⟩
    · rw [if_neg hid]
      split at hold
      · exact h old hold
      · rcases List.mem_append.mp hold with hold | hold
        · exact h old hold
        · obtain rfl := List.mem_singleton.mp hold
          exact absurd rfl hid

theorem Inhabited.addAccesses {order : ObjectOrder} {insn : Instruction} {sourceLoc : Text}
    {groups : List Group} (h : Inhabited groups) :
    Inhabited (addAccesses order insn sourceLoc groups) := by
  have hfold : ∀ (isWrite : Bool) (l : List Int) (groups : List Group), Inhabited groups →
      Inhabited (l.foldl (Period.Analysis.addInstruction isWrite sourceLoc) groups) := by
    intro isWrite l
    induction l with
    | nil => exact fun groups h => h
    | cons key l ih => exact fun groups h => ih _ (h.addInstruction key)
  exact hfold false _ _ (hfold true _ _ h)

section Reading
variable {aset : Bool} {order : ObjectOrder} {s s' : Reading}

theorem readLine_memoryLocations {line : Text} (h : readLine aset order s line = some s') :
    s'.memoryLocations = s.memoryLocations ∨ ∃ insn sourceLoc,
      s'.memoryLocations = addAccesses order insn sourceLoc s.memoryLocations := by
  unfold readLine at h
  split at h
  · cases h
    exact Or.inl rfl
  · split at h
    · cases h
      exact Or.inl rfl
    · split at h
      · obtain ⟨insn, _, heq⟩ := Option.bind_eq_some_iff.mp h
        cases heq
        exact Or.inl rfl
      · split at h
        · obtain ⟨insn, _, heq⟩ := Option.bind_eq_some_iff.mp h
          cases heq
          exact Or.inl rfl
        · split at h
          · obtain ⟨sourceLoc, _, heq⟩ := Option.bind_eq_some_iff.mp h
            cases heq
            exact Or.inr ⟨_, sourceLoc, rfl⟩
          · cases h
            exact Or.inl rfl

theorem inhabited_getAliasedInfo {lines : List Text} {groups : List Group}
    (h : getAliasedInfo aset order lines = some groups) : Inhabited groups := by
  have hrun : ∀ (lines : List Text) (s s' : Reading), lines.foldlM (readLine aset order) s = some s' →
      Inhabited s.memoryLocations → Inhabited s'.memoryLocations := by
    intro lines
    induction lines with
    | nil =>
      intro s s' h hs
      cases h
      exact hs
    | cons line lines ih =>
      intro s s' h hs
      rw [List.foldlM_cons, Option.bind_eq_bind, Option.bind_eq_some_iff] at h
      obtain ⟨next, hline, hrest⟩ := h
      apply ih next s' hrest
      rcases readLine_memoryLocations hline with heq | ⟨insn, sourceLoc, heq⟩
      · rwa [heq]
      · rw [heq]
        exact hs.addAccesses
  obtain ⟨s, hs, heq⟩ := Option.bind_eq_some_iff.mp h
  cases heq
  exact hrun lines _ s hs nofun

end Reading

section Insertion
variable {memGroupList : List Group} {pureSoList : List SoEntry}
  (hnodup : (pureSoList.map SoEntry.loc).Nodup)
include hnodup

/-- A location that was known is in the old groups only. -/
theorem mem_of_known {g : Group} (hg : g ∈ insertAll memGroupList pureSoList) {x : Text}
    (hx : x ∈ g.stores ∨ x ∈ g.loads) (hknown : inGroups memGroupList x = true) : g ∈ memGroupList := by
  obtain ⟨A, B, hsplit, hplaced⟩ := insertAll_placed memGroupList hnodup
  have hnew : ∀ l, (∀ e ∈ l, e ∈ A ++ B) → g ∉ groupOf l := by
    intro l hl hin
    obtain ⟨hloads, hstores, _⟩ := mem_groupOf hin
    rw [hloads, or_iff_left (Finset.notMem_empty x), hstores] at hx
    obtain ⟨e, he, rfl⟩ := hx
    have hunknown := mem_unknownEntries.mp (hsplit ▸ hl e he)
    rw [hunknown.2.2] at hknown
    cases hknown
  rw [insertAll, hplaced.groups] at hg
  rcases List.mem_append.mp hg with hg | hg
  · exact hg
  · rcases List.mem_append.mp hg with hg | hg
    · exact absurd hg (hnew A fun e he => List.mem_append_left B he)
    · exact absurd hg (hnew B fun e he => List.mem_append_right A he)

theorem mem_insertAll_of_mem {g : Group} (hg : g ∈ memGroupList) : g ∈ insertAll memGroupList pureSoList := by
  obtain ⟨A, B, _, hplaced⟩ := insertAll_placed memGroupList hnodup
  rw [insertAll, hplaced.groups]
  exact List.mem_append_left _ hg

theorem insertAll_ids (hids : (memGroupList.map Group.id).Nodup)
    (hobjects : ∀ g ∈ memGroupList, g.id ∉ syntheticGroups.map Prod.fst) :
    ((insertAll memGroupList pureSoList).map Group.id).Nodup := by
  obtain ⟨A, B, hsplit, hplaced⟩ := insertAll_placed memGroupList hnodup
  have htyp : ∀ e ∈ A ++ B, e.typ ∈ sensitiveTypes := fun e he =>
    (mem_unknownEntries.mp (hsplit ▸ he)).2.1
  have hsynthetic : ∀ l, (∀ e ∈ l, e ∈ A ++ B) → ∀ i ∈ (groupOf l).map Group.id,
      i ∈ syntheticGroups.map Prod.fst := by
    intro l hl i hi
    obtain ⟨g, hg, rfl⟩ := List.mem_map.mp hi
    obtain ⟨_, _, e, he, hid⟩ := mem_groupOf hg
    obtain ⟨k, hk, heq⟩ := syntheticId_mem (htyp e (hl e he))
    exact hid ▸ heq ▸ List.mem_map_of_mem hk
  have hone : ∀ l : List SoEntry, ((groupOf l).map Group.id).Nodup := by
    intro l
    cases l with
    | nil => exact List.nodup_nil
    | cons e l => exact List.nodup_singleton _
  have hA := hsynthetic A fun e he => List.mem_append_left B he
  have hB := hsynthetic B fun e he => List.mem_append_right A he
  rw [insertAll, hplaced.groups, List.map_append, List.map_append]
  refine List.nodup_append.mpr ⟨hids, List.nodup_append.mpr ⟨hone A, hone B, ?_⟩, ?_⟩
  · -- one of the two has locks, the other has none
    have hinj : ∀ typ ∈ sensitiveTypes, ∀ typ' ∈ sensitiveTypes,
        syntheticId typ = syntheticId typ' → typ = typ' := by decide
    intro i hi j hj heq
    cases A with
    | nil => exact absurd hi List.not_mem_nil
    | cons a A =>
      cases B with
      | nil => exact absurd hj List.not_mem_nil
      | cons b B =>
        rw [groupOf, List.map_singleton, List.mem_singleton] at hi hj
        have hsame : a.typ = b.typ :=
          hinj _ (htyp a (by simp)) _ (htyp b (by simp)) (hi.symm.trans (heq.trans hj))
        have hother := hplaced.two a List.mem_cons_self b rfl
        rw [isLock, isLock, hsame] at hother
        exact absurd hother.symm (Bool.not_ne_self _)
  · intro i hi j hj heq
    obtain ⟨g, hg, rfl⟩ := List.mem_map.mp hi
    refine hobjects g hg (heq ▸ ?_)
    exact (List.mem_append.mp hj).elim (hA j) (hB j)

end Insertion

/-! ## The whole analysis -/

section Dump
variable {aset : Bool} {dump : List DumpItem}

/-- Some kept block reports the location. -/
def Reported (aset : Bool) (dump : List DumpItem) (x : Text) : Prop :=
  ∃ w obj, obj ≠ 1 ∧ Recorded aset dump w obj x

/-- The object is accessed at both locations, not by a plain load at both. -/
def Shared (aset : Bool) (dump : List DumpItem) (eA eB : SoEntry) (obj : Int) : Prop :=
  (∃ w, Recorded aset dump w obj eA.loc) ∧ (∃ w, Recorded aset dump w obj eB.loc) ∧
    ¬ ((isAccess eA.typ = true ∧ ¬ Recorded aset dump true obj eA.loc) ∧
      isAccess eB.typ = true ∧ ¬ Recorded aset dump true obj eB.loc)

theorem accesses_of_recorded {w : Bool} {obj : Int} {x : Text} (h : Recorded aset dump w obj x) :
    ∃ b ∈ dump, b.Accesses w obj := by
  obtain ⟨pre, b, post, rfl, _, _, haccess | ⟨pre', b', mid, rfl, _, haccess⟩⟩ := h
  · exact ⟨b, by simp, haccess⟩
  · exact ⟨b', by simp, haccess⟩

/-- The group of an object has a location when the object is recorded with it. -/
theorem mem_group_iff {groups : List Group} (hids : (groups.map Group.id).Nodup)
    (hrecorded : ∀ w obj x, obj ≠ 1 → (HasAccess groups w obj x ↔ Recorded aset dump w obj x))
    {g : Group} (hg : g ∈ groups) (hone : g.id ≠ 1) (w : Bool) (x : Text) :
    x ∈ g.side w ↔ Recorded aset dump w g.id x := by
  rw [← hrecorded w g.id x hone]
  constructor
  · exact fun hx => ⟨g, hg, rfl, hx⟩
  · rintro ⟨g', hg', hid, hx⟩
    rwa [← List.inj_on_of_nodup_map hids hg' hg hid]

section Groups
variable {memGroupList : List Group} (hinhabited : Inhabited memGroupList)
  (hids : (memGroupList.map Group.id).Nodup)
  (hrecorded : ∀ w obj x, obj ≠ 1 → (HasAccess memGroupList w obj x ↔ Recorded aset dump w obj x))
include hinhabited hids hrecorded

theorem mem_sides_iff {g : Group} (hg : g ∈ memGroupList) (x : Text) :
    x ∈ g.stores ∨ x ∈ g.loads ↔ ∃ w, Recorded aset dump w g.id x := by
  simp only [← mem_group_iff hids hrecorded hg (hinhabited g hg).1, Bool.exists_bool]
  exact Or.comm

theorem inGroups_iff_reported (x : Text) : inGroups memGroupList x = true ↔ Reported aset dump x := by
  rw [mem_inGroups]
  constructor
  · rintro ⟨g, hg, hx⟩
    obtain ⟨w, hrec⟩ := (mem_sides_iff hinhabited hids hrecorded hg x).mp hx
    exact ⟨w, g.id, (hinhabited g hg).1, hrec⟩
  · rintro ⟨w, obj, hone, hrec⟩
    obtain ⟨g, hg, rfl, _⟩ := (hrecorded w obj x hone).mpr hrec
    exact ⟨g, hg, (mem_sides_iff hinhabited hids hrecorded hg x).mpr ⟨w, hrec⟩⟩

end Groups

end Dump

/-- Every script returns, the pairs are exact for the groups, and for a location that is reported
they are the ones that the dump shows to share an object. -/
def AnalysisExact (aset : Bool) (order : ObjectOrder) (orders : Nat → SetOrder × SetOrder)
    (o : Int → LocOrder) (dump : List DumpItem) (soList : List SoEntry) : Prop :=
  ∃ memGroupList, getAliasedInfo aset order (dumpLines dump) = some memGroupList ∧
    let groups := insertAll memGroupList (pureSo soList)
    let out := finish orders groups (pureSo soList)
    ∃ rows, dumpMempair o out.pureSoList out.memGroupList = some rows ∧
      MempairsExact (pureSo soList) groups out rows ∧
      ∀ a b, Reported aset dump a → ([a, b] ∈ rows.map (fun row => row.take 2) ↔
        a ≤ b ∧ isClose a b = true ∧ ∃ eA ∈ pureSo soList, ∃ eB ∈ pureSo soList,
          eA.loc = a ∧ eB.loc = b ∧ ∃ obj, obj ≠ 1 ∧ Shared aset dump eA eB obj)

/-- From the dump of the memory SSA and the so file to the pairs, whatever the orders of the sets. -/
theorem staticAnalysis_exact (aset : Bool) (order : ObjectOrder) (orders : Nat → SetOrder × SetOrder)
    (o : Int → LocOrder) {dump : List DumpItem} (hdump : ∀ item ∈ dump, item.looksLikeAccess = false)
    (hobjects : ∀ b ∈ dump, ∀ w obj, b.Accesses w obj → obj ∉ syntheticGroups.map Prod.fst)
    {lines : List Text} {soList : List SoEntry} (hread : readSo lines = some soList) :
    AnalysisExact aset order orders o dump soList := by
  obtain ⟨memGroupList, hrun, hids, hrecorded⟩ := @read_dump aset order dump hdump
  have hinhabited := inhabited_getAliasedInfo hrun
  have hnodup := pureSo_nodup soList
  have hmem : ∀ g ∈ memGroupList, ∀ w x, x ∈ g.side w ↔ Recorded aset dump w g.id x :=
    fun g hg => mem_group_iff hids hrecorded hg (hinhabited g hg).1
  have hsynthetic : ∀ g ∈ memGroupList, g.id ∉ syntheticGroups.map Prod.fst := by
    intro g hg
    obtain ⟨w, x, hx⟩ := (hinhabited g hg).2
    obtain ⟨b, hb, haccess⟩ := accesses_of_recorded ((hmem g hg w x).mp hx)
    exact hobjects b hb w g.id haccess
  obtain ⟨rows, hrows, hexact⟩ := mempairs_exact orders o hread memGroupList
    (insertAll_ids hnodup hids hsynthetic)
  refine ⟨memGroupList, hrun, rows, hrows, hexact, fun a b hreported => ?_⟩
  have hsides := @mem_sides_iff _ _ _ hinhabited hids hrecorded
  have hread' : ∀ g ∈ memGroupList, ∀ e : SoEntry,
      g.OnlyReads e ↔ isAccess e.typ = true ∧ ¬ Recorded aset dump true g.id e.loc :=
    fun g hg e => and_congr_right fun _ => not_congr (hmem g hg true e.loc)
  have hknown : inGroups memGroupList a = true :=
    (inGroups_iff_reported hinhabited hids hrecorded a).mpr hreported
  rw [hexact.pairs]
  constructor
  · rintro ⟨hle, hclose, eA, heA, eB, heB, rfl, rfl, g, hg, hinA, hinB, hboth⟩
    have hold := mem_of_known hnodup hg hinA hknown
    rw [hread' g hold, hread' g hold] at hboth
    exact ⟨hle, hclose, eA, heA, eB, heB, rfl, rfl, g.id, (hinhabited g hold).1,
      (hsides hold _).mp hinA, (hsides hold _).mp hinB, hboth⟩
  · rintro ⟨hle, hclose, eA, heA, eB, heB, rfl, rfl, obj, hone, ⟨w, hrecA⟩, hrecB, hboth⟩
    obtain ⟨g, hg, rfl, _⟩ := (hrecorded w obj eA.loc hone).mpr hrecA
    rw [← hread' g hg, ← hread' g hg] at hboth
    exact ⟨hle, hclose, eA, heA, eB, heB, rfl, rfl, g, mem_insertAll_of_mem hnodup hg,
      (hsides hg _).mpr ⟨w, hrecA⟩, (hsides hg _).mpr hrecB, hboth⟩

def storeAndLoad : List DumpItem :=
  [.block [⟨true, 6, 2, 1, [116]⟩] "./uaf.c:8:5".toList "i32".toList,
    .block [⟨false, 6, 0, 2, [116]⟩] "./uaf.c:29:7".toList "i32".toList]

theorem staticAnalysis_exact_uaf :
    AnalysisExact false .sorted (fun _ => (.sorted, .sorted)) (fun _ => ⟨.sorted, .sorted, .sorted⟩)
      storeAndLoad [⟨"uaf.c:8".toList, typRW, "main".toList, "11".toList⟩,
        ⟨"uaf.c:29".toList, "free".toList, "main".toList, "22".toList⟩] := by
  refine @staticAnalysis_exact _ _ _ _ _ (by decide) ?_
    ["uaf.c:8 R/W main 11".toList, "uaf.c:29 free main 22".toList] _ (by decide)
  have hpts : ∀ obj ∈ [(116 : Int)], obj ∉ syntheticGroups.map Prod.fst := by decide
  intro b hb w obj haccess
  simp only [storeAndLoad, List.mem_cons, List.not_mem_nil, or_false] at hb
  rcases hb with rfl | rfl
  · obtain ⟨a, ha, _, hobj⟩ := haccess
    obtain rfl := List.mem_singleton.mp ha
    exact hpts obj hobj
  · obtain ⟨a, ha, _, hobj⟩ := haccess
    obtain rfl := List.mem_singleton.mp ha
    exact hpts obj hobj

end Period.Analysis
