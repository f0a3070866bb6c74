import Mathlib.Data.Set.List
import Period.Analysis.Reported
import Period.Analysis.SoFile
import Period.Pass.Configured

/-!
# The whole static analysis

The scripts and passes as `staticAnalysis.sh` runs them, each on what the one before printed: the
locations of the dump, the so file, the locations that are kept, and the instrumentation.
-/

namespace Period.Analysis

open Period.Driver (contains)
open Period.Pass (Module Search SoInst Shape Found Instruments Item getSourceLoc eraseDotSlash tracked colon
  readConLines readConFirst readConFirst_eq mem_conLines carriageReturn)
set_option autoImplicit false

def locSet (saveList : List Group) : Finset Text := saveList.foldl (fun s each => s ∪ each.stores ∪ each.loads) ∅

def isSystem (each : Text) : Bool :=
  contains each "/usr/lib/gcc/x86_64-linux-gnu" || ":0".toList.isSuffixOf each

def firstConConfig (saveList : List Group) : List Text :=
  (SetOrder.sorted.elems (locSet saveList)).filter fun each => !isSystem each

theorem mem_locSet {saveList : List Group} {x : Text} :
    x ∈ locSet saveList ↔ ∃ g ∈ saveList, x ∈ g.stores ∨ x ∈ g.loads := by
  have hfold : ∀ (l : List Group) (s : Finset Text),
      x ∈ l.foldl (fun s each => s ∪ each.stores ∪ each.loads) s ↔
        x ∈ s ∨ ∃ g ∈ l, x ∈ g.stores ∨ x ∈ g.loads := by
    intro l
    induction l with
    | nil => simp
    | cons g l ih =>
      intro s
      rw [List.foldl_cons, ih, Finset.mem_union, Finset.mem_union, List.exists_mem_cons_iff, or_assoc, or_assoc,
        or_assoc]
  rw [locSet, hfold, or_iff_right (Finset.notMem_empty x)]

theorem mem_firstConConfig {saveList : List Group} {x : Text} :
    x ∈ firstConConfig saveList ↔ inGroups saveList x = true ∧ isSystem x = false := by
  rw [firstConConfig, List.mem_filter, SetOrder.mem_elems, mem_locSet, mem_inGroups, Bool.not_eq_true']

section Finish
variable {pureSoList : List SoEntry} (hnodup : (pureSoList.map SoEntry.loc).Nodup)
  (orders : Nat → SetOrder × SetOrder) {groups : List Group} {e : SoEntry}
include hnodup

/-- The location of an entry is kept when a group has it that is not only read. -/
theorem mem_conConfigList_finish (he : e ∈ pureSoList) :
    e.loc ∈ (finish orders groups pureSoList).conConfigList ↔
      ∃ g ∈ groups, (e.loc ∈ g.stores ∨ e.loc ∈ g.loads) ∧
        ∃ e' ∈ pureSoList, (e'.loc ∈ g.stores ∨ e'.loc ∈ g.loads) ∧ ¬ g.OnlyReads e' := by
  rw [mem_finish_conConfigList, finish_memGroupList hnodup]
  constructor
  · rintro ⟨g', hg', hin⟩
    obtain ⟨hg', hkept⟩ := List.mem_filter.mp hg'
    obtain ⟨g, hg, rfl⟩ := List.mem_map.mp hg'
    have htells : ∃ typ, (restricted pureSoList g).Tells e.loc typ := by
      rcases hin with hin | hin | hin
      · exact ⟨_, Or.inl ⟨hin, rfl⟩⟩
      · exact ⟨_, Or.inr (Or.inl ⟨hin, rfl⟩)⟩
      · exact ⟨_, Or.inr (Or.inr ⟨hin, rfl⟩)⟩
    have hother : ∃ x typ, typ ≠ typR ∧ (restricted pureSoList g).Tells x typ := by
      rcases of_decide_eq_true hkept with hstores | hothers
      · obtain ⟨x, hx⟩ := Finset.nonempty_iff_ne_empty.mpr hstores
        exact ⟨x, typW, by decide, Or.inl ⟨hx, rfl⟩⟩
      · obtain ⟨x, hx⟩ := Finset.nonempty_iff_ne_empty.mpr hothers
        exact ⟨x, typS, by decide, Or.inr (Or.inr ⟨hx, rfl⟩)⟩
    obtain ⟨typ, htells⟩ := htells
    obtain ⟨x, typ', hread, hother⟩ := hother
    obtain ⟨_, _, _, hloc, _⟩ := exists_entry_of_tells htells
    obtain ⟨e', he', rfl, hin', honly⟩ := exists_entry_of_tells hother
    exact ⟨g, hg, hloc, e', he', hin', fun h => hread (honly h)⟩
  · rintro ⟨g, hg, hin, e', he', hin', hread⟩
    have hkept : (restricted pureSoList g).stores ≠ ∅ ∨ (restricted pureSoList g).others ≠ ∅ :=
      kept_of_tells (tells_typeIn he' hin') fun h => hread (onlyReads_of_typeIn h)
    refine ⟨_, List.mem_filter.mpr ⟨List.mem_map_of_mem hg, decide_eq_true hkept⟩, ?_⟩
    exact (tells_typeIn he hin).imp And.left (Or.imp And.left And.left)

end Finish

/-- The location of the entry is kept: some object is accessed there, and written or used by a
sensitive operation somewhere; or the dump does not report it, and its operation gets a group. -/
def Kept (aset : Bool) (dump : List DumpItem) (pureSoList : List SoEntry) (e : SoEntry) : Prop :=
  (∃ obj, obj ≠ 1 ∧ (∃ w, Recorded aset dump w obj e.loc) ∧
    ∃ e' ∈ pureSoList, (∃ w, Recorded aset dump w obj e'.loc) ∧
      (isAccess e'.typ = true → Recorded aset dump true obj e'.loc)) ∨
  ¬ Reported aset dump e.loc ∧ e.typ ∈ sensitiveTypes

section Groups
variable {aset : Bool} {dump : List DumpItem} {memGroupList : List Group}
  (hinhabited : Inhabited memGroupList) (hids : (memGroupList.map Group.id).Nodup)
  (hrecorded : ∀ w obj x, obj ≠ 1 → (HasAccess memGroupList w obj x ↔ Recorded aset dump w obj x))
include hinhabited hids hrecorded

/-- What the script keeps is told by the dump and the types. -/
theorem mem_conConfigList_iff_kept {pureSoList : List SoEntry} (hnodup : (pureSoList.map SoEntry.loc).Nodup)
    (orders : Nat → SetOrder × SetOrder) {e : SoEntry} (he : e ∈ pureSoList) :
    e.loc ∈ (finish orders (insertAll memGroupList pureSoList) pureSoList).conConfigList ↔
      Kept aset dump pureSoList e := by
  have hsides := @mem_sides_iff _ _ _ hinhabited hids hrecorded
  have hread : ∀ g ∈ memGroupList, ∀ e' : SoEntry,
      ¬ g.OnlyReads e' ↔ (isAccess e'.typ = true → Recorded aset dump true g.id e'.loc) := by
    intro g hg e'
    rw [Group.OnlyReads, not_and, not_not]
    exact imp_congr_right fun _ => mem_group_iff hids hrecorded hg (hinhabited g hg).1 true e'.loc
  have hreported := inGroups_iff_reported hinhabited hids hrecorded e.loc
  rw [mem_conConfigList_finish hnodup orders he]
  constructor
  · rintro ⟨g, hg, hin, e', he', hin', hnot⟩
    by_cases hold : g ∈ memGroupList
    · exact Or.inl ⟨g.id, (hinhabited g hold).1, (hsides hold _).mp hin, e', he', (hsides hold _).mp hin',
        (hread g hold e').mp hnot⟩
    · -- a group of unknown locations
      obtain ⟨A, B, hsplit, hplaced⟩ := insertAll_placed memGroupList hnodup
      rw [insertAll, hplaced.groups, List.mem_append, or_iff_right hold] at hg
      have hnew : ∃ l, (∀ a ∈ l, a ∈ A ++ B) ∧ g ∈ groupOf l := (List.mem_append.mp hg).elim
        (fun h => ⟨A, fun a ha => List.mem_append_left B ha, h⟩)
        (fun h => ⟨B, fun a ha => List.mem_append_right A ha, h⟩)
      obtain ⟨l, hl, hgl⟩ := hnew
      obtain ⟨hloads, hstores, _⟩ := mem_groupOf hgl
      rw [hloads, or_iff_left (Finset.notMem_empty _), hstores] at hin
      obtain ⟨a, ha, hloc⟩ := hin
      obtain ⟨hpure, htyp, hunknown⟩ := mem_unknownEntries.mp (hsplit ▸ hl a ha)
      obtain rfl := List.inj_on_of_nodup_map hnodup hpure he hloc
      exact Or.inr ⟨fun h => absurd (hreported.mpr h) (hunknown ▸ Bool.false_ne_true), htyp⟩
  · rintro (⟨obj, hone, ⟨w, hrec⟩, e', he', hrec', hwrite⟩ | ⟨hunreported, htyp⟩)
    · obtain ⟨g, hg, rfl, _⟩ := (hrecorded w obj e.loc hone).mpr hrec
      exact ⟨g, mem_insertAll_of_mem hnodup hg, (hsides hg _).mpr ⟨w, hrec⟩, e', he', (hsides hg _).mpr hrec',
        (hread g hg e').mpr hwrite⟩
    · obtain ⟨A, B, hsplit, hplaced⟩ := insertAll_placed memGroupList hnodup
      have hunknown : e ∈ A ++ B := hsplit ▸ mem_unknownEntries.mpr
        ⟨he, htyp, Bool.eq_false_iff.mpr fun h => hunreported (hreported.mp h)⟩
      have hnew : ∃ g ∈ groupOf A ++ groupOf B, e.loc ∈ g.stores := by
        rcases List.mem_append.mp hunknown with hA | hB
        · obtain ⟨g, hg, hin⟩ := exists_groupOf hA
          exact ⟨g, List.mem_append_left _ hg, hin⟩
        · obtain ⟨g, hg, hin⟩ := exists_groupOf hB
          exact ⟨g, List.mem_append_right _ hg, hin⟩
      obtain ⟨g, hg, hin⟩ := hnew
      have haccess : isAccess e.typ = false := isAccess_eq_false htyp (le_refl _)
      refine ⟨g, ?_, Or.inl hin, e, he, Or.inl hin, fun h => ?_⟩
      · rw [insertAll, hplaced.groups]
        exact List.mem_append_right _ hg
      · rw [Group.OnlyReads, haccess] at h
        cases h.1

end Groups

/-! ## From the dump to the instrumentation -/

section Pipeline
variable (m : Module) (s : Search m.n) (getFuncname : List Char → List Char) (shapes : Fin m.n → Shape)
  (insts : Fin m.n → List SoInst)

/-- Every program of the pipeline reads what the one before printed. The first ConConfig has the
locations of the dump, and with those of the sensitive functions it makes the so file, behind the
lines for the calls. An instruction is instrumented exactly when a location of the so file that is
kept ends with its own. -/
structure PipelineExact (aset : Bool) (orders : Nat → SetOrder × SetOrder) (dump : List DumpItem)
    (saveList : List Group) (locs : List Text) (soList : List SoEntry) : Prop where
  lines : let found := m.collect getFuncname shapes insts
    found.conLines (printed (firstConConfig saveList)) = locs.map encode
  configured : let found := m.collect getFuncname shapes insts
    ∀ line, line ∈ locs.map encode ↔ (∃ loc, Reported aset dump loc ∧ isSystem loc = false ∧
      encode loc = line) ∨ line ∈ found.mutexLockSet ∨ line ∈ found.soFuncSet
  files : let found := m.collect getFuncname shapes insts
    ∀ header, (∀ line ∈ header, isDebug line = true) → ∃ lines,
      soFile header m s insts (found.soConfig getFuncname) (found.conLines (printed (firstConConfig saveList))) =
        lines.map encode ∧ readSo lines = some soList
  entries : let found := m.collect getFuncname shapes insts
    ∀ e, e ∈ soList ↔ DebugEntry m e ∨ e.hash = printedHash e.loc ∧ ∃ f, m.isFiltered s f = false ∧
      (m.fn f).name = e.function ∧ ∃ inst ∈ insts f, locOf locs inst = some e.loc ∧
        e.typ ∈ (found.soConfig getFuncname).kinds inst
  instrumented : let out := finish orders (insertAll saveList (pureSo soList)) (pureSo soList)
    ∀ (onlyPthreadCreate : Bool) (lastLocString : Pass.Text) (x : Item), tracked x = true →
      lastLocString ≠ getSourceLoc x → colon ∈ getSourceLoc x →
      (Instruments (readConLines (printed out.conConfigList)) onlyPthreadCreate lastLocString x ↔
        ∃ e ∈ pureSo soList, Kept aset dump (pureSo soList) e ∧ eraseDotSlash (getSourceLoc x) <:+ encode e.loc)

def IsLoc (text : Text) : Prop := IsWord text ∧ isDebug text = false

theorem readConFirst_printed {l : List Text} (h : ∀ loc ∈ l, IsWord loc) :
    readConFirst (printed l) = l.map encode := by
  rw [readConFirst_eq, getlines_printed h]
  intro line hline
  rw [getlines_printed h] at hline
  obtain ⟨loc, hloc, rfl⟩ := List.mem_map.mp hline
  exact ⟨encode_ne_nil (h loc hloc), fun hlast =>
    notMem_encode (h loc hloc) (by decide) (by decide) (List.mem_of_getLast? hlast)⟩

end Pipeline

/-- The store and the `free` behind the two locations of the dump, in two functions. -/
def storeThenFree : Fin 3 → List SoInst :=
  ![[], [⟨.store, [[], []], none, false, encode "uaf.c:8".toList⟩],
    [⟨.call, [[], "free".toList], some "free".toList, false, encode "uaf.c:29".toList⟩]]

theorem isLoc_storeAndLoad {loc : Text} (h : Reported false storeAndLoad loc) : IsLoc loc := by
  obtain ⟨_, _, _, pre, b, post, hsplit, _, hloc, _⟩ := h
  have hlocs : ∀ b ∈ storeAndLoad, ∃ x ∈ ["uaf.c:8".toList, "uaf.c:29".toList], b.sourceLoc false = some x := by
    intro b hb
    simp only [storeAndLoad, List.mem_cons, List.not_mem_nil, or_false] at hb
    rcases hb with rfl | rfl
    · exact ⟨"uaf.c:8".toList, by decide, by decide⟩
    · exact ⟨"uaf.c:29".toList, by decide, by decide⟩
  have hall : ∀ x ∈ ["uaf.c:8".toList, "uaf.c:29".toList], IsWord x ∧ isDebug x = false := by decide
  obtain ⟨x, hx, heq⟩ := hlocs b (hsplit ▸ by simp)
  obtain rfl := Option.some.inj (hloc.symm.trans heq)
  exact hall _ hx

end Period.Analysis
