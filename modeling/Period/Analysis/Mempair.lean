import Period.Analysis.Cleaning
import Period.Analysis.Words
import Period.Foundation.OrderedDict

/-!
# `DumpMempair.py`

The groups are paired: two locations of one memory object that are not both only read there.
Pairs are sorted, set in a dictionary, printed as lines that are split again, and given the
types and the hashes of the entries of their locations.
-/

namespace Period.Analysis

open Period.Driver (contains strip)
open Rearrangement
set_option autoImplicit false

/-- The type of a location that is no access. -/
abbrev typS : Text := "S".toList

structure MemoryLocation where
  storeInsn : Finset Text
  loadInsn : Finset Text
  soInsn : Finset Text

/-- `add_source_loc` for the locations of the three sets of a group. -/
def MemoryLocation.addGroup (m : MemoryLocation) (key : Group) : MemoryLocation where
  storeInsn := m.storeInsn ∪ key.stores
  loadInsn := m.loadInsn ∪ key.loads
  soInsn := m.soInsn ∪ key.others

def addKey (memoryLocations : OrderedDict Int MemoryLocation) (key : Group) :
    OrderedDict Int MemoryLocation :=
  memoryLocations.set key.id (((memoryLocations.get? key.id).getD ⟨∅, ∅, ∅⟩).addGroup key)

def memoryLocations (memGroupList : List Group) : OrderedDict Int MemoryLocation :=
  memGroupList.foldl addKey OrderedDict.empty

/-- The order in which the three sets of a memory location are iterated over. -/
structure LocOrder where
  store : SetOrder
  load : SetOrder
  so : SetOrder

abbrev Mempair := (Text × Text) × (Text × Text)

/-- `itertools.product`, with one pair of types for all pairs. -/
def pairsOf (l l' : List Text) (typ : Text × Text) : List Mempair :=
  (l.product l').map fun mempair => (mempair, typ)

def MemoryLocation.generateMempair (o : LocOrder) (m : MemoryLocation) : List Mempair :=
  let store := o.store.elems m.storeInsn
  let load := o.load.elems m.loadInsn
  let so := o.so.elems m.soInsn
  pairsOf store store (typW, typW) ++ pairsOf store load (typW, typR) ++
    pairsOf so so (typS, typS) ++ pairsOf so store (typS, typW) ++ pairsOf so load (typS, typR)

def sortMempair (x : Mempair) : Mempair :=
  if x.1.2 < x.1.1 then ((x.1.2, x.1.1), (x.2.2, x.2.1)) else x

/-- `add`. A pair that is added again takes the new types. -/
def addMempairs (dedupedMempair : OrderedDict (Text × Text) (Text × Text)) (mempairs : List Mempair) :
    OrderedDict (Text × Text) (Text × Text) :=
  dedupedMempair.setAll (mempairs.map sortMempair)

def dedupedMempair (o : Int → LocOrder) (memGroupList : List Group) :
    OrderedDict (Text × Text) (Text × Text) :=
  (memoryLocations memGroupList).entries.foldl
    (fun d x => addMempairs d (x.2.generateMempair (o x.1))) OrderedDict.empty

def Mempair.words (x : Mempair) : List Text := [x.1.1, x.1.2, x.2.1, x.2.2]

def sortedItems (d : OrderedDict (Text × Text) (Text × Text)) : List Mempair :=
  d.entries.mergeSort fun x y => decide (Mempair.words x ≤ Mempair.words y)

def Mempair.line (x : Mempair) : Text :=
  x.1.1 ++ ' ' :: (x.1.2 ++ ' ' :: (x.2.1 ++ ' ' :: x.2.2))

/-- `os.path.dirname`. -/
def dirname (path : Text) : Text :=
  let head := path.rdropWhile (· ≠ '/')
  if head.all (· = '/') then head else head.rdropWhile (· = '/')

/-- No location in a header, and one directory in the other. -/
def isClose (a b : Text) : Bool :=
  !(contains a ".h" || contains b ".h") &&
    (decide (dirname a <:+: dirname b) || decide (dirname b <:+: dirname a))

/-- One line. `none` is `exit(1)`. -/
def pruneLine (mempairList : List (List Text)) (line : Text) : Option (List (List Text)) :=
  let toks := split (strip line)
  if toks.length ≠ 2 ∧ toks.length ≠ 4 ∧ toks.length ≠ 6 then none
  else
    match toks with
    | a :: b :: _ => if isClose a b then some (mempairList ++ [toks]) else some mempairList
    | _ => none

/-- `each[hash] = eachSo[3]`, and `each[typ] = eachSo[1]` for an `S`. -/
def annotateSide (typ hash : Nat) (eachSo : SoEntry) (each : List Text) : Option (List Text) :=
  if hash < each.length then
    let each := each.set hash eachSo.hash
    some (if each[typ]? = some typS then each.set typ eachSo.typ else each)
  else none

def annotateSo (each : List Text) (eachSo : SoEntry) : Option (List Text) := do
  let each ← if each[0]? = some eachSo.loc then annotateSide 2 4 eachSo each else some each
  if each[1]? = some eachSo.loc then annotateSide 3 5 eachSo each else some each

def annotate (pureSoList : List SoEntry) (toks : List Text) : Option (List Text) :=
  pureSoList.foldlM annotateSo (toks ++ [[], []])

def dumpMempair (o : Int → LocOrder) (pureSoList : List SoEntry) (memGroupList : List Group) :
    Option (List (List Text)) := do
  let lines := (sortedItems (dedupedMempair o memGroupList)).map Mempair.line
  let mempairList ← lines.foldlM pruneLine []
  mempairList.mapM (annotate pureSoList)

def Group.Tells (g : Group) (x typ : Text) : Prop :=
  x ∈ g.stores ∧ typ = typW ∨ x ∈ g.loads ∧ typ = typR ∨ x ∈ g.others ∧ typ = typS

/-- What is told of two locations of one memory object, not both only read. -/
def Conflict (memGroupList : List Group) (a typA b typB : Text) : Prop :=
  (∃ g ∈ memGroupList, g.Tells a typA ∧ ∃ g' ∈ memGroupList, g'.id = g.id ∧ g'.Tells b typB) ∧
    ¬ (typA = typR ∧ typB = typR)

def MemoryLocation.Tells (m : MemoryLocation) (x typ : Text) : Prop :=
  x ∈ m.storeInsn ∧ typ = typW ∨ x ∈ m.loadInsn ∧ typ = typR ∨ x ∈ m.soInsn ∧ typ = typS

theorem tells_addGroup (m : MemoryLocation) (g : Group) (x typ : Text) :
    (m.addGroup g).Tells x typ ↔ m.Tells x typ ∨ g.Tells x typ := by
  simp only [MemoryLocation.Tells, Group.Tells, MemoryLocation.addGroup, Finset.mem_union, or_and_right]
  rw [@or_or_or_comm (x ∈ m.loadInsn ∧ typ = typR), or_or_or_comm]

/-- A memory location for each id, with what the groups of the id tell. -/
structure Located (done : List Group) (d : OrderedDict Int MemoryLocation) : Prop where
  keys : ∀ g ∈ done, g.id ∈ d.keys
  tells : ∀ id m, (id, m) ∈ d.entries → ∀ x typ, m.Tells x typ ↔ ∃ g ∈ done, g.id = id ∧ g.Tells x typ

theorem Located.tells_getD {done : List Group} {d : OrderedDict Int MemoryLocation} (h : Located done d)
    (id : Int) (x typ : Text) :
    ((d.get? id).getD ⟨∅, ∅, ∅⟩).Tells x typ ↔ ∃ g ∈ done, g.id = id ∧ g.Tells x typ := by
  cases hget : d.get? id with
  | some m => exact h.tells id m (OrderedDict.get?_eq_some.mp hget) x typ
  | none =>
    apply iff_of_false
    · simp [MemoryLocation.Tells]
    · rintro ⟨g, hg, rfl, _⟩
      exact OrderedDict.get?_eq_none.mp hget (h.keys g hg)

theorem Located.addKey {done : List Group} {d : OrderedDict Int MemoryLocation} (h : Located done d)
    (key : Group) : Located (done ++ [key]) (addKey d key) := by
  constructor
  · intro g hg
    apply OrderedDict.mem_keys_set.mpr
    rcases List.mem_append.mp hg with hg | hg
    · exact Or.inr (h.keys g hg)
    · exact Or.inl (congrArg Group.id (List.mem_singleton.mp hg))
  · intro id m hm x typ
    simp only [List.mem_append, List.mem_singleton, or_and_right, exists_or, exists_eq_left]
    rcases OrderedDict.mem_entries_set.mp hm with heq | ⟨hold, hne⟩
    · obtain ⟨rfl, rfl⟩ := Prod.mk.inj heq
      rw [tells_addGroup, h.tells_getD]
      simp only [true_and]
    · rw [h.tells id m hold x typ, or_iff_left]
      exact fun hkey => hne hkey.1.symm

theorem located_memoryLocations (memGroupList : List Group) :
    Located memGroupList (memoryLocations memGroupList) := by
  have hrun : ∀ (rest done : List Group) (d : OrderedDict Int MemoryLocation), Located done d →
      Located (done ++ rest) (rest.foldl addKey d) := by
    intro rest
    induction rest with
    | nil => exact fun done d h => by rwa [List.append_nil]
    | cons key rest ih =>
      intro done d h
      rw [List.foldl_cons, List.append_cons]
      exact ih _ _ (h.addKey key)
  exact hrun memGroupList [] _ ⟨by simp, fun id m hm => absurd hm List.not_mem_nil⟩

theorem mem_pairsOf {l l' : List Text} {typ : Text × Text} {x : Mempair} :
    x ∈ pairsOf l l' typ ↔ x.1.1 ∈ l ∧ x.1.2 ∈ l' ∧ x.2 = typ := by
  obtain ⟨⟨a, b⟩, t⟩ := x
  simp only [pairsOf, List.mem_map, Prod.mk.injEq, Prod.exists]
  constructor
  · rintro ⟨a', b', hin, ⟨rfl, rfl⟩, rfl⟩
    exact ⟨(List.pair_mem_product.mp hin).1, (List.pair_mem_product.mp hin).2, rfl⟩
  · rintro ⟨ha, hb, rfl⟩
    exact ⟨a, b, List.pair_mem_product.mpr ⟨ha, hb⟩, ⟨rfl, rfl⟩, rfl⟩

def pairTypes : List (Text × Text) :=
  [(typW, typW), (typW, typR), (typS, typS), (typS, typW), (typS, typR)]

theorem pairTypes_cover : ∀ typA ∈ [typW, typR, typS], ∀ typB ∈ [typW, typR, typS],
    ¬ (typA = typR ∧ typB = typR) → (typA, typB) ∈ pairTypes ∨ (typB, typA) ∈ pairTypes := by
  decide

theorem mem_generateMempair (o : LocOrder) (m : MemoryLocation) (x : Mempair) :
    x ∈ m.generateMempair o ↔ m.Tells x.1.1 x.2.1 ∧ m.Tells x.1.2 x.2.2 ∧ x.2 ∈ pairTypes := by
  obtain ⟨⟨a, b⟩, tA, tB⟩ := x
  simp only [MemoryLocation.generateMempair, List.mem_append, mem_pairsOf, SetOrder.mem_elems,
    MemoryLocation.Tells, pairTypes, List.mem_cons, List.not_mem_nil, or_false, Prod.mk.injEq]
  have hWR : typW ≠ typR := by decide
  have hWS : typW ≠ typS := by decide
  have hRS : typR ≠ typS := by decide
  constructor
  · rintro ((((⟨ha, hb, rfl, rfl⟩ | ⟨ha, hb, rfl, rfl⟩) | ⟨ha, hb, rfl, rfl⟩) | ⟨ha, hb, rfl, rfl⟩) |
      ⟨ha, hb, rfl, rfl⟩) <;> simp [ha, hb]
  · rintro ⟨hA, hB, ⟨rfl, rfl⟩ | ⟨rfl, rfl⟩ | ⟨rfl, rfl⟩ | ⟨rfl, rfl⟩ | ⟨rfl, rfl⟩⟩ <;>
      simp_all [Ne.symm]

/-! ## Deduplication -/

theorem Group.Tells.typ_mem {g : Group} {x typ : Text} (h : g.Tells x typ) :
    typ ∈ [typW, typR, typS] := by
  rcases h with ⟨_, rfl⟩ | ⟨_, rfl⟩ | ⟨_, rfl⟩ <;> simp

section Pairs
variable {o : Int → LocOrder} {memGroupList : List Group} {a b typA typB : Text}

theorem Conflict.symm (h : Conflict memGroupList a typA b typB) : Conflict memGroupList b typB a typA := by
  obtain ⟨⟨g, hg, hA, g', hg', hid, hB⟩, hread⟩ := h
  exact ⟨⟨g', hg', hB, g, hg, hid.symm, hA⟩, fun hboth => hread hboth.symm⟩

theorem conflict_of_generated {id : Int} {m : MemoryLocation} {x : Mempair}
    (hm : (id, m) ∈ (memoryLocations memGroupList).entries) (hx : x ∈ m.generateMempair (o id)) :
    Conflict memGroupList x.1.1 x.2.1 x.1.2 x.2.2 := by
  have htells := (located_memoryLocations memGroupList).tells id m hm
  obtain ⟨hA, hB, htypes⟩ := (mem_generateMempair (o id) m x).mp hx
  obtain ⟨g, hg, rfl, hA⟩ := (htells _ _).mp hA
  obtain ⟨g', hg', hid, hB⟩ := (htells _ _).mp hB
  refine ⟨⟨g, hg, hA, g', hg', hid, hB⟩, fun hread => ?_⟩
  have hnot : (typR, typR) ∉ pairTypes := by decide
  have heq : x.2 = (typR, typR) := Prod.ext hread.1 hread.2
  exact hnot (heq ▸ htypes)

theorem generated_of_conflict (h : Conflict memGroupList a typA b typB) :
    ∃ id m, (id, m) ∈ (memoryLocations memGroupList).entries ∧
      (((a, b), (typA, typB)) ∈ m.generateMempair (o id) ∨
        ((b, a), (typB, typA)) ∈ m.generateMempair (o id)) := by
  obtain ⟨⟨g, hg, hA, g', hg', hid, hB⟩, hread⟩ := h
  have hlocated := located_memoryLocations memGroupList
  obtain ⟨⟨id, m⟩, hm, rfl⟩ := List.mem_map.mp (hlocated.keys g hg)
  have htells := hlocated.tells _ m hm
  have hmA := (htells a typA).mpr ⟨g, hg, rfl, hA⟩
  have hmB := (htells b typB).mpr ⟨g', hg', hid, hB⟩
  refine ⟨_, m, hm, ?_⟩
  rw [mem_generateMempair, mem_generateMempair]
  exact (pairTypes_cover _ hA.typ_mem _ hB.typ_mem hread).imp (fun h => ⟨hmA, hmB, h⟩)
    fun h => ⟨hmB, hmA, h⟩

theorem sortMempair_le (x : Mempair) : (sortMempair x).1.1 ≤ (sortMempair x).1.2 := by
  unfold sortMempair
  split
  · next hlt => exact le_of_lt hlt
  · next hge => exact not_lt.mp hge

theorem conflict_sortMempair {x : Mempair} (h : Conflict memGroupList x.1.1 x.2.1 x.1.2 x.2.2) :
    Conflict memGroupList (sortMempair x).1.1 (sortMempair x).2.1 (sortMempair x).1.2
      (sortMempair x).2.2 := by
  unfold sortMempair
  split
  · exact h.symm
  · exact h

theorem sortMempair_key (hab : a ≤ b) (typ : Text × Text) :
    (sortMempair ((a, b), typ)).1 = (a, b) ∧ (sortMempair ((b, a), typ)).1 = (a, b) := by
  constructor
  · rw [sortMempair, if_neg (not_lt.mpr hab)]
  · rw [sortMempair]
    dsimp only
    split
    · rfl
    · next hge => rw [le_antisymm hab (not_lt.mp hge)]

def allMempairs (o : Int → LocOrder) (memGroupList : List Group) : List Mempair :=
  (memoryLocations memGroupList).entries.flatMap fun x => (x.2.generateMempair (o x.1)).map sortMempair

theorem dedupedMempair_eq : dedupedMempair o memGroupList =
    OrderedDict.empty.setAll (allMempairs o memGroupList) := by
  rw [OrderedDict.setAll, allMempairs, List.foldl_flatMap]
  rfl

theorem mem_keys_dedupedMempair : (a, b) ∈ (dedupedMempair o memGroupList).keys ↔
    a ≤ b ∧ ∃ typA typB, Conflict memGroupList a typA b typB := by
  have hempty : (a, b) ∉ (OrderedDict.empty : OrderedDict (Text × Text) (Text × Text)).keys :=
    List.not_mem_nil
  rw [dedupedMempair_eq, OrderedDict.mem_keys_setAll, or_iff_right hempty]
  constructor
  · intro h
    obtain ⟨y, hy, hkey⟩ := List.mem_map.mp h
    obtain ⟨⟨id, m⟩, hm, hy⟩ := List.mem_flatMap.mp hy
    obtain ⟨x, hx, rfl⟩ := List.mem_map.mp hy
    have hle := sortMempair_le x
    have hconflict := conflict_sortMempair (conflict_of_generated hm hx)
    rw [hkey] at hle hconflict
    exact ⟨hle, _, _, hconflict⟩
  · rintro ⟨hab, typA, typB, hconflict⟩
    obtain ⟨id, m, hm, hx | hx⟩ := @generated_of_conflict o _ _ _ _ _ hconflict
    · refine List.mem_map.mpr ⟨_, ?_, (sortMempair_key hab (typA, typB)).1⟩
      exact List.mem_flatMap.mpr ⟨_, hm, List.mem_map_of_mem hx⟩
    · refine List.mem_map.mpr ⟨_, ?_, (sortMempair_key hab (typB, typA)).2⟩
      exact List.mem_flatMap.mpr ⟨_, hm, List.mem_map_of_mem hx⟩

theorem conflict_of_mem_dedupedMempair {x : Mempair} (h : x ∈ (dedupedMempair o memGroupList).entries) :
    Conflict memGroupList x.1.1 x.2.1 x.1.2 x.2.2 := by
  rw [dedupedMempair_eq] at h
  rcases OrderedDict.mem_entries_of_setAll h with hnil | hin
  · exact absurd hnil List.not_mem_nil
  · obtain ⟨⟨id, m⟩, hm, hin⟩ := List.mem_flatMap.mp hin
    obtain ⟨x, hx, rfl⟩ := List.mem_map.mp hin
    exact conflict_sortMempair (conflict_of_generated hm hx)

theorem sortedItems_pairwise (d : OrderedDict (Text × Text) (Text × Text)) :
    ((sortedItems d).map fun x => [x.1.1, x.1.2]).Pairwise (· < ·) := by
  have hsorted := @List.pairwise_mergeSort Mempair (fun x y => decide (x.words ≤ y.words))
    (fun x y z hxy hyz => decide_eq_true (le_trans (of_decide_eq_true hxy) (of_decide_eq_true hyz)))
    (fun x y => by
      rw [Bool.or_eq_true, decide_eq_true_eq, decide_eq_true_eq]
      exact le_total x.words y.words) d.entries
  have hdistinct : (sortedItems d).Pairwise fun x y => x.1 ≠ y.1 :=
    List.pairwise_map.mp ((List.mergeSort_perm d.entries _).map Prod.fst |>.nodup_iff.mpr d.nodup)
  rw [List.pairwise_map]
  apply (hsorted.and hdistinct).imp
  intro x y ⟨hle, hne⟩
  have hwords : x.words ≤ y.words := of_decide_eq_true hle
  rw [lt_cons_iff, lt_cons_iff]
  rcases le_cons_iff.mp hwords with hlt | ⟨hfst, hwords⟩
  · exact Or.inl hlt
  · rcases le_cons_iff.mp hwords with hlt | ⟨hsnd, _⟩
    · exact Or.inr ⟨hfst, Or.inl hlt⟩
    · exact absurd (Prod.ext hfst hsnd) hne

end Pairs

theorem isWord_typ : ∀ typ ∈ [typW, typR, typS], IsWord typ := by
  decide

section Lines
variable {x : Mempair} (h : ∀ word ∈ x.words, IsWord word)
include h

/-- A line starts and ends with a word, so nothing is stripped. -/
theorem strip_line : strip x.line = x.line := by
  have hfirst : IsWord x.1.1 := h _ (by simp [Mempair.words])
  have hlast : IsWord x.2.2 := h _ (by simp [Mempair.words])
  have hhead : ∀ c ∈ x.line.head?, isSpace c = false := by
    intro c hc
    rw [Mempair.line, List.head?_append_of_ne_nil _ hfirst.1] at hc
    exact hfirst.2 c (List.mem_of_mem_head? hc)
  have hend : ∀ c ∈ x.line.getLast?, isSpace c = false := by
    intro c hc
    have hsplit : x.line = (x.1.1 ++ ' ' :: (x.1.2 ++ ' ' :: (x.2.1 ++ [' ']))) ++ x.2.2 := by
      simp [Mempair.line]
    rw [hsplit, List.getLast?_append_of_ne_nil _ hlast.1] at hc
    exact hlast.2 c (List.mem_of_mem_getLast? hc)
  have hstrip := @strip_eq [] x.line [] nofun hhead hend nofun
  rwa [List.nil_append, List.append_nil] at hstrip

theorem split_line : split (strip x.line) = x.words := by
  rw [strip_line h]
  exact split_words h

theorem pruneLine_line (mempairList : List (List Text)) : pruneLine mempairList x.line =
    some (mempairList ++ if isClose x.1.1 x.1.2 then [x.words] else []) := by
  have hlen : ¬ (x.words.length ≠ 2 ∧ x.words.length ≠ 4 ∧ x.words.length ≠ 6) := by
    simp [Mempair.words]
  rw [pruneLine, split_line h, if_neg hlen]
  change (if isClose x.1.1 x.1.2 then some (mempairList ++ [x.words]) else some mempairList) = _
  split
  · rfl
  · rw [List.append_nil]

end Lines

theorem foldlM_pruneLine {items : List Mempair} (h : ∀ x ∈ items, ∀ word ∈ x.words, IsWord word) :
    (items.map Mempair.line).foldlM pruneLine [] =
      some ((items.filter fun x => isClose x.1.1 x.1.2).map Mempair.words) := by
  have hrun : ∀ (items : List Mempair) (done : List (List Text)),
      (∀ x ∈ items, ∀ word ∈ x.words, IsWord word) →
      (items.map Mempair.line).foldlM pruneLine done =
        some (done ++ (items.filter fun x => isClose x.1.1 x.1.2).map Mempair.words) := by
    intro items
    induction items with
    | nil =>
      intro done _
      rw [List.filter_nil, List.map_nil, List.map_nil, List.append_nil]
      rfl
    | cons x items ih =>
      intro done h
      rw [List.map_cons, List.foldlM_cons, pruneLine_line (h x List.mem_cons_self), Option.bind_eq_bind,
        Option.bind_some, ih _ fun y hy => h y (List.mem_cons_of_mem x hy), List.filter_cons]
      split
      · rw [List.append_assoc]
        rfl
      · rw [List.append_nil]
  exact hrun items [] h

/-- The type of a location of a pair, once its entry is known. -/
def soType (e : SoEntry) (typ : Text) : Text := if typ = typS then e.typ else typ

def annotated (loc : Text) (side : Text × Text) (e : SoEntry) : Text × Text :=
  if loc = e.loc then (soType e side.1, e.hash) else side

theorem annotateSo_eq (a b typA typB hashA hashB : Text) (e : SoEntry) :
    annotateSo [a, b, typA, typB, hashA, hashB] e =
      some [a, b, (annotated a (typA, hashA) e).1, (annotated b (typB, hashB) e).1,
        (annotated a (typA, hashA) e).2, (annotated b (typB, hashB) e).2] := by
  by_cases ha : a = e.loc <;> by_cases hb : b = e.loc <;>
    by_cases hA : typA = typS <;> by_cases hB : typB = typS <;>
    simp [annotateSo, annotateSide, annotated, soType, ha, hb, hA, hB]

theorem foldl_annotated {pureSoList : List SoEntry} (hnodup : (pureSoList.map SoEntry.loc).Nodup)
    {e : SoEntry} (he : e ∈ pureSoList) (side : Text × Text) :
    pureSoList.foldl (annotated e.loc) side = (soType e side.1, e.hash) := by
  have hother : ∀ (l : List SoEntry) (side : Text × Text), (∀ e' ∈ l, e'.loc ≠ e.loc) →
      l.foldl (annotated e.loc) side = side := by
    intro l
    induction l with
    | nil => exact fun _ _ => rfl
    | cons e' l ih =>
      intro side hne
      rw [List.foldl_cons, annotated, if_neg (hne e' List.mem_cons_self).symm]
      exact ih side fun e'' he'' => hne e'' (List.mem_cons_of_mem e' he'')
  obtain ⟨pre, post, rfl⟩ := List.append_of_mem he
  rw [List.map_append, List.map_cons] at hnodup
  have hpre : ∀ e' ∈ pre, e'.loc ≠ e.loc := fun e' he' =>
    (List.nodup_append.mp hnodup).2.2 _ (List.mem_map_of_mem he') _ List.mem_cons_self
  have hpost : ∀ e' ∈ post, e'.loc ≠ e.loc := fun e' he' heq =>
    (List.nodup_cons.mp (List.nodup_append.mp hnodup).2.1).1 (heq ▸ List.mem_map_of_mem he')
  rw [List.foldl_append, hother pre _ hpre, List.foldl_cons, annotated, if_pos rfl, hother post _ hpost]

def annotatedRow (pureSoList : List SoEntry) (x : Mempair) : List Text :=
  let sideA := pureSoList.foldl (annotated x.1.1) (x.2.1, [])
  let sideB := pureSoList.foldl (annotated x.1.2) (x.2.2, [])
  [x.1.1, x.1.2, sideA.1, sideB.1, sideA.2, sideB.2]

theorem annotate_eq (pureSoList : List SoEntry) (x : Mempair) :
    annotate pureSoList x.words = some (annotatedRow pureSoList x) := by
  have hrun : ∀ (l : List SoEntry) (a b : Text) (sideA sideB : Text × Text),
      l.foldlM annotateSo [a, b, sideA.1, sideB.1, sideA.2, sideB.2] =
        some [a, b, (l.foldl (annotated a) sideA).1, (l.foldl (annotated b) sideB).1,
          (l.foldl (annotated a) sideA).2, (l.foldl (annotated b) sideB).2] := by
    intro l
    induction l with
    | nil => exact fun _ _ _ _ => rfl
    | cons e l ih =>
      intro a b sideA sideB
      rw [List.foldlM_cons, annotateSo_eq, Option.bind_eq_bind, Option.bind_some, ih]
      rfl
  exact hrun pureSoList x.1.1 x.1.2 (x.2.1, []) (x.2.2, [])

/-! ## From the groups before the cleaning -/

/-- The group has a location with a plain load only. -/
def Group.OnlyReads (g : Group) (e : SoEntry) : Prop := isAccess e.typ = true ∧ e.loc ∉ g.stores

/-- Some type that a location gets in a group, the load last. -/
def Group.typeIn (g : Group) (e : SoEntry) : Text :=
  if isAccess e.typ then (if e.loc ∈ g.stores then typW else typR) else typS

section Restricted
variable {pureSoList : List SoEntry} {g : Group} {e : SoEntry}

theorem exists_entry_of_tells {x typ : Text} (h : (restricted pureSoList g).Tells x typ) :
    ∃ e ∈ pureSoList, e.loc = x ∧ (x ∈ g.stores ∨ x ∈ g.loads) ∧ (g.OnlyReads e → typ = typR) := by
  rcases h with ⟨hx, rfl⟩ | ⟨hx, rfl⟩ | ⟨hx, rfl⟩
  · obtain ⟨hx, e, he, rfl, _⟩ := Finset.mem_filter.mp hx
    exact ⟨e, he, rfl, Or.inl hx, fun h => absurd hx h.2⟩
  · obtain ⟨hx, e, he, rfl, _⟩ := Finset.mem_filter.mp hx
    exact ⟨e, he, rfl, Or.inr hx, fun _ => rfl⟩
  · obtain ⟨hx, e, he, rfl, hother⟩ := Finset.mem_filter.mp hx
    exact ⟨e, he, rfl, Finset.mem_union.mp hx, fun h => absurd (hother.symm.trans h.1) Bool.false_ne_true⟩

theorem tells_typeIn (he : e ∈ pureSoList) (hx : e.loc ∈ g.stores ∨ e.loc ∈ g.loads) :
    (restricted pureSoList g).Tells e.loc (g.typeIn e) := by
  unfold Group.typeIn
  by_cases haccess : isAccess e.typ = true
  · rw [if_pos haccess]
    by_cases hstore : e.loc ∈ g.stores
    · rw [if_pos hstore]
      exact Or.inl ⟨Finset.mem_filter.mpr ⟨hstore, e, he, rfl, haccess⟩, rfl⟩
    · rw [if_neg hstore]
      have hload := hx.resolve_left hstore
      exact Or.inr (Or.inl ⟨Finset.mem_filter.mpr ⟨hload, e, he, rfl, haccess⟩, rfl⟩)
  · rw [if_neg haccess]
    rw [Bool.not_eq_true] at haccess
    exact Or.inr (Or.inr ⟨Finset.mem_filter.mpr ⟨Finset.mem_union.mpr hx, e, he, rfl, haccess⟩, rfl⟩)

theorem onlyReads_of_typeIn (h : g.typeIn e = typR) : g.OnlyReads e := by
  have hWR : typW ≠ typR := by decide
  have hSR : typS ≠ typR := by decide
  unfold Group.typeIn at h
  split at h
  · next haccess =>
    split at h
    · exact absurd h hWR
    · next hstore => exact ⟨haccess, hstore⟩
  · exact absurd h hSR

/-- A group with something other than loads is not removed. -/
theorem kept_of_tells {x typ : Text} (h : (restricted pureSoList g).Tells x typ) (hread : typ ≠ typR) :
    (restricted pureSoList g).stores ≠ ∅ ∨ (restricted pureSoList g).others ≠ ∅ := by
  rcases h with ⟨hx, _⟩ | ⟨_, htyp⟩ | ⟨hx, _⟩
  · exact Or.inl (Finset.ne_empty_of_mem hx)
  · exact absurd htyp hread
  · exact Or.inr (Finset.ne_empty_of_mem hx)

end Restricted

section Finish
variable {pureSoList : List SoEntry} (hnodup : (pureSoList.map SoEntry.loc).Nodup)
  (orders : Nat → SetOrder × SetOrder) {groups : List Group}
include hnodup

/-- Two locations are in conflict when one group has both, not both with a plain load only. -/
theorem conflict_finish_iff (hids : (groups.map Group.id).Nodup) (a b : Text) :
    (∃ typA typB, Conflict (finish orders groups pureSoList).memGroupList a typA b typB) ↔
      ∃ eA ∈ pureSoList, ∃ eB ∈ pureSoList, eA.loc = a ∧ eB.loc = b ∧
        ∃ g ∈ groups, (a ∈ g.stores ∨ a ∈ g.loads) ∧ (b ∈ g.stores ∨ b ∈ g.loads) ∧
          ¬ (g.OnlyReads eA ∧ g.OnlyReads eB) := by
  have hmem : ∀ g', g' ∈ (finish orders groups pureSoList).memGroupList ↔
      ∃ g ∈ groups, restricted pureSoList g = g' ∧ (g'.stores ≠ ∅ ∨ g'.others ≠ ∅) := by
    intro g'
    rw [finish_memGroupList hnodup, List.mem_filter, List.mem_map, decide_eq_true_eq]
    exact ⟨fun ⟨⟨g, hg, heq⟩, hkept⟩ => ⟨g, hg, heq, hkept⟩, fun ⟨g, hg, heq, hkept⟩ => ⟨⟨g, hg, heq⟩, hkept⟩⟩
  constructor
  · rintro ⟨typA, typB, ⟨gA, hgA, htellsA, gB, hgB, hid, htellsB⟩, hread⟩
    obtain ⟨g, hg, rfl, _⟩ := (hmem gA).mp hgA
    obtain ⟨g', hg', rfl, _⟩ := (hmem gB).mp hgB
    obtain rfl : g' = g := List.inj_on_of_nodup_map hids hg' hg hid
    obtain ⟨eA, heA, hlocA, hinA, hreadA⟩ := exists_entry_of_tells htellsA
    obtain ⟨eB, heB, hlocB, hinB, hreadB⟩ := exists_entry_of_tells htellsB
    exact ⟨eA, heA, eB, heB, hlocA, hlocB, g', hg, hinA, hinB, fun h => hread ⟨hreadA h.1, hreadB h.2⟩⟩
  · rintro ⟨eA, heA, eB, heB, rfl, rfl, g, hg, hinA, hinB, hread⟩
    have htellsA := tells_typeIn heA hinA
    have htellsB := tells_typeIn heB hinB
    have hboth : ¬ (g.typeIn eA = typR ∧ g.typeIn eB = typR) := fun h =>
      hread ⟨onlyReads_of_typeIn h.1, onlyReads_of_typeIn h.2⟩
    have hkept : (restricted pureSoList g).stores ≠ ∅ ∨ (restricted pureSoList g).others ≠ ∅ :=
      (not_and_or.mp hboth).elim (kept_of_tells htellsA) (kept_of_tells htellsB)
    have hin := (hmem _).mpr ⟨g, hg, rfl, hkept⟩
    exact ⟨_, _, ⟨_, hin, htellsA, _, hin, rfl, htellsB⟩, hboth⟩

/-- Every location of a group that is left has an entry that is left. -/
theorem loc_of_tells {g : Group} {x typ : Text} (hg : g ∈ (finish orders groups pureSoList).memGroupList)
    (h : g.Tells x typ) : x ∈ (finish orders groups pureSoList).pureSoList.map SoEntry.loc := by
  have hin : x ∈ g.stores ∨ x ∈ g.loads ∨ x ∈ g.others := h.imp And.left (Or.imp And.left And.left)
  exact (mem_conConfigList_iff_entry hnodup ..).mp ((mem_finish_conConfigList ..).mpr ⟨g, hg, hin⟩)

end Finish

def rowOf (eA eB : SoEntry) (typA typB : Text) : List Text :=
  [eA.loc, eB.loc, soType eA typA, soType eB typB, eA.hash, eB.hash]

theorem dumpMempair_eq (o : Int → LocOrder) {pureSoList : List SoEntry} {memGroupList : List Group}
    (hwords : ∀ e ∈ pureSoList, IsWord e.loc) (hnodup : (pureSoList.map SoEntry.loc).Nodup)
    (hlocs : ∀ g ∈ memGroupList, ∀ x typ, g.Tells x typ → x ∈ pureSoList.map SoEntry.loc) :
    ∃ rows, dumpMempair o pureSoList memGroupList = some rows ∧
      rows.map (fun row => row.take 2) =
        ((sortedItems (dedupedMempair o memGroupList)).filter fun x => isClose x.1.1 x.1.2).map
          (fun x => [x.1.1, x.1.2]) ∧
      ∀ row ∈ rows, ∃ eA ∈ pureSoList, ∃ eB ∈ pureSoList, ∃ typA typB,
        Conflict memGroupList eA.loc typA eB.loc typB ∧ row = rowOf eA eB typA typB := by
  have hconflict : ∀ x ∈ sortedItems (dedupedMempair o memGroupList),
      Conflict memGroupList x.1.1 x.2.1 x.1.2 x.2.2 := fun x hx =>
    conflict_of_mem_dedupedMempair (List.mem_mergeSort.mp hx)
  have hword : ∀ x ∈ sortedItems (dedupedMempair o memGroupList), ∀ word ∈ x.words, IsWord word := by
    intro x hx word hin
    obtain ⟨⟨g, hg, hA, g', hg', _, hB⟩, _⟩ := hconflict x hx
    obtain ⟨eA, heA, hlocA⟩ := List.mem_map.mp (hlocs g hg _ _ hA)
    obtain ⟨eB, heB, hlocB⟩ := List.mem_map.mp (hlocs g' hg' _ _ hB)
    simp only [Mempair.words, List.mem_cons, List.not_mem_nil, or_false] at hin
    rcases hin with rfl | rfl | rfl | rfl
    · exact hlocA ▸ hwords eA heA
    · exact hlocB ▸ hwords eB heB
    · exact isWord_typ _ hA.typ_mem
    · exact isWord_typ _ hB.typ_mem
  let items := (sortedItems (dedupedMempair o memGroupList)).filter fun x => isClose x.1.1 x.1.2
  have hrows : (items.map Mempair.words).mapM (annotate pureSoList) =
      some (items.map (annotatedRow pureSoList)) := by
    induction items with
    | nil => rfl
    | cons x items ih =>
      rw [List.map_cons, List.mapM_cons, annotate_eq, ih]
      rfl
  refine ⟨items.map (annotatedRow pureSoList), ?_, ?_, ?_⟩
  · rw [dumpMempair, foldlM_pruneLine hword]
    exact hrows
  · rw [List.map_map]
    rfl
  · intro row hrow
    obtain ⟨x, hx, rfl⟩ := List.mem_map.mp hrow
    have hpair := hconflict x (List.mem_filter.mp hx).1
    obtain ⟨⟨g, hg, hA, g', hg', _, hB⟩, _⟩ := hpair
    obtain ⟨eA, heA, hlocA⟩ := List.mem_map.mp (hlocs g hg _ _ hA)
    obtain ⟨eB, heB, hlocB⟩ := List.mem_map.mp (hlocs g' hg' _ _ hB)
    refine ⟨eA, heA, eB, heB, x.2.1, x.2.2, ?_, ?_⟩
    · rw [hlocA, hlocB]
      exact hconflict x (List.mem_filter.mp hx).1
    · rw [annotatedRow, ← hlocA, ← hlocB, foldl_annotated hnodup heA, foldl_annotated hnodup heB]
      rfl

/-- What is dumped of `out`, which the cleaning left of `groups`: pairs of close locations that one
group has, not both with a plain load only. A row holds types that are in conflict, where an `S` is
the type of the entry, and the hashes of the entries. -/
structure MempairsExact (pureSoList : List SoEntry) (groups : List Group) (out : Output)
    (rows : List (List Text)) : Prop where
  sorted : (rows.map fun row => row.take 2).Pairwise (· < ·)
  pairs : ∀ a b, [a, b] ∈ rows.map (fun row => row.take 2) ↔ a ≤ b ∧ isClose a b = true ∧
    ∃ eA ∈ pureSoList, ∃ eB ∈ pureSoList, eA.loc = a ∧ eB.loc = b ∧
      ∃ g ∈ groups, (a ∈ g.stores ∨ a ∈ g.loads) ∧ (b ∈ g.stores ∨ b ∈ g.loads) ∧
        ¬ (g.OnlyReads eA ∧ g.OnlyReads eB)
  rows : ∀ row ∈ rows, ∃ eA ∈ out.pureSoList, ∃ eB ∈ out.pureSoList, ∃ typA typB,
    Conflict out.memGroupList eA.loc typA eB.loc typB ∧ row = rowOf eA eB typA typB

theorem mempairs_exact (orders : Nat → SetOrder × SetOrder) (o : Int → LocOrder) {lines : List Text}
    {soList : List SoEntry} (hread : readSo lines = some soList) (memGroupList : List Group)
    (hids : ((insertAll memGroupList (pureSo soList)).map Group.id).Nodup) :
    let groups := insertAll memGroupList (pureSo soList)
    let out := finish orders groups (pureSo soList)
    ∃ rows, dumpMempair o out.pureSoList out.memGroupList = some rows ∧
      MempairsExact (pureSo soList) groups out rows := by
  intro groups out
  have hnodup := pureSo_nodup soList
  have hlocs : out.pureSoList.map SoEntry.loc =
      ((pureSo soList).map SoEntry.loc).filter fun x => x ∈ out.conConfigList := map_loc_finish _ _ _
  obtain ⟨rows, hdump, hpairs, hrows⟩ := dumpMempair_eq o (fun e he => isWord_finish he hread)
    (hlocs ▸ hnodup.filter _) fun g hg x typ h => loc_of_tells hnodup orders hg h
  refine ⟨rows, hdump, ?_, fun a b => ?_, hrows⟩
  · rw [hpairs]
    exact (sortedItems_pairwise _).sublist (List.filter_sublist.map _)
  · rw [hpairs, ← conflict_finish_iff hnodup orders hids]
    constructor
    · intro h
      obtain ⟨x, hx, heq⟩ := List.mem_map.mp h
      obtain ⟨hin, hclose⟩ := List.mem_filter.mp hx
      obtain ⟨rfl, rfl⟩ : x.1.1 = a ∧ x.1.2 = b := by simpa using heq
      have hkey : x.1 ∈ (dedupedMempair o out.memGroupList).keys :=
        List.mem_map_of_mem (List.mem_mergeSort.mp hin)
      obtain ⟨hle, hconflict⟩ := mem_keys_dedupedMempair.mp hkey
      exact ⟨hle, hclose, hconflict⟩
    · rintro ⟨hle, hclose, hconflict⟩
      obtain ⟨x, hx, hkey⟩ := List.mem_map.mp (@mem_keys_dedupedMempair o out.memGroupList a b |>.mpr
        ⟨hle, hconflict⟩)
      have hab : x.1.1 = a ∧ x.1.2 = b := by rw [hkey]; exact ⟨rfl, rfl⟩
      refine List.mem_map.mpr ⟨x, List.mem_filter.mpr ⟨List.mem_mergeSort.mpr hx, ?_⟩, ?_⟩
      · rw [hab.1, hab.2]
        exact hclose
      · rw [hab.1, hab.2]

end Period.Analysis
