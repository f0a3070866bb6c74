import Mathlib.Data.Char
import Mathlib.Data.Finset.Sort
import Mathlib.Data.List.Lex

/-!
# `updateMemGroupSo.py`

The lines of the sensitive operations pass are sorted and merged to one entry for each
location. Sensitive locations that are in no memory group get a group, then the groups
are cleaned of locations that the pass did not report, and what is left is printed.
-/

namespace Period.Analysis

set_option autoImplicit false

abbrev Text := List Char

/-- What `str.split()` splits at. -/
def isSpace (c : Char) : Bool :=
  c.toNat ∈ [0x20, 0x85, 0xA0, 0x1680, 0x2028, 0x2029, 0x202F, 0x205F, 0x3000] ||
    9 ≤ c.toNat && c.toNat ≤ 13 || 0x1C ≤ c.toNat && c.toNat ≤ 0x1F ||
    0x2000 ≤ c.toNat && c.toNat ≤ 0x200A

/-- The scan of `str.split()`: the words so far and the one that is being read. -/
def splitStep (r : List Text × Text) (c : Char) : List Text × Text :=
  if isSpace c then (if r.2.isEmpty then r else (r.1 ++ [r.2], []))
  else (r.1, r.2 ++ [c])

def split (line : Text) : List Text :=
  let r := line.foldl splitStep ([], [])
  if r.2.isEmpty then r.1 else r.1 ++ [r.2]

/-- The first four words of a line. -/
structure SoEntry where
  loc : Text
  typ : Text
  function : Text
  hash : Text
  deriving DecidableEq, Repr

def SoEntry.words (e : SoEntry) : List Text := [e.loc, e.typ, e.function, e.hash]

/-- A line with fewer than four words raises `IndexError`. -/
def soEntry (line : Text) : Option SoEntry :=
  match split line with
  | loc :: typ :: function :: hash :: _ => some { loc, typ, function, hash }
  | _ => none

def isDebug (line : Text) : Bool := line.take 7 = "[DEBUG]".toList

/-- `soList` before it is sorted. -/
def readSo (lines : List Text) : Option (List SoEntry) :=
  (lines.filter fun line => !isDebug line).mapM soEntry

abbrev typRW : Text := "R/W".toList
abbrev typR : Text := "R".toList
abbrev typW : Text := "W".toList
abbrev typUnlock : Text := "unlock".toList

/-- One round: the entry of a new location is appended, else only its type is taken over. -/
def mergeSo (pureSoList : List SoEntry) (each : SoEntry) : List SoEntry :=
  match pureSoList.getLast? with
  | none => [each]
  | some last =>
    if each.loc ≠ last.loc then pureSoList ++ [each]
    else if each.typ ≠ typRW then pureSoList.dropLast ++ [{ last with typ := each.typ }]
    else pureSoList

def sortSo (soList : List SoEntry) : List SoEntry := soList.mergeSort fun e e' => e.words ≤ e'.words

/-- A scan over a copy of the list that removes the elements with a property. -/
def removeAll {α : Type} [DecidableEq α] (bad : α → Bool) (l : List α) : List α :=
  l.foldl (fun l a => if bad a then l.erase a else l) l

/-- `pureSoList` without `unlock`. -/
def pureSo (soList : List SoEntry) : List SoEntry :=
  removeAll (fun each => each.typ = typUnlock) ((sortSo soList).foldl mergeSo [])

/-- `[id, stores, loads]`, with the fourth component that the cleaning appends. -/
structure Group where
  id : Int
  stores : Finset Text
  loads : Finset Text
  others : Finset Text
  deriving DecidableEq

structure Insertion where
  memGroupList : List Group
  hasUkLockSet : Bool
  hasUkFreeSet : Bool

def inGroups (memGroupList : List Group) (loc : Text) : Bool :=
  memGroupList.any fun g => loc ∈ g.stores ∨ loc ∈ g.loads

def addToLast (memGroupList : List Group) (loc : Text) : List Group :=
  memGroupList.modify (memGroupList.length - 1) fun g => { g with stores := insert loc g.stores }

/-- The groups after a location of one kind, with the flag of the kind. -/
def addUnknown (id : Int) (memGroupList : List Group) (hasUkSet : Bool) (loc : Text) :
    List Group × Bool :=
  if inGroups memGroupList loc then (memGroupList, hasUkSet)
  else if hasUkSet then (addToLast memGroupList loc, true)
  else (addToLast (memGroupList ++ [{ id, stores := ∅, loads := ∅, others := ∅ }]) loc, true)

/-- `if each[1] == "lock"`. -/
def addLock (each : SoEntry) (s : Insertion) : Insertion :=
  if each.typ = "lock".toList then
    let r := addUnknown 99999 s.memGroupList s.hasUkLockSet each.loc
    { s with memGroupList := r.1, hasUkLockSet := r.2 }
  else s

/-- The other kinds share the flag `hasUkFreeSet`. -/
def addKind (typ : Text) (id : Int) (each : SoEntry) (s : Insertion) : Insertion :=
  if each.typ = typ then
    let r := addUnknown id s.memGroupList s.hasUkFreeSet each.loc
    { s with memGroupList := r.1, hasUkFreeSet := r.2 }
  else s

def addFree := addKind "free".toList 99998
def addStdAtomic := addKind "std_atomic".toList 99997
def addStdSize := addKind "std_size".toList 99996
def addMemset := addKind "memset".toList 99995
def addResize := addKind "std::vector<...>::resize".toList 99994
def addCmpnull := addKind "cmpnull".toList 99993

def insertSo (s : Insertion) (each : SoEntry) : Insertion :=
  addCmpnull each (addResize each (addMemset each (addStdSize each
    (addStdAtomic each (addFree each (addLock each s))))))

def insertAll (memGroupList : List Group) (pureSoList : List SoEntry) : List Group :=
  (pureSoList.foldl insertSo
    { memGroupList, hasUkLockSet := false, hasUkFreeSet := false }).memGroupList

/-- The order in which a Python set is iterated over. -/
structure SetOrder where
  elems : Finset Text → List Text
  mem_elems : ∀ s a, a ∈ elems s ↔ a ∈ s

def SetOrder.sorted : SetOrder := ⟨fun s => s.sort, fun _ _ => Finset.mem_sort _⟩

def isAccess (typ : Text) : Bool := typ = typRW ∨ typ = typR ∨ typ = typW

/-- The state of the scan over one of the two sets: `pureSoList`, the set, and `eachfloor[3]`. -/
structure Scan where
  pureSoList : List SoEntry
  side : Finset Text
  others : Finset Text

/-- `eachSo[1] = mark`, for the first entry of the location. -/
def setType (mark loc : Text) (pureSoList : List SoEntry) : List SoEntry :=
  pureSoList.modify (pureSoList.findIdx fun eachSo => eachSo.loc = loc) fun e => { e with typ := mark }

/-- One location. The first entry of the location decides: `mark` is written into it, or
the location moves to the others. A location without entry is dropped. -/
def scanOne (mark : Text) (s : Scan) (loc : Text) : Scan :=
  match s.pureSoList.find? fun eachSo => eachSo.loc = loc with
  | none => { s with side := s.side.erase loc }
  | some eachSo =>
    if isAccess eachSo.typ then { s with pureSoList := setType mark loc s.pureSoList }
    else { s with side := s.side.erase loc, others := insert eachSo.loc s.others }

def cleanGroup (o : SetOrder) (r : List Group × List SoEntry) (g : Group) :
    List Group × List SoEntry :=
  let loads := (o.elems g.loads).foldl (scanOne typR) { pureSoList := r.2, side := g.loads, others := ∅ }
  let stores := (o.elems g.stores).foldl (scanOne typW) { loads with side := g.stores }
  (r.1 ++ [{ g with stores := stores.side, loads := loads.side, others := stores.others }],
    stores.pureSoList)

def cleanGroups (o : SetOrder) (memGroupList : List Group) (pureSoList : List SoEntry) :
    List Group × List SoEntry :=
  memGroupList.foldl (cleanGroup o) ([], pureSoList)

def prune (memGroupList : List Group) : List Group :=
  removeAll (fun g => g.stores = ∅ ∧ g.others = ∅) memGroupList

def conConfigSet (memGroupList : List Group) : Finset Text :=
  memGroupList.foldl (fun s g => s ∪ g.stores ∪ g.loads ∪ g.others) ∅

structure Output where
  conConfigList : List Text
  memGroupList : List Group
  pureSoList : List SoEntry

def update (o : SetOrder) (soList : List SoEntry) (memGroupList : List Group) : Output :=
  let pureSoList := pureSo soList
  let r := cleanGroups o (insertAll memGroupList pureSoList) pureSoList
  let memGroupList := prune r.1
  let conConfigList := (conConfigSet memGroupList).sort
  { conConfigList, memGroupList
    pureSoList := removeAll (fun each => each.loc ∉ conConfigList) r.2 }

/-- `main`. -/
def updateMemGroupSo (o : SetOrder) (lines : List Text) (memGroupList : List Group) : Option Output := do
  let soList ← readSo lines
  return update o soList memGroupList

end Period.Analysis
