import Period.Driver.AsanError

/-!
# `get_aliased_info.py`

The dump of the memory SSA is read line by line. Points-to sets are collected until a line with
a location comes, and then every object in them gets this location. The pointer type that the
script extracts as well is not used.
-/

namespace Period.Analysis

open Period.Driver (contains strip mem_strip)
set_option autoImplicit false

def beforeSep (sep : Text) : Text → Text
  | [] => []
  | c :: rest => if sep.isPrefixOf (c :: rest) then [] else c :: beforeSep sep rest

def afterSep (sep : Text) : Text → Option Text
  | [] => none
  | c :: rest => if sep.isPrefixOf (c :: rest) then some ((c :: rest).drop sep.length) else afterSep sep rest

def parseNat (word : Text) : Option Nat :=
  if word ≠ [] ∧ word.all Char.isDigit then some (Nat.ofDigitChars 10 word 0) else none

def parseInt : Text → Option Int
  | '-' :: word => (parseNat word).map fun n : Nat => -(n : Int)
  | word => (parseNat word).map fun n : Nat => (n : Int)

/-- `__parse_pts`, which raises `ValueError` without a brace or for what is no number. -/
def parsePts (line : Text) : Option (Finset Int) :=
  let line := strip line
  if '{' ∈ line then
    ((split ((line.take (line.length - 1)).drop (line.idxOf '{' + 1))).mapM parseInt).map List.toFinset
  else none

structure Instruction where
  loadFrom : Finset Int
  storeTo : Finset Int

def Instruction.new : Instruction := ⟨∅, ∅⟩

def Instruction.feedLine (insn : Instruction) (line : Text) (isWrite : Bool) : Option Instruction := do
  let pts ← parsePts line
  return if isWrite then { insn with storeTo := insn.storeTo ∪ pts } else { insn with loadFrom := insn.loadFrom ∪ pts }

def extractSourceLocation (line : Text) : Option Text := do
  let rest ← afterSep "[[".toList (strip line)
  let loc := beforeSep "[[".toList rest
  let delim := if contains loc "@[" then "@[".toList else "]]".toList
  return strip (beforeSep delim loc)

def removeColumn (aset : Bool) (text : Text) : Text :=
  if aset then text
  else
    let toks := text.splitOn ':'
    if toks.length < 3 then text ++ ":0".toList else [':'].intercalate (toks.set 2 "0".toList)

/-- `strip_start`, with the empty `PREFIX`. -/
def stripStart (text : Text) : Text := if "./".toList.isPrefixOf text then text.drop 2 else text

/-- The location that `add_instruction` takes from a line, `get_source_location()[:-2]`. -/
def sourceLocOf (aset : Bool) (line : Text) : Option Text := do
  let sourceLoc ← extractSourceLocation line
  let text := removeColumn aset (stripStart sourceLoc)
  return text.take (text.length - 2)

/-- The order in which a set of objects is iterated over. -/
structure ObjectOrder where
  elems : Finset Int → List Int
  mem_elems : ∀ s o, o ∈ elems s ↔ o ∈ s

def ObjectOrder.sorted : ObjectOrder := ⟨fun s => s.sort, fun _ _ => Finset.mem_sort _⟩

/-- `memory_locations[key].add_instruction`, for an old or a new key. -/
def addInstruction (isWrite : Bool) (sourceLoc : Text) (memoryLocations : List Group) (key : Int) :
    List Group :=
  if key = 1 then memoryLocations
  else
    let memoryLocations := if memoryLocations.any fun g => g.id = key then memoryLocations
      else memoryLocations ++ [⟨key, ∅, ∅, ∅⟩]
    memoryLocations.map fun g =>
      if g.id = key then
        if isWrite then { g with stores := insert sourceLoc g.stores }
        else { g with loads := insert sourceLoc g.loads }
      else g

/-- The loop over `get_accessed_memory_location()`. -/
def addAccesses (order : ObjectOrder) (insn : Instruction) (sourceLoc : Text)
    (memoryLocations : List Group) : List Group :=
  (order.elems insn.loadFrom).foldl (addInstruction false sourceLoc)
    ((order.elems insn.storeTo).foldl (addInstruction true sourceLoc) memoryLocations)

structure Reading where
  memoryLocations : List Group
  reset : Bool
  insn : Instruction

/-- The lines that are passed over before anything else. -/
def isSkipped (line : Text) : Bool := contains line "]]]" || contains line "cpp:0]]"

def Reading.current (s : Reading) : Instruction := if s.reset then Instruction.new else s.insn

def readLine (aset : Bool) (order : ObjectOrder) (s : Reading) (line : Text) : Option Reading :=
  if isSkipped line then some s
  else if strip line = [] then some s
  else if contains line "LDMU" then do
    let insn ← s.current.feedLine line false
    return { s with reset := false, insn }
  else if contains line "STCHI" then do
    let insn ← s.current.feedLine line true
    return { s with reset := false, insn }
  else if contains line "[[" then do
    let sourceLoc ← sourceLocOf aset line
    return { memoryLocations := addAccesses order s.current sourceLoc s.memoryLocations
             reset := true, insn := s.current }
  else some { s with reset := false, insn := s.current }

/-- `SaveList`, or nothing when an exception is raised. -/
def getAliasedInfo (aset : Bool) (order : ObjectOrder) (lines : List Text) : Option (List Group) := do
  let s ← lines.foldlM (readLine aset order) { memoryLocations := [], reset := true, insn := Instruction.new }
  return s.memoryLocations

example : sourceLocOf false "\t[[./uaf.c:29:7]](\x7bi8\x7d)\n".toList = some "uaf.c:29".toList := by decide

/-- `%d`. -/
def decimal (o : Int) : Text := if 0 ≤ o then Nat.toDigits 10 o.toNat else '-' :: Nat.toDigits 10 (-o).toNat

theorem parseNat_toDigits (n : Nat) : parseNat (Nat.toDigits 10 n) = some n := by
  rw [parseNat, if_pos, Nat.ofDigitChars_ten_toDigits]
  refine ⟨Nat.toDigits_ne_nil, List.all_eq_true.mpr fun c hc => ?_⟩
  exact Nat.isDigit_of_mem_toDigits (by decide) (by decide) hc

theorem ne_of_mem_toDigits {n : Nat} {c d : Char} (hc : c ∈ Nat.toDigits 10 n) (hd : d.isDigit = false) :
    c ≠ d := by
  rintro rfl
  rw [Nat.isDigit_of_mem_toDigits (by decide) (by decide) hc] at hd
  cases hd

theorem parseInt_decimal (o : Int) : parseInt (decimal o) = some o := by
  rw [decimal]
  split
  · next hpos =>
    obtain ⟨c, rest, hdigits⟩ := List.exists_cons_of_ne_nil (@Nat.toDigits_ne_nil o.toNat 10)
    have hparse := parseNat_toDigits o.toNat
    rw [hdigits] at hparse ⊢
    have hc : c ≠ '-' := ne_of_mem_toDigits (hdigits ▸ List.mem_cons_self) (by decide)
    rw [parseInt, hparse, Option.map_some, Int.toNat_of_nonneg hpos]
    exact fun word heq => hc (List.head_eq_of_cons_eq heq)
  · next hneg =>
    rw [parseInt, parseNat_toDigits, Option.map_some, Int.toNat_of_nonneg (by omega), Int.neg_neg]

theorem mem_decimal {o : Int} {c : Char} (hc : c ∈ decimal o) : c.isDigit = true ∨ c = '-' := by
  rw [decimal] at hc
  split at hc
  · exact Or.inl (Nat.isDigit_of_mem_toDigits (by decide) (by decide) hc)
  · rcases List.mem_cons.mp hc with rfl | hc
    · exact Or.inr rfl
    · exact Or.inl (Nat.isDigit_of_mem_toDigits (by decide) (by decide) hc)

theorem decimal_ne_nil (o : Int) : decimal o ≠ [] := by
  rw [decimal]
  split
  · exact Nat.toDigits_ne_nil
  · exact List.cons_ne_nil _ _

end Period.Analysis
