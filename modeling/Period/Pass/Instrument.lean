import Mathlib.Data.List.Basic

/-!
# The instrumentation pass

`DBDSPass::runOnModule` on one function: what it inserts at the entry, and the loop over the
instructions in layout order. An inserted call has the debug location of the instruction it was
built at. Calls built behind an instruction are visited by the loop, calls built before it are not.
-/

namespace Period.Pass

set_option autoImplicit false

abbrev Text := List UInt8

/-- `int(str[k])` for a `char`, in 16 bits. -/
def charInt (c : UInt8) : UInt16 := if c < 128 then c.toUInt16 else c.toUInt16 + 0xFF00

def stringHashEncoding (str : Text) : UInt16 :=
  str.foldl (fun encodingNum c => encodingNum * charInt c + charInt c) 26

def colon : UInt8 := 58

/-- A printed line number, or nothing. -/
structure Line where
  text : Text
  no_colon : colon ∉ text
  deriving DecidableEq

/-- The calls the pass looks for, by name and number of operands. -/
inductive Callee where
  | exit
  | pthreadCreate
  | prCreateThread
  | createPthread
  | pthreadJoin
  | other
  deriving DecidableEq

inductive Opcode where
  /-- With the line of the variable it is declared for. -/
  | alloca (line : Line)
  | ret
  | call (callee : Callee)
  | other
  deriving DecidableEq

structure Instr where
  opcode : Opcode
  /-- File and line of the debug location, or nothing. -/
  dbg : Text
  deriving DecidableEq

/-- The functions the pass inserts calls of. -/
inductive Hook where
  | instrCall
  | instrPthreadCall
  | instrLOC
  | instrReturn
  | traceEnd
  | beforePthreadCreate
  | instrPthreadCreate
  | instrPthreadJoin
  | instrLOCString (intHash : UInt16)
  deriving DecidableEq

inductive Item where
  | original (i : Instr)
  | inserted (f : Hook) (dbg : Text)
  deriving DecidableEq

def Item.dbg : Item → Text
  | .original i => i.dbg
  | .inserted _ dbg => dbg

def getSourceLoc : Item → Text
  | .original ⟨.alloca line, _⟩ => line.text
  | .original i => i.dbg
  | .inserted _ dbg => dbg

/-- `SourceLoc.erase(0,2)` after `"./"`. -/
def eraseDotSlash : Text → Text
  | 46 :: 47 :: rest => rest
  | sourceLoc => sourceLoc

/-- The hash that a call of `instr_LOC_string` at this location carries. -/
def locHash (sourceLoc : Text) : UInt16 := stringHashEncoding (eraseDotSlash sourceLoc)

/-- Whether a line of ConConfig ends with the location. -/
def inConLines (conLines : List Text) (sourceLoc : Text) : Bool :=
  conLines.any fun line => (eraseDotSlash sourceLoc).isSuffixOf line

section Loop
variable (conLines : List Text) (onlyPthreadCreate : Bool)

/-- The calls built before an instruction, up to `instr_LOC_string`. -/
def callsBefore : Item → List Item
  | .original ⟨.ret, dbg⟩ => [.inserted .instrReturn dbg]
  | .original ⟨.call .exit, dbg⟩ => [.inserted .traceEnd dbg]
  | .original ⟨.call .pthreadCreate, dbg⟩ =>
    if onlyPthreadCreate then [.inserted .beforePthreadCreate dbg] else []
  | .original ⟨.call .prCreateThread, dbg⟩ =>
    if onlyPthreadCreate then [] else [.inserted .beforePthreadCreate dbg]
  | .original ⟨.call .createPthread, dbg⟩ =>
    if onlyPthreadCreate then [] else [.inserted .beforePthreadCreate dbg]
  | _ => []

/-- The calls built before the instruction that follows (at `tmptier`). -/
def callsBehind (next : Option Item) : Item → List Item
  | .original ⟨.call .pthreadCreate, _⟩ =>
    if onlyPthreadCreate then [.inserted .instrPthreadCreate ((next.map Item.dbg).getD [])] else []
  | .original ⟨.call .createPthread, _⟩ =>
    if onlyPthreadCreate then [] else [.inserted .instrPthreadCreate ((next.map Item.dbg).getD [])]
  | .original ⟨.call .pthreadJoin, _⟩ => [.inserted .instrPthreadJoin ((next.map Item.dbg).getD [])]
  | _ => []

def visited : List Item → List Item
  | [] => []
  | x :: rest => x :: callsBehind onlyPthreadCreate rest.head? x ++ visited rest

/-- The calls of `instr_Call` and `instr_PthreadCall` are passed over. -/
def tracked : Item → Bool
  | .inserted .instrCall _ => false
  | .inserted .instrPthreadCall _ => false
  | _ => true

/-- One round of the loop: the calls built before the instruction, and `LastLocString`. -/
def visit (lastLocString : Text) (x : Item) : List Item × Text :=
  let before := callsBefore onlyPthreadCreate x
  let sourceLoc := getSourceLoc x
  if tracked x = false then (before, lastLocString)
  else if lastLocString = sourceLoc then (before, lastLocString)
  else if sourceLoc = [] then (before, sourceLoc)
  else if colon ∉ sourceLoc then (before, sourceLoc)
  else if inConLines conLines sourceLoc then
    (before ++ [.inserted (.instrLOCString (locHash sourceLoc)) x.dbg], sourceLoc)
  else (before, sourceLoc)

def runOnBlock : Text → List Item → List Item × Text
  | lastLocString, [] => ([], lastLocString)
  | lastLocString, x :: xs =>
    let v := visit conLines onlyPthreadCreate lastLocString x
    let rest := runOnBlock v.2 xs
    (v.1 ++ x :: rest.1, rest.2)

/-- The loop over the blocks. `LastLocString` is not reset in between. -/
def runOnBlocks : Text → List (List Item) → List (List Item)
  | _, [] => []
  | lastLocString, block :: blocks =>
    let r := runOnBlock conLines onlyPthreadCreate lastLocString (visited onlyPthreadCreate block)
    r.1 :: runOnBlocks r.2 blocks

end Loop

structure Block where
  instrs : List Instr
  succs : List Nat

/-- A function with its blocks in layout order; the first one is the entry. -/
structure Func where
  blocks : List Block
  isMain : Bool
  /-- Whether it is in `pthreadCallFunction`. -/
  isPthreadTask : Bool
  entry_no_pred : ∀ b ∈ blocks, 0 ∉ b.succs

def Func.entryCalls (f : Func) (dbg : Text) : List Item :=
  .inserted .instrCall dbg ::
    if f.isMain then [.inserted .instrLOC dbg]
    else if f.isPthreadTask then [.inserted .instrPthreadCall dbg]
    else []

def Func.withEntryCalls (f : Func) : List (List Item) :=
  match f.blocks with
  | [] => []
  | entry :: rest =>
    (f.entryCalls ((entry.instrs.head?.map Instr.dbg).getD []) ++ entry.instrs.map .original) ::
      rest.map fun block => block.instrs.map .original

def Func.instrumented (f : Func) (conLines : List Text) (onlyPthreadCreate : Bool) :
    List (List Item) :=
  runOnBlocks conLines onlyPthreadCreate [] f.withEntryCalls

end Period.Pass
