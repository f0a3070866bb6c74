import Period.Pass.LocHash
import Period.Pass.ThreadReach

/-!
# Sensitive operations

The last loop of `SensitiveOperations::runOnModule`. An instruction whose location ends a
configured line gets a line in the so file, with the kind of operation that it is. The kinds are
tried in order, and `R/W` is what is left.
-/

namespace Period.Pass

set_option autoImplicit false

inductive SoOpcode where
  | call
  | invoke
  | store
  | other
  deriving DecidableEq

structure SoInst where
  opcode : SoOpcode
  /-- `getOperand(i)->getName()`, which is empty for most operands. -/
  operands : List (List Char)
  /-- The name of `getCalledFunction()`. -/
  calledFunction : Option (List Char)
  /-- Operand 0 is the null pointer. -/
  storesNull : Bool
  sourceLoc : Text

/-- `getOperand(k)` of an instruction with more than `k` operands has one of the names. -/
def SoInst.named (inst : SoInst) (k : Nat) (names : List String) : Bool :=
  decide (k < inst.operands.length) && names.any fun name => name.toList = inst.operands.getD k []

/-- `getOperand(4)` of five operands starts with the name. -/
def SoInst.intrinsic (inst : SoInst) (name : String) : Bool :=
  inst.operands.length = 5 && name.toList.isPrefixOf (inst.operands.getD 4 [])

/-- The name of the called function, or of the last operand. -/
def SoInst.funcName (inst : SoInst) : List Char :=
  inst.calledFunction.getD (inst.operands.getD (inst.operands.length - 1) [])

def istartsWith (name : List Char) (start : String) : Bool :=
  (start.toList.map Char.toLower).isPrefixOf (name.map Char.toLower)

structure Finder where
  kind : List Char
  times : Nat

/-- The first finder that prints something sets `FindFlag`. -/
def firstFound : List Finder → Option Finder
  | [] => none
  | f :: rest => if 0 < f.times then some f else firstFound rest

def finder (kind : String) (found : Bool) : Finder := ⟨kind.toList, if found then 1 else 0⟩

def atomicStrings : List String :=
  ["long std::atomic_fetch_add<long>", "long std::atomic_fetch_sub<long>", "std::atomic<void*>::exchange",
    "webrtc::SSRCDatabase* std::atomic_exchange<webrtc::SSRCDatabase*>"]

def mapSizeString : String :=
  "std::map<unsigned int, unsigned int, std::less<unsigned int>, " ++
    "std::allocator<std::pair<unsigned int const, unsigned int> > >::size"

section Demangled
variable (getFuncname : List Char → List Char) (inst : SoInst)

def SoInst.demangled : List Char := beforeParen (getFuncname inst.funcName)

def SoInst.isResize : Bool :=
  let name := beforeParen (getFuncname (inst.operands.getD 4 []))
  inst.operands.length = 5 && istartsWith name "std::vector<" && ">::resize".toList.isSuffixOf name

end Demangled

/-- The demangler, and the wrappers of the lock functions. -/
structure SoConfig where
  getFuncname : List Char → List Char
  lockFunctionSet : List (List Char)
  unlockFunctionSet : List (List Char)

namespace SoConfig
variable (config : SoConfig)

/-- A loop over wrappers does not stop at the first one. -/
def wrapper (kind : String) (set : List (List Char)) (inst : SoInst) : Finder :=
  ⟨kind.toList, if 2 ≤ inst.operands.length then set.count (inst.operands.getD 1 []) else 0⟩

def isStdAtomic (inst : SoInst) : Bool :=
  (inst.operands.length = 3 || inst.operands.length = 4) &&
    atomicStrings.any fun start => start.toList.isPrefixOf (inst.demangled config.getFuncname)

def isMapSize (inst : SoInst) : Bool :=
  inst.operands.length = 2 && mapSizeString.toList.isPrefixOf (inst.demangled config.getFuncname)

def callFinders (inst : SoInst) : List Finder :=
  [finder "malloc" (inst.named 1 ["malloc", "xmalloc", "valloc", "safe_malloc", "safemalloc", "safexmalloc"]),
    finder "malloc" (inst.named 2 ["calloc", "xcalloc", "memalign", "aligned_alloc", "safe_calloc",
      "safecalloc", "safexcalloc"]),
    finder "realloc" (inst.named 2 ["realloc"]),
    finder "free" (inst.named 1 ["free", "xfree", "cfree", "safe_cfree", "safe_free", "safefree",
      "safexfree"]),
    finder "new" (inst.named 1 ["_Znwm", "_Znam", "_Znaj", "_Znwj"]),
    finder "delete" (inst.named 1 ["_ZdaPv", "_ZdlPv"]),
    finder "memset" (inst.intrinsic "llvm.memset."),
    finder "memcpy" (inst.intrinsic "llvm.memcpy."),
    finder "lock" (inst.named 1 ["pthread_mutex_lock"]),
    wrapper "lock" config.lockFunctionSet inst,
    finder "unlock" (inst.named 1 ["pthread_mutex_unlock"]),
    wrapper "unlock" config.unlockFunctionSet inst,
    finder "std_atomic" (config.isStdAtomic inst),
    finder "std_size" (config.isMapSize inst)]

def invokeFinders (inst : SoInst) : List Finder :=
  [finder "new" (inst.named 1 ["malloc", "_Znwm", "_Znam", "_Znaj", "_Znwj"]),
    finder "std::vector<...>::resize" (inst.isResize config.getFuncname)]

def finders (inst : SoInst) : List Finder :=
  match inst.opcode with
  | .call => config.callFinders inst
  | .invoke => config.invokeFinders inst
  | .store => [finder "nullptr" (decide (2 ≤ inst.operands.length) && inst.storesNull)]
  | .other => []

/-- The kinds of the lines that are printed for an instruction. -/
def kinds (inst : SoInst) : List (List Char) :=
  let f := (firstFound (config.finders inst)).getD ⟨"R/W".toList, 1⟩
  List.replicate f.times f.kind

end SoConfig

structure SoLine where
  conLine : Text
  kind : List Char
  function : List Char
  hash : UInt16

/-- The first configured line that ends with the location, up to its first space. -/
def matchedLine (conLines : List Text) (sourceLoc : Text) : Option Text :=
  conLines.find? fun conLine => (eraseDotSlash sourceLoc).isSuffixOf (splitConLine conLine)

def SoConfig.instLines (config : SoConfig) (conLines : List Text) (function : List Char) (inst : SoInst) :
    List SoLine :=
  if inst.sourceLoc = [] then []
  else if colon ∉ inst.sourceLoc then []
  else
    match matchedLine conLines inst.sourceLoc with
    | none => []
    | some conLine => (config.kinds inst).map fun kind =>
        { conLine, kind, function, hash := stringHashEncoding (splitConLine conLine) }

/-- What is printed for the functions that are not filtered. -/
def Module.soLines (m : Module) (s : Search m.n) (insts : Fin m.n → List SoInst) (config : SoConfig)
    (conLines : List Text) : List SoLine :=
  (List.finRange m.n).flatMap fun f =>
    if m.isFiltered s f then [] else (insts f).flatMap (config.instLines conLines (m.fn f).name)

theorem firstFound_eq_some {fs : List Finder} {f : Finder} (h : firstFound fs = some f) :
    f ∈ fs ∧ 0 < f.times := by
  induction fs with
  | nil => cases h
  | cons g rest ih =>
    rw [firstFound] at h
    split at h
    · next hpos =>
      obtain rfl := Option.some.inj h
      exact ⟨List.mem_cons_self, hpos⟩
    · exact ⟨List.mem_cons_of_mem g (ih h).1, (ih h).2⟩

namespace SoConfig
variable (config : SoConfig) (inst : SoInst)

def allKinds : List (List Char) :=
  ["malloc".toList, "realloc".toList, "free".toList, "new".toList, "delete".toList, "memset".toList,
    "memcpy".toList, "lock".toList, "unlock".toList, "std_atomic".toList, "std_size".toList,
    "std::vector<...>::resize".toList, "nullptr".toList, "R/W".toList]

theorem finders_kind {f : Finder} (hf : f ∈ config.finders inst) : f.kind ∈ allKinds := by
  have hcall : (config.callFinders inst).map Finder.kind ⊆ allKinds := by
    simp only [callFinders, List.map_cons, List.map_nil, finder, wrapper]
    decide
  have hinvoke : (config.invokeFinders inst).map Finder.kind ⊆ allKinds := by
    simp only [invokeFinders, List.map_cons, List.map_nil, finder]
    decide
  unfold finders at hf
  split at hf
  · exact hcall (List.mem_map_of_mem hf)
  · exact hinvoke (List.mem_map_of_mem hf)
  · rw [List.mem_singleton.mp hf]
    change "nullptr".toList ∈ allKinds
    decide
  · exact absurd hf List.not_mem_nil

/-- An instruction has one kind, printed once unless it calls a wrapper. -/
theorem exists_kinds : ∃ kind ∈ allKinds, ∃ times, 0 < times ∧
    config.kinds inst = List.replicate times kind := by
  rw [kinds]
  cases hfound : firstFound (config.finders inst) with
  | none => exact ⟨"R/W".toList, by decide, 1, Nat.one_pos, rfl⟩
  | some f =>
    obtain ⟨hf, hpos⟩ := firstFound_eq_some hfound
    exact ⟨f.kind, config.finders_kind inst hf, f.times, hpos, rfl⟩

end SoConfig

end Period.Pass
