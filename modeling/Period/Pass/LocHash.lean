import Mathlib.Data.UInt
import Period.Pass.Instrument

/-!
# The hash of a location

The sensitive operations pass prints the hash of the configured location, the
instrumentation passes on the hash of the compiler's location, which may be a proper suffix
of it. A hash is an affine function of the one it goes on from.
-/

namespace Period.Pass

set_option autoImplicit false

def space : UInt8 := 32

def splitConLine (conLine : Text) : Text := conLine.takeWhile (· ≠ space)

/-- The first location of ConConfig that ends with the location of the instruction. -/
def matchedLoc (conLines : List Text) (sourceLoc : Text) : Option Text :=
  (conLines.map splitConLine).find? fun loc => (eraseDotSlash sourceLoc).isSuffixOf loc

/-- The hash that `SensitiveOperations::runOnModule` prints for an instruction. -/
def soHash (conLines : List Text) (sourceLoc : Text) : Option UInt16 :=
  if sourceLoc = [] then none
  else if colon ∉ sourceLoc then none
  else (matchedLoc conLines sourceLoc).map stringHashEncoding

/-- What a difference is multiplied by when the text follows. -/
def weight (str : Text) : UInt16 := str.foldr (fun c w => charInt c * w) 1

theorem foldl_sub_foldl (str : Text) (a b : UInt16) :
    str.foldl (fun encodingNum c => encodingNum * charInt c + charInt c) a -
      str.foldl (fun encodingNum c => encodingNum * charInt c + charInt c) b = (a - b) * weight str := by
  induction str generalizing a b with
  | nil => exact (UInt16.mul_one _).symm
  | cons c str ih =>
    have hweight : weight (c :: str) = charInt c * weight str := rfl
    rw [List.foldl_cons, List.foldl_cons, ih, hweight]
    grind

theorem stringHashEncoding_append_iff (front str : Text) :
    stringHashEncoding (front ++ str) = stringHashEncoding str ↔
      (stringHashEncoding front - 26) * weight str = 0 := by
  rw [← foldl_sub_foldl, sub_eq_zero, stringHashEncoding, List.foldl_append]
  rfl

/-- What is in front of the location does not show in the hash. -/
def FrontVanishes (conLines : List Text) (sourceLoc : Text) : Prop :=
  ∀ front, matchedLoc conLines sourceLoc = some (front ++ eraseDotSlash sourceLoc) →
    (stringHashEncoding front - 26) * weight (eraseDotSlash sourceLoc) = 0

section Visit
variable {conLines : List Text} {onlyPthreadCreate : Bool} {lastLocString : Text} {x : Item}

theorem locString_not_mem_callsBefore (hash : UInt16) (dbg : Text) :
    Item.inserted (.instrLOCString hash) dbg ∉ callsBefore onlyPthreadCreate x := by
  intro h
  unfold callsBefore at h
  split at h
  · cases List.mem_singleton.mp h
  · cases List.mem_singleton.mp h
  · split at h
    · cases List.mem_singleton.mp h
    · cases h
  · split at h
    · cases h
    · cases List.mem_singleton.mp h
  · split at h
    · cases h
    · cases List.mem_singleton.mp h
  · cases h

/-- The call that the instrumentation builds has the hash of the location. -/
theorem hash_of_mem_visit {hash : UInt16}
    (h : Item.inserted (.instrLOCString hash) x.dbg ∈
      (visit conLines onlyPthreadCreate lastLocString x).1) : hash = locHash (getSourceLoc x) := by
  unfold visit at h
  dsimp only at h
  have hbefore : Item.inserted (.instrLOCString hash) x.dbg ∈ callsBefore onlyPthreadCreate x →
      hash = locHash (getSourceLoc x) :=
    fun hmem => absurd hmem (locString_not_mem_callsBefore hash x.dbg)
  split at h
  · exact hbefore h
  · split at h
    · exact hbefore h
    · split at h
      · exact hbefore h
      · split at h
        · exact hbefore h
        · split at h
          · rcases List.mem_append.mp h with h | h
            · exact hbefore h
            · cases List.mem_singleton.mp h
              rfl
          · exact hbefore h

/-- The hash in the so file and the one in the call are equal exactly when the part in front
vanishes. -/
theorem soHash_eq_iff {hash hash' : UInt16} (hso : soHash conLines (getSourceLoc x) = some hash)
    (hcall : Item.inserted (.instrLOCString hash') x.dbg ∈
      (visit conLines onlyPthreadCreate lastLocString x).1) :
    hash = hash' ↔ FrontVanishes conLines (getSourceLoc x) := by
  rw [hash_of_mem_visit hcall, locHash]
  unfold soHash at hso
  split at hso
  · cases hso
  · split at hso
    · cases hso
    · obtain ⟨loc, hloc, rfl⟩ := Option.map_eq_some_iff.mp hso
      obtain ⟨front, rfl⟩ := List.isSuffixOf_iff_suffix.mp (List.find?_some hloc)
      rw [stringHashEncoding_append_iff]
      constructor
      · intro hzero front' hfront'
        obtain rfl := List.append_cancel_right (Option.some.inj (hloc.symm.trans hfront'))
        exact hzero
      · exact fun h => h front hloc

end Visit

/-- `a.c:3` is configured as it is compiled. -/
theorem soHash_eq_iff_same :
    stringHashEncoding [97, 46, 99, 58, 51] = stringHashEncoding [97, 46, 99, 58, 51] ↔
      FrontVanishes [[97, 46, 99, 58, 51]] [97, 46, 99, 58, 51] :=
  @soHash_eq_iff [[97, 46, 99, 58, 51]] true []
    (.original { opcode := .other, dbg := [97, 46, 99, 58, 51] }) _ _ rfl (by decide)

/-- `src/a.c:3` is configured and `a.c:3` compiled. -/
theorem soHash_differs :
    soHash [[115, 114, 99, 47, 97, 46, 99, 58, 51]] [97, 46, 99, 58, 51] = some 50307 ∧
    Item.inserted (.instrLOCString 52859) [97, 46, 99, 58, 51] ∈
      (visit [[115, 114, 99, 47, 97, 46, 99, 58, 51]] true []
        (.original { opcode := .other, dbg := [97, 46, 99, 58, 51] })).1 := by
  decide

end Period.Pass
