import Mathlib.Data.List.DropRight
import Mathlib.Data.List.Infix
import Period.Analysis.MemGroup

/-!
# `get_ASAN_error_type`

The standard error of the target is read line by line. Most lines change nothing; a report
line names the type of the crash by a word that is cut off at a blank, and a line without
this blank raises `ValueError`.
-/

namespace Period.Driver

open Period.Analysis
set_option autoImplicit false

def contains (line : Text) (needle : String) : Bool := decide (needle.toList <:+: line)

def strip (line : Text) : Text := (line.dropWhile isSpace).rdropWhile isSpace

def stripColon (line : Text) : Text := (line.dropWhile (· = ':')).rdropWhile (· = ':')

def afterLastColon (line : Text) : Text := line.rtakeWhile (· ≠ ':')

def afterFirstColon (line : Text) : Text :=
  if ':' ∈ line then (line.dropWhile (· ≠ ':')).drop 1 else line

def leftOf (tmp : Text) : Text := tmp.takeWhile (· ≠ ' ')

def rightOf (tmp : Text) : Text := (tmp.dropWhile (· ≠ ' ')).drop 1

/-- `left, right = tmp.split(' ',1)`. -/
def splitOnce (tmp : Text) : Option (Text × Text) :=
  if ' ' ∈ tmp then some (leftOf tmp, rightOf tmp) else none

/-- `readlines()` of an `io.StringIO`. -/
def readlines (context : Text) : List Text := context.splitBy fun c _ => c ≠ '\n'

inductive LineKind where
  | requested
  | report
  | failure
  | summary
  | checkFailed
  | frame
  | assertion
  | other
  deriving DecidableEq, Repr

def lineKind (line : Text) : LineKind :=
  if contains line "ERROR: AddressSanitizer: requested allocation size" ||
      contains line "WARNING: AddressSanitizer: requested allocation size" then .requested
  else if contains line "ERROR: AddressSanitizer:" || contains line "WARNING: ThreadSanitizer:" ||
      contains line "ERROR: ThreadSanitizer:" then .report
  else if contains line "WARNING: AddressSanitizer" || contains line "ERROR: AddressSanitizer" then
    .failure
  else if contains line "SUMMARY: AddressSanitizer" || contains line "SUMMARY: ThreadSanitizer" then
    .summary
  else if contains line "AddressSanitizer CHECK failed" then .checkFailed
  else if contains line "#" then .frame
  else if contains line "Assertion " && contains line "failed" || contains line "Assertion failure" then
    .assertion
  else .other

structure Crash where
  crashType : Text
  crashDesc : Text
  deriving DecidableEq, Repr

def failsToAllocate (line : Text) : Bool :=
  contains line "failed to allocate" && contains line "WARNING" ||
    contains line "failed to allocate" && contains line "ERROR"

/-- The text from where the message of a failed check begins. -/
def fromCheck (line : Text) : Text :=
  line.drop ((List.range line.length).findIdx fun i =>
    "AddressSanitizer CHECK failed".toList.isPrefixOf (line.drop i))

def reportType (line : Text) : Option Text := do
  let tmp := strip (afterLastColon line)
  let r ← splitOnce tmp
  let left ← if r.1 = "attempting".toList then (splitOnce r.2).map Prod.fst else some r.1
  return strip (if left = "data".toList then "data-race".toList else left)

def failureType (line : Text) : Option Text :=
  if failsToAllocate line then some "Failed-to-allocate".toList
  else (splitOnce (strip (afterFirstColon line))).map fun r => strip r.1

/-- One line. In a frame a column is looked for, but not kept. -/
def classify (line : Text) (s : Crash) : Option Crash :=
  match lineKind line with
  | .requested => some { s with crashType := "Failed-to-allocate".toList }
  | .report => (reportType line).map fun crashType => { s with crashType }
  | .failure => (failureType line).map fun crashType => { s with crashType }
  | .summary =>
    some {
      crashType :=
        if contains line "leaked" && contains line "allocation" then "memory leaks".toList
        else s.crashType
      crashDesc := strip line }
  | .checkFailed => some { s with crashDesc := strip (strip (fromCheck line)) }
  | .frame => some s
  | .assertion => some { s with crashType := "assertion failed".toList }
  | .other => some s

def stops (line : Text) : Bool :=
  lineKind line = .assertion || contains line "Aborted (core dumped)" || contains line "Aborted" ||
    contains line "SUMMARY: AddressSanitizer: " || contains line "SUMMARY: ThreadSanitizer: "

def asanLoop : List Text → Crash → Option Crash
  | [], s => some s
  | line :: context, s => do
    let s' ← classify line s
    if stops line then return s' else asanLoop context s'

def cleanLines (context : Text) : List Text :=
  (readlines context).map fun line => stripColon (strip line)

/-- `get_ASAN_error_type`; `none` is a `ValueError`. -/
def getASANErrorType (contextBytes : ByteArray) : Option Crash :=
  match contextBytes.utf8Decode? with
  | none => some { crashType := [], crashDesc := [] }
  | some context => do
    let s ← asanLoop (cleanLines context.toList) { crashType := [], crashDesc := [] }
    return if s.crashType = [] then { s with crashType := "Exception".toList } else s

theorem getASANErrorType_utf8Encode (context : Text) : getASANErrorType context.utf8Encode =
    (asanLoop (cleanLines context) { crashType := [], crashDesc := [] }).map fun s =>
      if s.crashType = [] then { s with crashType := "Exception".toList } else s := by
  rw [getASANErrorType, List.utf8Decode?_utf8Encode]
  exact bind_pure_comp _ _

/-! ## Lines with their blanks -/

def considered : List Text → List Text
  | [] => []
  | line :: context => if stops line then [line] else line :: considered context

/-- The line has the blanks at which its word is cut off. -/
def HasBlanks (line : Text) : Prop :=
  match lineKind line with
  | .report => ' ' ∈ strip (afterLastColon line) ∧
    (leftOf (strip (afterLastColon line)) = "attempting".toList →
      ' ' ∈ rightOf (strip (afterLastColon line)))
  | .failure => failsToAllocate line = true ∨ ' ' ∈ strip (afterFirstColon line)
  | _ => True

/-- The word of a report line: the first one behind the last colon, or the one after it. -/
def reportWord (line : Text) : Text :=
  let tmp := strip (afterLastColon line)
  if leftOf tmp = "attempting".toList then leftOf (rightOf tmp) else leftOf tmp

/-- If the line names a type: whether it is a word with a slash. -/
def slashed (line : Text) : Option Bool :=
  match lineKind line with
  | .requested => some false
  | .report => some ('/' ∈ reportWord line)
  | .failure => some (!failsToAllocate line && '/' ∈ leftOf (strip (afterFirstColon line)))
  | .summary => if contains line "leaked" && contains line "allocation" then some false else none
  | .assertion => some false
  | _ => none

def lastSlashed (lines : List Text) (before : Bool) : Bool :=
  lines.foldl (fun b line => (slashed line).getD b) before

section Lines
variable {line : Text} {s : Crash}

theorem mem_dropWhile {p : Char → Bool} {c : Char} (hc : p c = false) (line : Text) :
    c ∈ line.dropWhile p ↔ c ∈ line := by
  constructor
  · exact fun h => List.dropWhile_subset p h
  · intro h
    rw [← List.takeWhile_append_dropWhile (p := p) (l := line)] at h
    rcases List.mem_append.mp h with h | h
    · rw [List.mem_takeWhile_imp h] at hc
      cases hc
    · exact h

theorem mem_strip {c : Char} (hc : isSpace c = false) (line : Text) : c ∈ strip line ↔ c ∈ line := by
  rw [strip, List.rdropWhile, List.mem_reverse, mem_dropWhile hc, List.mem_reverse, mem_dropWhile hc]

theorem splitOnce_of_mem {tmp : Text} (h : ' ' ∈ tmp) : splitOnce tmp = some (leftOf tmp, rightOf tmp) :=
  if_pos h

theorem splitOnce_eq_none {tmp : Text} (h : ' ' ∉ tmp) : splitOnce tmp = none := if_neg h

theorem slash_strip (word : Text) : decide ('/' ∈ strip word) = decide ('/' ∈ word) :=
  decide_eq_decide.mpr (mem_strip (by decide) word)

theorem reportType_of_blanks (hblank : ' ' ∈ strip (afterLastColon line))
    (hnext : leftOf (strip (afterLastColon line)) = "attempting".toList →
      ' ' ∈ rightOf (strip (afterLastColon line))) :
    reportType line = some (strip (if reportWord line = "data".toList then "data-race".toList
      else reportWord line)) := by
  unfold reportType reportWord
  dsimp only
  rw [splitOnce_of_mem hblank]
  by_cases hattempting : leftOf (strip (afterLastColon line)) = "attempting".toList
  · have hcut : (splitOnce (rightOf (strip (afterLastColon line)))).map Prod.fst =
        some (leftOf (rightOf (strip (afterLastColon line)))) := by
      rw [splitOnce_of_mem (hnext hattempting)]
      rfl
    simp only [Option.bind_eq_bind, Option.bind_some, if_pos hattempting, hcut]
    rfl
  · simp only [Option.bind_eq_bind, Option.bind_some, if_neg hattempting]
    rfl

theorem slash_reportType {crashType : Text} (h : reportType line = some crashType)
    (hblank : ' ' ∈ strip (afterLastColon line))
    (hnext : leftOf (strip (afterLastColon line)) = "attempting".toList →
      ' ' ∈ rightOf (strip (afterLastColon line))) :
    decide ('/' ∈ crashType) = decide ('/' ∈ reportWord line) := by
  rw [reportType_of_blanks hblank hnext] at h
  obtain rfl := Option.some.inj h
  rw [slash_strip]
  split
  · next hdata =>
    rw [hdata]
    rfl
  · rfl

theorem reportType_eq_none (h : ¬ (' ' ∈ strip (afterLastColon line) ∧
    (leftOf (strip (afterLastColon line)) = "attempting".toList →
      ' ' ∈ rightOf (strip (afterLastColon line))))) : reportType line = none := by
  unfold reportType
  dsimp only
  by_cases hblank : ' ' ∈ strip (afterLastColon line)
  · obtain ⟨hattempting, hno⟩ := Classical.not_imp.mp fun hnext => h ⟨hblank, hnext⟩
    rw [splitOnce_of_mem hblank]
    simp only [Option.bind_eq_bind, Option.bind_some, if_pos hattempting, splitOnce_eq_none hno]
    rfl
  · rw [splitOnce_eq_none hblank]
    rfl

theorem classify_of_blanks (h : HasBlanks line) (s : Crash) : ∃ s', classify line s = some s' ∧
    decide ('/' ∈ s'.crashType) = (slashed line).getD (decide ('/' ∈ s.crashType)) := by
  unfold HasBlanks at h
  unfold classify slashed
  cases hkind : lineKind line with
  | requested =>
    have hno : decide ('/' ∈ "Failed-to-allocate".toList) = false := by decide
    exact ⟨_, rfl, hno⟩
  | report =>
    rw [hkind] at h
    have htype := reportType_of_blanks h.1 h.2
    rw [htype]
    exact ⟨_, rfl, slash_reportType htype h.1 h.2⟩
  | failure =>
    rw [hkind] at h
    dsimp only
    by_cases hfails : failsToAllocate line = true
    · have hno : decide ('/' ∈ "Failed-to-allocate".toList) = false := by decide
      rw [failureType, if_pos hfails, hfails]
      exact ⟨_, rfl, hno⟩
    · have hblank := h.resolve_left hfails
      rw [failureType, if_neg hfails, splitOnce_of_mem hblank, Bool.eq_false_iff.mpr hfails]
      exact ⟨_, rfl, slash_strip _⟩
  | summary =>
    refine ⟨_, rfl, ?_⟩
    by_cases hleak : (contains line "leaked" && contains line "allocation") = true
    · have hno : decide ('/' ∈ "memory leaks".toList) = false := by decide
      simp only [if_pos hleak]
      exact hno
    · simp only [if_neg hleak]
      rfl
  | checkFailed => exact ⟨_, rfl, rfl⟩
  | frame => exact ⟨_, rfl, rfl⟩
  | assertion =>
    have hno : decide ('/' ∈ "assertion failed".toList) = false := by decide
    exact ⟨_, rfl, hno⟩
  | other => exact ⟨_, rfl, rfl⟩

theorem classify_eq_none (h : ¬ HasBlanks line) (s : Crash) : classify line s = none := by
  unfold HasBlanks at h
  unfold classify
  cases hkind : lineKind line with
  | report =>
    rw [hkind] at h
    rw [reportType_eq_none h]
    rfl
  | failure =>
    rw [hkind, not_or] at h
    rw [failureType, if_neg h.1, splitOnce_eq_none h.2]
    rfl
  | requested | summary | checkFailed | frame | assertion | other =>
    rw [hkind] at h
    exact absurd trivial h

/-- If no line up to the break lacks its blanks, the loop ends with the last type named. -/
theorem asanLoop_of_blanks {lines : List Text} (h : ∀ line ∈ considered lines, HasBlanks line)
    (s : Crash) : ∃ s', asanLoop lines s = some s' ∧
      decide ('/' ∈ s'.crashType) = lastSlashed (considered lines) (decide ('/' ∈ s.crashType)) := by
  induction lines generalizing s with
  | nil => exact ⟨s, rfl, rfl⟩
  | cons line lines ih =>
    rw [asanLoop]
    rw [considered] at h ⊢
    by_cases hstop : stops line = true
    · rw [if_pos hstop] at h ⊢
      obtain ⟨s', hline, hslash⟩ := classify_of_blanks (h line List.mem_cons_self) s
      rw [hline]
      exact ⟨s', if_pos hstop, hslash⟩
    · rw [if_neg hstop] at h ⊢
      obtain ⟨s', hline, hslash⟩ := classify_of_blanks (h line List.mem_cons_self) s
      obtain ⟨s'', hloop, hlast⟩ := ih (fun l hl => h l (List.mem_cons_of_mem line hl)) s'
      rw [hline]
      refine ⟨s'', (if_neg hstop).trans hloop, ?_⟩
      rw [hlast, hslash]
      rfl

theorem asanLoop_eq_none {lines : List Text} (h : ∃ line ∈ considered lines, ¬ HasBlanks line)
    (s : Crash) : asanLoop lines s = none := by
  induction lines generalizing s with
  | nil =>
    obtain ⟨line, hmem, _⟩ := h
    cases hmem
  | cons line lines ih =>
    rw [asanLoop]
    by_cases hline : HasBlanks line
    · obtain ⟨s', hclass, _⟩ := classify_of_blanks hline s
      rw [considered] at h
      by_cases hstop : stops line = true
      · rw [if_pos hstop] at h
        obtain ⟨line', hmem, hlack⟩ := h
        exact absurd (List.mem_singleton.mp hmem ▸ hline) hlack
      · rw [if_neg hstop] at h
        obtain ⟨line', hmem, hlack⟩ := h
        rcases List.mem_cons.mp hmem with rfl | hmem
        · exact absurd hline hlack
        · rw [hclass]
          exact (if_neg hstop).trans (ih ⟨line', hmem, hlack⟩ s')
    · rw [classify_eq_none hline]
      rfl

end Lines

end Period.Driver
