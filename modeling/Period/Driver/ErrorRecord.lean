import Period.Driver.AsanError

/-!
# `record_error_message`

The counter of the errors goes up before the file is opened, and the name of the file ends
with the type of the crash.
-/

namespace Period.Driver

open Period.Analysis
set_option autoImplicit false

def FILE_SAVED_MAXNUM : Nat := 10000

/-- A saved file: the text of the pattern, and behind it what the target has printed. -/
structure SavedFile where
  name : Text
  pattern : List (List Nat)
  data : Option ByteArray

/-- What `record_error_message` keeps, with the files in `Errors` and in `DiffResult`. -/
structure ErrorLog where
  statusL : List Int
  totalErrorsInterleavings : Nat
  errors : List SavedFile
  outputNum : Nat
  rlts : List ByteArray
  diffResult : List SavedFile

inductive Raised where
  | valueError
  | fileNotFoundError
  deriving DecidableEq, Repr

def pad (width n : Nat) : Text := (Nat.toDigits 10 n).leftpad width '0'

def errFileName (number rounds : Nat) (crashType : Text) : Text :=
  pad 6 number ++ '_' :: (pad 7 rounds ++ '_' :: crashType.map fun c => if c = ' ' then '-' else c)

/-- `record_error_message`. A name with a slash leads into a directory that does not exist. -/
def recordErrorMessage (checkSTDOUT checkSTDERR : Nat) (returncode : Int)
    (stdoutdata stderrdata : ByteArray) (pattern : List (List Nat)) (rounds : Nat) (log : ErrorLog) :
    ErrorLog × Option Raised :=
  match getASANErrorType stderrdata with
  | none => (log, some .valueError)
  | some crash =>
    let log :=
      if returncode ∈ log.statusL then log else { log with statusL := log.statusL ++ [returncode] }
    if returncode ≠ 0 ∧ returncode ≠ 1 ∧ returncode ≠ 6 ∧ returncode ≠ -11 then
      if log.totalErrorsInterleavings < FILE_SAVED_MAXNUM then
        let log := { log with totalErrorsInterleavings := log.totalErrorsInterleavings + 1 }
        let name := errFileName log.totalErrorsInterleavings rounds crash.crashType
        if '/' ∈ name then (log, some .fileNotFoundError)
        else
          let data := if checkSTDERR = 1 then some stderrdata else none
          ({ log with errors := log.errors ++ [{ name, pattern, data }] }, none)
      else (log, none)
    else if checkSTDOUT > 1 ∧ ¬ log.rlts.contains stdoutdata then
      if log.outputNum < FILE_SAVED_MAXNUM then
        let outputNum := log.outputNum + 1
        let file := { name := pad 6 outputNum, pattern, data := some stdoutdata }
        ({ log with
            outputNum
            rlts := log.rlts ++ [stdoutdata]
            diffResult := log.diffResult ++ [file] }, none)
      else (log, none)
    else (log, none)

/-- The run is recorded: no exception, the counter is one higher, and there is exactly one new
file in `Errors`, which has the pattern. -/
structure Recorded (pattern : List (List Nat)) (log : ErrorLog) (r : ErrorLog × Option Raised) :
    Prop where
  returns : r.2 = none
  counted : r.1.totalErrorsInterleavings = log.totalErrorsInterleavings + 1
  saved : ∃ file, r.1.errors = log.errors ++ [file] ∧ file.pattern = pattern

/-- If the bytes are text, no line up to the break lacks its blanks, and the last type named
has no slash. -/
def Legible (stderrdata : ByteArray) : Prop :=
  ∀ context, stderrdata.utf8Decode? = some context →
    (∀ line ∈ considered (cleanLines context.toList), HasBlanks line) ∧
      lastSlashed (considered (cleanLines context.toList)) false = false

section Names

theorem slash_pad (width n : Nat) : '/' ∉ pad width n := by
  rw [pad, List.leftpad, List.mem_append, not_or]
  constructor
  · intro h
    cases List.eq_of_mem_replicate h
  · intro h
    have hdigit := Nat.isDigit_of_mem_toDigits (by decide) (by decide) h
    cases hdigit

theorem slash_errFileName (number rounds : Nat) (crashType : Text) :
    '/' ∈ errFileName number rounds crashType ↔ '/' ∈ crashType := by
  have hword : '/' ∈ crashType.map (fun c => if c = ' ' then '-' else c) ↔ '/' ∈ crashType := by
    rw [List.mem_map]
    constructor
    · intro ⟨c, hc, hslash⟩
      split at hslash
      · cases hslash
      · exact hslash ▸ hc
    · exact fun h => ⟨'/', h, rfl⟩
  rw [errFileName, List.mem_append, List.mem_cons, List.mem_append, List.mem_cons, hword]
  constructor
  · rintro (hnumber | hbar | hrounds | hbar | h)
    · exact absurd hnumber (slash_pad _ _)
    · cases hbar
    · exact absurd hrounds (slash_pad _ _)
    · cases hbar
    · exact h
  · exact fun h => Or.inr (Or.inr (Or.inr (Or.inr h)))

end Names

section Record
variable {stderrdata : ByteArray}

/-- What the type is at the end has a slash only if the last type named has one. -/
theorem loop_legible_iff (lines : List Text) :
    ((∀ line ∈ considered lines, HasBlanks line) ∧ lastSlashed (considered lines) false = false) ↔
      ∃ s, asanLoop lines { crashType := [], crashDesc := [] } = some s ∧ '/' ∉ s.crashType := by
  by_cases hblanks : ∀ line ∈ considered lines, HasBlanks line
  · obtain ⟨s, hloop, hslash⟩ := asanLoop_of_blanks hblanks { crashType := [], crashDesc := [] }
    have hempty : decide ('/' ∈ ([] : Text)) = false := by decide
    rw [hempty] at hslash
    rw [and_iff_right hblanks, hloop, ← hslash, decide_eq_false_iff_not]
    constructor
    · exact fun h => ⟨s, rfl, h⟩
    · rintro ⟨s', hs', h⟩
      exact Option.some.inj hs' ▸ h
  · apply iff_of_false
    · exact fun h => hblanks h.1
    · rintro ⟨s, hloop, _⟩
      obtain ⟨line, hline⟩ := Classical.not_forall.mp hblanks
      obtain ⟨hmem, hlack⟩ := Classical.not_imp.mp hline
      rw [asanLoop_eq_none ⟨line, hmem, hlack⟩] at hloop
      cases hloop

/-- Legible bytes are those for which a type without a slash is returned. -/
theorem legible_iff : Legible stderrdata ↔
    ∃ crash, getASANErrorType stderrdata = some crash ∧ '/' ∉ crash.crashType := by
  unfold Legible getASANErrorType
  cases hdecode : stderrdata.utf8Decode? with
  | none => exact iff_of_true nofun ⟨_, rfl, List.not_mem_nil⟩
  | some context =>
    have hcontext : (∀ context', some context = some context' →
        (∀ line ∈ considered (cleanLines context'.toList), HasBlanks line) ∧
          lastSlashed (considered (cleanLines context'.toList)) false = false) ↔
        ∃ s, asanLoop (cleanLines context.toList) { crashType := [], crashDesc := [] } = some s ∧
          '/' ∉ s.crashType := by
      rw [← loop_legible_iff]
      constructor
      · exact fun h => h context rfl
      · rintro h context' heq
        exact Option.some.inj heq ▸ h
    rw [hcontext]
    cases hloop : asanLoop (cleanLines context.toList) { crashType := [], crashDesc := [] } with
    | none =>
      apply iff_of_false
      · rintro ⟨s, hs, _⟩
        cases hs
      · rintro ⟨s, hs, _⟩
        simp only [hloop] at hs
        cases hs
    | some s =>
      have hexception : '/' ∉ (if s.crashType = [] then { s with crashType := "Exception".toList }
          else s).crashType ↔ '/' ∉ s.crashType := by
        split
        · next hnil =>
          have hno : '/' ∉ "Exception".toList := by decide
          rw [hnil]
          exact iff_of_true hno List.not_mem_nil
        · rfl
      simp only [hloop]
      constructor
      · rintro ⟨s', hs', h⟩
        obtain rfl := Option.some.inj hs'
        exact ⟨_, rfl, hexception.mpr h⟩
      · rintro ⟨crash, hcrash, h⟩
        obtain rfl := Option.some.inj hcrash
        exact ⟨s, rfl, hexception.mp h⟩

/-- A crash with room left is recorded exactly when its standard error is legible. -/
theorem recorded_iff (checkSTDOUT checkSTDERR : Nat) {returncode : Int}
    (hcode : returncode ≠ 0 ∧ returncode ≠ 1 ∧ returncode ≠ 6 ∧ returncode ≠ -11)
    (stdoutdata stderrdata : ByteArray) (pattern : List (List Nat)) (rounds : Nat) {log : ErrorLog}
    (hroom : log.totalErrorsInterleavings < FILE_SAVED_MAXNUM) :
    Recorded pattern log (recordErrorMessage checkSTDOUT checkSTDERR returncode stdoutdata stderrdata
      pattern rounds log) ↔ Legible stderrdata := by
  rw [legible_iff, recordErrorMessage]
  cases getASANErrorType stderrdata with
  | none =>
    apply iff_of_false
    · intro h
      cases h.returns
    · rintro ⟨crash, hcrash, _⟩
      cases hcrash
  | some crash =>
    have htotal : (if returncode ∈ log.statusL then log
        else { log with statusL := log.statusL ++ [returncode] }).totalErrorsInterleavings =
        log.totalErrorsInterleavings := by
      split <;> rfl
    have herrors : (if returncode ∈ log.statusL then log
        else { log with statusL := log.statusL ++ [returncode] }).errors = log.errors := by
      split <;> rfl
    dsimp only
    generalize (if returncode ∈ log.statusL then log
      else { log with statusL := log.statusL ++ [returncode] }) = log' at htotal herrors ⊢
    rw [if_pos hcode, if_pos (htotal ▸ hroom)]
    by_cases hslash : '/' ∈ crash.crashType
    · rw [if_pos ((slash_errFileName _ _ _).mpr hslash)]
      apply iff_of_false
      · intro h
        cases h.returns
      · rintro ⟨crash', hcrash, hno⟩
        exact hno (Option.some.inj hcrash ▸ hslash)
    · rw [if_neg (mt (slash_errFileName _ _ _).mp hslash)]
      apply iff_of_true
      · exact ⟨rfl, congrArg (· + 1) htotal, _, congrArg (· ++ _) herrors, rfl⟩
      · exact ⟨crash, rfl, hslash⟩

end Record

def emptyLog : ErrorLog :=
  { statusL := [], totalErrorsInterleavings := 0, errors := [], outputNum := 0, rlts := [],
    diffResult := [] }

theorem recorded_iff_segv :
    Recorded [[0, 1], [0]] emptyLog (recordErrorMessage 0 1 (-6) .empty
      "ERROR: AddressSanitizer: SEGV on unknown address\n".toList.utf8Encode [[0, 1], [0]] 1
      emptyLog) ↔
      Legible "ERROR: AddressSanitizer: SEGV on unknown address\n".toList.utf8Encode :=
  recorded_iff 0 1 (by decide) .empty _ [[0, 1], [0]] 1 (by decide)

/-- A report line that ends with its word, and one whose word is a path: nothing is saved. -/
theorem not_recorded_report :
    recordErrorMessage 0 1 (-6) .empty "ERROR: AddressSanitizer: SEGV\n".toList.utf8Encode
      [[0, 1], [0]] 1 emptyLog = (emptyLog, some .valueError) ∧
    recordErrorMessage 0 1 (-6) .empty
      "ERROR: AddressSanitizer: cannot read: /proc/self/maps x\n".toList.utf8Encode [[0, 1], [0]] 1
      emptyLog =
        ({ emptyLog with statusL := [-6], totalErrorsInterleavings := 1 }, some .fileNotFoundError) := by
  have hword : asanLoop (cleanLines "ERROR: AddressSanitizer: SEGV\n".toList)
      { crashType := [], crashDesc := [] } = none := by
    decide
  have hpath : asanLoop (cleanLines "ERROR: AddressSanitizer: cannot read: /proc/self/maps x\n".toList)
      { crashType := [], crashDesc := [] } =
        some { crashType := "/proc/self/maps".toList, crashDesc := [] } := by
    decide
  constructor
  · rw [recordErrorMessage, getASANErrorType_utf8Encode, hword]
    rfl
  · rw [recordErrorMessage, getASANErrorType_utf8Encode, hpath]
    rfl

end Period.Driver
