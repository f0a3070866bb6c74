import Mathlib.Data.List.Count
import Period.Pass.LocHash

/-!
# Reading ConConfig

`CountLines` counts the lines that are not empty and sizes the array by their number. The loop
that fills the array counts all lines.
-/

namespace Period.Pass

set_option autoImplicit false

def newline : UInt8 := 10
def carriageReturn : UInt8 := 13
def slash : UInt8 := 47

/-- The lines that `getline` reads, after `line` has been read of the first one. -/
def getlines (line : Text) : Text → List Text
  | [] => if line.isEmpty then [] else [line]
  | c :: rest => if c = newline then line :: getlines [] rest else getlines (line ++ [c]) rest

def countLines (content : Text) : Nat :=
  (getlines [] content).foldl (fun n line => if line.isEmpty then n else n + 1) 0

/-- What the loop writes for a line. -/
def conLineOf (line : Text) : Option Text :=
  if line.getLast? = some carriageReturn then
    if line.length = 1 then some [78, 46, 65, 46] else some (splitConLine line.dropLast)
  else if line.isEmpty then none
  else some (splitConLine line)

/-- The writes of the loop, from line `i` on. -/
def writes : Nat → List Text → List (Nat × Text)
  | _, [] => []
  | i, line :: lines =>
    match conLineOf line with
    | none => writes (i + 1) lines
    | some text => (i, text) :: writes (i + 1) lines

/-- `ConLine` after the loop. A write behind its end is not kept. -/
def readConLines (content : Text) : List Text :=
  (writes 0 (getlines [] content)).foldl (fun conLine w => conLine.set w.1 w.2)
    (List.replicate (countLines content) [])

/-- A line with something in front of its end. -/
def IsLine (line : Text) : Prop := line ≠ [] ∧ line ≠ [carriageReturn]

/-- The line without its end, up to the first space. -/
def firstField (line : Text) : Text :=
  splitConLine (if line.getLast? = some carriageReturn then line.dropLast else line)

def HasField (content field : Text) : Prop :=
  ∃ line ∈ getlines [] content, IsLine line ∧ firstField line = field

/-- The field is the location, in whatever directory. -/
def Names (field sourceLoc : Text) : Prop := field = sourceLoc ∨ (slash :: sourceLoc) <:+ field

/-- The loop builds a call of `instr_LOC_string` at the instruction. -/
def Instruments (conLines : List Text) (onlyPthreadCreate : Bool) (lastLocString : Text) (x : Item) : Prop :=
  ∃ hash dbg, .inserted (.instrLOCString hash) dbg ∈ (visit conLines onlyPthreadCreate lastLocString x).1

/-- The file is read as it says, for an instruction. -/
def ReadsExactly (content : Text) (onlyPthreadCreate : Bool) (lastLocString : Text) (x : Item) : Prop :=
  (∀ w ∈ writes 0 (getlines [] content), w.1 < countLines content) ∧
  (∀ field, HasField content field → field ∈ readConLines content) ∧
  (Instruments (readConLines content) onlyPthreadCreate lastLocString x ↔
    ∃ field, HasField content field ∧ Names field (eraseDotSlash (getSourceLoc x)))

def EmptyLinesLast (content : Text) : Prop :=
  (getlines [] content).Pairwise fun line line' => line = [] → line' = []

theorem conLineOf_eq_none_iff (line : Text) : conLineOf line = none ↔ line = [] := by
  rw [conLineOf]
  split
  · next hlast =>
    have hne : line ≠ [] := by
      rintro rfl
      cases hlast
    split
    · exact iff_of_false nofun hne
    · exact iff_of_false nofun hne
  · split
    · next hempty => exact iff_of_true rfl (List.isEmpty_iff.mp hempty)
    · next hempty => exact iff_of_false nofun fun h => hempty (List.isEmpty_iff.mpr h)

theorem conLineOf_of_isLine {line : Text} (h : IsLine line) : conLineOf line = some (firstField line) := by
  rw [conLineOf, firstField]
  split
  · next hlast =>
    split
    · next hlen =>
      obtain ⟨c, rfl⟩ := List.length_eq_one_iff.mp hlen
      obtain rfl : c = carriageReturn := Option.some.inj hlast
      exact absurd rfl h.2
    · rfl
  · split
    · next hempty => exact absurd (List.isEmpty_iff.mp hempty) h.1
    · rfl

theorem foldl_count (lines : List Text) (n : Nat) :
    lines.foldl (fun n line => if line.isEmpty then n else n + 1) n =
      n + (lines.filterMap conLineOf).length := by
  induction lines generalizing n with
  | nil => rfl
  | cons line lines ih =>
    rw [List.foldl_cons, ih]
    by_cases hempty : line = []
    · rw [List.filterMap_cons_none ((conLineOf_eq_none_iff line).mpr hempty), hempty]
      rfl
    · obtain ⟨text, htext⟩ := Option.ne_none_iff_exists'.mp fun h => hempty ((conLineOf_eq_none_iff line).mp h)
      rw [List.filterMap_cons_some htext, if_neg fun h => hempty (List.isEmpty_iff.mp h), List.length_cons]
      omega

theorem countLines_eq (content : Text) :
    countLines content = ((getlines [] content).filterMap conLineOf).length := by
  rw [countLines, foldl_count, Nat.zero_add]

theorem filterMap_eq_nil {lines : List Text} (h : ∀ line ∈ lines, line = []) :
    lines.filterMap conLineOf = [] :=
  List.filterMap_eq_nil_iff.mpr fun line hline => (conLineOf_eq_none_iff line).mpr (h line hline)

theorem exists_last_write {lines : List Text} (h : lines.filterMap conLineOf ≠ []) (i : Nat) :
    ∃ w ∈ writes i lines, i + (lines.filterMap conLineOf).length ≤ w.1 + 1 := by
  induction lines generalizing i with
  | nil => exact absurd rfl h
  | cons line lines ih =>
    rw [writes]
    cases htext : conLineOf line with
    | none =>
      rw [List.filterMap_cons_none htext] at h ⊢
      obtain ⟨w, hw, hle⟩ := ih h (i + 1)
      exact ⟨w, hw, by omega⟩
    | some text =>
      rw [List.filterMap_cons_some htext, List.length_cons]
      by_cases hrest : lines.filterMap conLineOf = []
      · refine ⟨(i, text), List.mem_cons_self, ?_⟩
        rw [hrest, List.length_nil]
      · obtain ⟨w, hw, hle⟩ := ih hrest (i + 1)
        exact ⟨w, List.mem_cons_of_mem _ hw, by omega⟩

/-- With an empty line in front of another one the last write is behind the end. -/
theorem exists_write_behind {lines : List Text}
    (h : ¬ lines.Pairwise fun line line' => line = [] → line' = []) (i : Nat) :
    ∃ w ∈ writes i lines, i + (lines.filterMap conLineOf).length ≤ w.1 := by
  induction lines generalizing i with
  | nil => exact absurd List.Pairwise.nil h
  | cons line lines ih =>
    rw [List.pairwise_cons] at h
    rw [writes]
    cases htext : conLineOf line with
    | none =>
      rw [List.filterMap_cons_none htext]
      have hmore : lines.filterMap conLineOf ≠ [] := by
        intro hnil
        have hempty : ∀ line' ∈ lines, line' = [] := fun line' hline' =>
          (conLineOf_eq_none_iff line').mp (List.filterMap_eq_nil_iff.mp hnil line' hline')
        refine h ⟨fun line' hline' _ => hempty line' hline', ?_⟩
        exact List.pairwise_of_forall_mem_list fun _ _ b hb _ => hempty b hb
      obtain ⟨w, hw, hle⟩ := exists_last_write hmore (i + 1)
      exact ⟨w, hw, by omega⟩
    | some text =>
      have hline : line ≠ [] := by
        intro hline
        rw [(conLineOf_eq_none_iff line).mpr hline] at htext
        cases htext
      have hrest : ¬ lines.Pairwise fun line line' => line = [] → line' = [] := fun hrest =>
        h ⟨fun _ _ hempty => absurd hempty hline, hrest⟩
      obtain ⟨w, hw, hle⟩ := ih hrest (i + 1)
      refine ⟨w, List.mem_cons_of_mem _ hw, ?_⟩
      rw [List.filterMap_cons_some htext, List.length_cons]
      omega

theorem writes_eq {lines : List Text} (h : lines.Pairwise fun line line' => line = [] → line' = [])
    (i : Nat) : writes i lines = ((lines.filterMap conLineOf).zipIdx i).map Prod.swap := by
  induction lines generalizing i with
  | nil => rfl
  | cons line lines ih =>
    obtain ⟨hline, hrest⟩ := List.pairwise_cons.mp h
    rw [writes]
    cases htext : conLineOf line with
    | none =>
      have hempty := (conLineOf_eq_none_iff line).mp htext
      have hnil := filterMap_eq_nil fun line' hline' => hline line' hline' hempty
      rw [List.filterMap_cons_none htext, ih hrest, hnil]
      rfl
    | some text =>
      rw [List.filterMap_cons_some htext, List.zipIdx_cons, List.map_cons, ← ih hrest]
      rfl

theorem foldl_set_zipIdx (l pre old : List Text) (hlen : old.length = l.length) :
    ((l.zipIdx pre.length).map Prod.swap).foldl (fun conLine w => conLine.set w.1 w.2) (pre ++ old) =
      pre ++ l := by
  induction l generalizing pre old with
  | nil => rw [List.length_eq_zero_iff.mp hlen]; rfl
  | cons a l ih =>
    obtain ⟨b, old, rfl⟩ := List.exists_cons_of_length_eq_add_one hlen
    have hset : (pre ++ b :: old).set pre.length a = (pre ++ [a]) ++ old := by
      rw [List.set_append_right _ _ (Nat.le_refl _), Nat.sub_self, List.set_cons_zero, List.append_assoc]
      rfl
    have hpre : pre.length + 1 = (pre ++ [a]).length := by simp
    rw [List.zipIdx_cons, List.map_cons, List.foldl_cons, Prod.fst_swap, Prod.snd_swap, hset, hpre,
      ih (pre ++ [a]) old (Nat.succ.inj hlen), List.append_assoc]
    rfl

theorem readConLines_eq {content : Text} (h : EmptyLinesLast content) :
    readConLines content = (getlines [] content).filterMap conLineOf := by
  rw [readConLines, writes_eq h, countLines_eq]
  exact foldl_set_zipIdx _ [] _ (List.length_replicate ..)

/-! ## The match -/

theorem instruments_iff {conLines : List Text} {onlyPthreadCreate : Bool} {lastLocString : Text} {x : Item}
    (htracked : tracked x = true) (hnew : lastLocString ≠ getSourceLoc x) (hcolon : colon ∈ getSourceLoc x) :
    Instruments conLines onlyPthreadCreate lastLocString x ↔
      ∃ line ∈ conLines, eraseDotSlash (getSourceLoc x) <:+ line := by
  have hne : getSourceLoc x ≠ [] := List.ne_nil_of_mem hcolon
  have hvisit : (visit conLines onlyPthreadCreate lastLocString x).1 =
      if inConLines conLines (getSourceLoc x) then callsBefore onlyPthreadCreate x ++
        [.inserted (.instrLOCString (locHash (getSourceLoc x))) x.dbg]
      else callsBefore onlyPthreadCreate x := by
    rw [visit, if_neg (by simp [htracked]), if_neg hnew, if_neg hne, if_neg (not_not.mpr hcolon)]
    split <;> rfl
  have hin : inConLines conLines (getSourceLoc x) = true ↔
      ∃ line ∈ conLines, eraseDotSlash (getSourceLoc x) <:+ line := by
    rw [inConLines, List.any_eq_true]
    simp only [List.isSuffixOf_iff_suffix]
  rw [← hin, Instruments, hvisit]
  constructor
  · rintro ⟨hash, dbg, hmem⟩
    by_contra hnot
    rw [if_neg hnot] at hmem
    exact locString_not_mem_callsBefore hash dbg hmem
  · intro hmatch
    rw [if_pos hmatch]
    exact ⟨_, _, List.mem_append_right _ List.mem_cons_self⟩

theorem colon_mem_eraseDotSlash {sourceLoc : Text} (h : colon ∈ sourceLoc) :
    colon ∈ eraseDotSlash sourceLoc := by
  unfold eraseDotSlash
  split
  · rcases List.mem_cons.mp h with hdot | h
    · exact absurd hdot (by decide)
    · rcases List.mem_cons.mp h with hslash | h
      · exact absurd hslash (by decide)
      · exact h
  · exact h

theorem Names.isSuffix {field sourceLoc : Text} (h : Names field sourceLoc) : sourceLoc <:+ field := by
  rcases h with rfl | h
  · exact List.suffix_rfl
  · exact (List.suffix_cons slash sourceLoc).trans h

/-- What the loop writes for a line that only ends is no location. -/
theorem mem_filterMap_conLineOf {content text : Text} (h : text ∈ (getlines [] content).filterMap conLineOf) :
    HasField content text ∨ colon ∉ text := by
  obtain ⟨line, hline, htext⟩ := List.mem_filterMap.mp h
  by_cases hisLine : IsLine line
  · rw [conLineOf_of_isLine hisLine] at htext
    exact Or.inl ⟨line, hline, hisLine, Option.some.inj htext⟩
  · rw [IsLine, not_and_or, not_not, not_not] at hisLine
    rcases hisLine with rfl | rfl
    · cases htext
    · obtain rfl := Option.some.inj htext
      exact Or.inr (by decide)

/-- The file is read as it says exactly when empty lines come last, and no field ends with the
location by chance. -/
theorem readsExactly_iff (content : Text) (onlyPthreadCreate : Bool) {lastLocString : Text} {x : Item}
    (htracked : tracked x = true) (hnew : lastLocString ≠ getSourceLoc x) (hcolon : colon ∈ getSourceLoc x) :
    ReadsExactly content onlyPthreadCreate lastLocString x ↔
      EmptyLinesLast content ∧
      ((∃ field, HasField content field ∧ eraseDotSlash (getSourceLoc x) <:+ field) →
        ∃ field, HasField content field ∧ Names field (eraseDotSlash (getSourceLoc x))) := by
  by_cases hlast : EmptyLinesLast content
  · have hread := readConLines_eq hlast
    have hbounds : ∀ w ∈ writes 0 (getlines [] content), w.1 < countLines content := by
      intro w hw
      rw [writes_eq hlast] at hw
      obtain ⟨v, hv, rfl⟩ := List.mem_map.mp hw
      rw [countLines_eq]
      simpa using List.snd_lt_add_of_mem_zipIdx hv
    have hfields : ∀ field, HasField content field → field ∈ readConLines content := by
      rintro field ⟨line, hline, hisLine, rfl⟩
      rw [hread]
      exact List.mem_filterMap.mpr ⟨line, hline, conLineOf_of_isLine hisLine⟩
    have hmatch : Instruments (readConLines content) onlyPthreadCreate lastLocString x ↔
        ∃ field, HasField content field ∧ eraseDotSlash (getSourceLoc x) <:+ field := by
      rw [instruments_iff htracked hnew hcolon]
      constructor
      · rintro ⟨text, htext, hsuffix⟩
        rw [hread] at htext
        rcases mem_filterMap_conLineOf htext with hfield | hnone
        · exact ⟨text, hfield, hsuffix⟩
        · exact absurd (hsuffix.mem (colon_mem_eraseDotSlash hcolon)) hnone
      · rintro ⟨field, hfield, hsuffix⟩
        exact ⟨field, hfields field hfield, hsuffix⟩
    constructor
    · rintro ⟨_, _, hexact⟩
      exact ⟨hlast, fun hsome => hexact.mp (hmatch.mpr hsome)⟩
    · rintro ⟨_, hnamed⟩
      refine ⟨hbounds, hfields, fun h => hnamed (hmatch.mp h), ?_⟩
      rintro ⟨field, hfield, hnames⟩
      exact hmatch.mpr ⟨field, hfield, hnames.isSuffix⟩
  · refine iff_of_false ?_ fun h => hlast h.1
    rintro ⟨hbounds, _⟩
    obtain ⟨w, hw, hle⟩ := exists_write_behind hlast 0
    have hlt := hbounds w hw
    rw [countLines_eq] at hlt
    omega

def storeAtA3 : Item := .original ⟨.other, [97, 46, 99, 58, 51]⟩

/-- CRLF, and a directory. -/
theorem readsExactly_iff_crlf :
    ReadsExactly [100, 47, 97, 46, 99, 58, 51, 32, 87, 13, 10, 13, 10] true [] storeAtA3 ↔
      EmptyLinesLast [100, 47, 97, 46, 99, 58, 51, 32, 87, 13, 10, 13, 10] ∧
      ((∃ field, HasField [100, 47, 97, 46, 99, 58, 51, 32, 87, 13, 10, 13, 10] field ∧
        eraseDotSlash (getSourceLoc storeAtA3) <:+ field) →
        ∃ field, HasField [100, 47, 97, 46, 99, 58, 51, 32, 87, 13, 10, 13, 10] field ∧
          Names field (eraseDotSlash (getSourceLoc storeAtA3))) :=
  readsExactly_iff _ true (by decide) (by decide) (by decide)

/-- An empty line in front of `a.c:3`, which is then written behind the end. -/
theorem empty_line_overflows : ¬ ∀ (content : Text) (onlyPthreadCreate : Bool) (lastLocString : Text)
    (x : Item), tracked x = true → lastLocString ≠ getSourceLoc x → colon ∈ getSourceLoc x →
    ReadsExactly content onlyPthreadCreate lastLocString x := by
  intro h
  obtain ⟨hbounds, _⟩ := h [10, 97, 46, 99, 58, 51, 10] true [] storeAtA3 (by decide) (by decide) (by decide)
  exact absurd (hbounds (1, [97, 46, 99, 58, 51]) (by decide)) (by decide)

end Period.Pass
