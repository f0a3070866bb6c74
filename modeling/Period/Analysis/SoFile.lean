import Mathlib.Data.List.Find
import Period.Analysis.KeyPoints
import Period.Analysis.Printed
import Period.Pass.Sensitive

/-!
# The so file

The sensitive operations pass prints lines of four words, and the script splits them. So the
entries are the instructions of the functions that are not filtered, each with the first
configured location that ends with its own. The pass also prints the calls that it follows, and
as `[DEBUGDEBUG]` is not `[DEBUG]`, the script takes these lines for entries.
-/

namespace Period.Analysis

open Period.Pass (Module Search CallInst SoInst SoConfig SoLine matchedLine splitConLine eraseDotSlash colon
  stringHashEncoding debugLine)
set_option autoImplicit false

def SoEntry.line (e : SoEntry) : Text := e.loc ++ ' ' :: (e.typ ++ ' ' :: (e.function ++ ' ' :: e.hash))

/-- What `outs()` gets for a line, without its end. -/
def soText (l : SoLine) : Pass.Text :=
  l.conLine ++ encode (' ' :: (l.kind ++ ' ' :: (l.function ++ ' ' :: Nat.toDigits 10 l.hash.toNat)))

/-- The file: the calls that are followed, lines of `[DEBUG]`, and the operations. -/
def soFile (header : List Text) (m : Module) (s : Search m.n) (insts : Fin m.n → List SoInst)
    (config : SoConfig) (conLines : List Pass.Text) : List Pass.Text :=
  (s.debugLines ++ header).map encode ++ (m.soLines s insts config conLines).map soText

theorem encode_append (text text' : Text) : encode (text ++ text') = encode text ++ encode text' :=
  List.flatMap_append

theorem soEntry_line {e : SoEntry} (h : ∀ word ∈ e.words, IsWord word) : soEntry e.line = some e := by
  rw [soEntry, SoEntry.line, split_words h]

theorem isDebug_append {loc : Text} (rest : Text) (h : isDebug loc = false) :
    isDebug (loc ++ ' ' :: rest) = false := by
  have hlen : "[DEBUG]".toList.length = 7 := rfl
  rw [isDebug, decide_eq_false_iff_not, ← hlen, eq_comm, ← List.prefix_iff_eq_take] at h ⊢
  intro hprefix
  rcases List.prefix_or_prefix_of_prefix hprefix (List.prefix_append loc _) with hin | hin
  · exact h hin
  · obtain ⟨tail, htail⟩ := hin
    rw [← htail, List.prefix_append_right_inj] at hprefix
    cases tail with
    | nil =>
      rw [List.append_nil] at htail
      exact h (htail ▸ List.prefix_rfl)
    | cons c tail =>
      obtain rfl := (List.cons_prefix_cons.mp hprefix).1
      have hblank : ' ' ∉ "[DEBUG]".toList := by decide
      exact hblank (htail ▸ by simp)

theorem isWord_kind {config : SoConfig} {inst : SoInst} {kind : Text} (h : kind ∈ config.kinds inst) :
    IsWord kind := by
  have hall : ∀ kind ∈ SoConfig.allKinds, IsWord kind := by decide
  obtain ⟨kind', hkind', times, _, heq⟩ := config.exists_kinds inst
  rw [heq] at h
  exact List.eq_of_mem_replicate h ▸ hall kind' hkind'

theorem isWord_printedHash (loc : Text) : IsWord (printedHash loc) := by
  refine ⟨Nat.toDigits_ne_nil, fun c hc => ?_⟩
  have hdecimal : c ∈ decimal ((stringHashEncoding (encode loc)).toNat : Int) := by
    rw [decimal, if_pos (Int.natCast_nonneg _), Int.toNat_natCast]
    exact hc
  exact isSpace_decimal hdecimal

section Entries
variable (config : SoConfig) (locs : List Text)

/-- The first location that ends with the one of the instruction. -/
def locOf (inst : SoInst) : Option Text :=
  if inst.sourceLoc = [] ∨ colon ∉ inst.sourceLoc then none
  else locs.find? fun loc => (eraseDotSlash inst.sourceLoc).isSuffixOf (encode loc)

def instEntries (function : Text) (inst : SoInst) : List SoEntry :=
  match locOf locs inst with
  | none => []
  | some loc => (config.kinds inst).map fun typ => { loc, typ, function, hash := printedHash loc }

def printedEntries (m : Module) (s : Search m.n) (insts : Fin m.n → List SoInst) : List SoEntry :=
  (List.finRange m.n).flatMap fun f =>
    if m.isFiltered s f then [] else (insts f).flatMap (instEntries config locs (m.fn f).name)

variable {config locs}

theorem mem_instEntries {function : Text} {inst : SoInst} {e : SoEntry} :
    e ∈ instEntries config locs function inst ↔ locOf locs inst = some e.loc ∧ e.typ ∈ config.kinds inst ∧
      e.function = function ∧ e.hash = printedHash e.loc := by
  rw [instEntries]
  cases locOf locs inst with
  | none => simp
  | some loc =>
    simp only [List.mem_map, Option.some.injEq]
    constructor
    · rintro ⟨typ, htyp, rfl⟩
      exact ⟨rfl, htyp, rfl, rfl⟩
    · rintro ⟨rfl, htyp, rfl, hhash⟩
      exact ⟨e.typ, htyp, by rw [← hhash]⟩

theorem instLines_text (hlocs : ∀ loc ∈ locs, IsWord loc) (function : Text) (inst : SoInst) :
    (config.instLines (locs.map encode) function inst).map soText =
      (instEntries config locs function inst).map fun e => encode e.line := by
  have hsplit : ∀ loc ∈ locs, splitConLine (encode loc) = encode loc := fun loc hloc =>
    splitConLine_encode (hlocs loc hloc)
  have hmatch : matchedLine (locs.map encode) inst.sourceLoc =
      (locs.find? fun loc => (eraseDotSlash inst.sourceLoc).isSuffixOf (encode loc)).map encode := by
    rw [matchedLine, List.find?_map]
    congr 1
    apply List.find?_congr
    intro loc hloc
    rw [Function.comp, hsplit loc hloc]
  rw [SoConfig.instLines, instEntries, locOf]
  by_cases hempty : inst.sourceLoc = []
  · rw [if_pos hempty, if_pos (Or.inl hempty)]
    rfl
  · by_cases hcolon : colon ∉ inst.sourceLoc
    · rw [if_neg hempty, if_pos hcolon, if_pos (Or.inr hcolon)]
      rfl
    · rw [if_neg hempty, if_neg hcolon, if_neg (not_or.mpr ⟨hempty, hcolon⟩), hmatch]
      cases hfind : locs.find? fun loc => (eraseDotSlash inst.sourceLoc).isSuffixOf (encode loc) with
      | none => rfl
      | some loc =>
        have hloc := List.mem_of_find?_eq_some hfind
        simp only [Option.map_some, List.map_map]
        apply List.map_congr_left
        intro typ _
        simp only [Function.comp, soText, SoEntry.line, encode_append, printedHash, hsplit loc hloc]

theorem soLines_text (hlocs : ∀ loc ∈ locs, IsWord loc) (m : Module) (s : Search m.n)
    (insts : Fin m.n → List SoInst) : (m.soLines s insts config (locs.map encode)).map soText =
      (printedEntries config locs m s insts).map fun e => encode e.line := by
  rw [Module.soLines, printedEntries, List.map_flatMap, List.map_flatMap]
  apply List.flatMap_congr
  intro f _
  split
  · rfl
  · rw [List.map_flatMap, List.map_flatMap]
    exact List.flatMap_congr fun inst _ => instLines_text hlocs _ inst

end Entries

theorem readSo_lines {header : List Text} (hheader : ∀ line ∈ header, isDebug line = true)
    {soList : List SoEntry} (hwords : ∀ e ∈ soList, ∀ word ∈ e.words, IsWord word)
    (hdebug : ∀ e ∈ soList, isDebug e.loc = false) :
    readSo (header ++ soList.map SoEntry.line) = some soList := by
  have hskip : (header.filter fun line => !isDebug line) = [] :=
    List.filter_eq_nil_iff.mpr fun line hline => by simp [hheader line hline]
  have hkeep : ((soList.map SoEntry.line).filter fun line => !isDebug line) = soList.map SoEntry.line :=
    List.filter_eq_self.mpr fun line hline => by
      obtain ⟨e, he, rfl⟩ := List.mem_map.mp hline
      rw [SoEntry.line, isDebug_append _ (hdebug e he)]
      rfl
  have hmap : ∀ l : List SoEntry, (∀ e ∈ l, ∀ word ∈ e.words, IsWord word) →
      (l.map SoEntry.line).mapM soEntry = some l := by
    intro l
    induction l with
    | nil => exact fun _ => rfl
    | cons e l ih =>
      intro h
      rw [List.map_cons, List.mapM_cons, soEntry_line (h e List.mem_cons_self),
        ih fun e' he' => h e' (List.mem_cons_of_mem e he')]
      rfl
  rw [readSo, List.filter_append, hskip, hkeep, List.nil_append, hmap soList hwords]

section Printed
variable {config : SoConfig} {locs : List Text} {m : Module} {s : Search m.n} {insts : Fin m.n → List SoInst}

theorem mem_printedEntries {e : SoEntry} : e ∈ printedEntries config locs m s insts ↔
    e.hash = printedHash e.loc ∧ ∃ f, m.isFiltered s f = false ∧ (m.fn f).name = e.function ∧
      ∃ inst ∈ insts f, locOf locs inst = some e.loc ∧ e.typ ∈ config.kinds inst := by
  rw [printedEntries, List.mem_flatMap]
  constructor
  · rintro ⟨f, _, hf⟩
    split at hf
    · exact absurd hf List.not_mem_nil
    · next hfilter =>
      obtain ⟨inst, hinst, he⟩ := List.mem_flatMap.mp hf
      obtain ⟨hloc, htyp, hname, hhash⟩ := mem_instEntries.mp he
      exact ⟨hhash, f, Bool.eq_false_iff.mpr hfilter, hname.symm, inst, hinst, hloc, htyp⟩
  · rintro ⟨hhash, f, hfilter, hname, inst, hinst, hloc, htyp⟩
    refine ⟨f, List.mem_finRange f, ?_⟩
    rw [hfilter, if_neg Bool.false_ne_true]
    exact List.mem_flatMap.mpr ⟨inst, hinst, mem_instEntries.mpr ⟨hloc, htyp, hname.symm, hhash⟩⟩

/-- Locations without blanks that do not look like a debug line come back. -/
theorem readSo_printedEntries (hlocs : ∀ loc ∈ locs, IsWord loc ∧ isDebug loc = false)
    (hnames : ∀ f, m.isFiltered s f = false → IsWord (m.fn f).name) {header : List Text}
    (hheader : ∀ line ∈ header, isDebug line = true) :
    readSo (header ++ (printedEntries config locs m s insts).map SoEntry.line) =
      some (printedEntries config locs m s insts) := by
  have hloc : ∀ e ∈ printedEntries config locs m s insts, e.loc ∈ locs := by
    intro e he
    obtain ⟨_, f, _, _, inst, _, hloc, _⟩ := mem_printedEntries.mp he
    rw [locOf] at hloc
    split at hloc
    · cases hloc
    · exact List.mem_of_find?_eq_some hloc
  apply readSo_lines hheader
  · intro e he word hword
    obtain ⟨hhash, f, hfilter, hname, inst, _, _, htyp⟩ := mem_printedEntries.mp he
    simp only [SoEntry.words, List.mem_cons, List.not_mem_nil, or_false] at hword
    rcases hword with rfl | rfl | rfl | rfl
    · exact (hlocs _ (hloc e he)).1
    · exact isWord_kind htyp
    · exact hname ▸ hnames f hfilter
    · rw [hhash]
      exact isWord_printedHash e.loc
  · exact fun e he => (hlocs _ (hloc e he)).2

end Printed

/-! ## The lines of calls -/

/-- An empty name of a block leaves no word. -/
def debugEntry (block callee : Text) : SoEntry :=
  let quoted := '\'' :: (callee ++ ['\''])
  if block = [] then ⟨"[DEBUGDEBUG]".toList, "calls".toList, "function".toList, quoted⟩
  else ⟨"[DEBUGDEBUG]".toList, block, "calls".toList, "function".toList⟩

/-- The script reads a call that a thread may run. -/
def DebugEntry (m : Module) (e : SoEntry) : Prop :=
  ∃ f, m.DirectReach f ∧ ∃ inst ∈ m.calls f, ∃ g, inst.callee = .direct g ∧ m.hasBody g = true ∧
    e = debugEntry inst.block (m.fn g).name

theorem soEntry_debugLine {block callee : Text} (hblock : ∀ c ∈ block, isSpace c = false)
    (hcallee : IsWord callee) : soEntry (debugLine block callee) = some (debugEntry block callee) := by
  have hspace : isSpace ' ' = true := by decide
  have hquoted : IsWord ('\'' :: (callee ++ ['\''])) := by
    refine ⟨List.cons_ne_nil _ _, fun c hc => ?_⟩
    simp only [List.mem_cons, List.mem_append, List.not_mem_nil, or_false] at hc
    rcases hc with rfl | hc | rfl
    · decide
    · exact hcallee.2 c hc
    · decide
  have hline : debugLine block callee = "[DEBUGDEBUG]".toList ++ ' ' :: ([] ++ ' ' :: ([] ++ ' ' ::
      (block ++ ' ' :: ("calls".toList ++ ' ' :: ("function".toList ++ ' ' ::
        '\'' :: (callee ++ ['\''])))))) := rfl
  have hsplit : split (debugLine block callee) = "[DEBUGDEBUG]".toList :: (split block ++
      ["calls".toList, "function".toList, '\'' :: (callee ++ ['\''])]) := by
    rw [hline]
    simp only [split_append_space hspace, split_word hquoted]
    rfl
  rw [soEntry, hsplit, debugEntry]
  by_cases hempty : block = []
  · subst hempty
    rfl
  · rw [split_word ⟨hempty, hblock⟩, if_neg hempty]
    rfl

theorem readSo_append {lines lines' : List Text} {es es' : List SoEntry} (h : readSo lines = some es)
    (h' : readSo lines' = some es') : readSo (lines ++ lines') = some (es ++ es') := by
  rw [readSo] at h h' ⊢
  rw [List.filter_append, List.mapM_append, h, h']
  rfl

section Searched
variable {m : Module} {getFuncname : List Char → List Char} {markedInterestingString : List (List Char)}
  {fuel : Nat} {s : Search m.n} (hsearch : m.search getFuncname markedInterestingString fuel = .ok s)
  (hnames : ∀ f, m.isFiltered s f = false → IsWord (m.fn f).name)
  (hblocks : ∀ f, ∀ inst ∈ m.calls f, ∀ c ∈ inst.block, isSpace c = false)
include hsearch hnames hblocks

theorem soEntry_call {f g : Fin m.n} (hf : m.DirectReach f) {inst : CallInst m.n} (hinst : inst ∈ m.calls f)
    (hcallee : inst.callee = .direct g) (hbody : m.hasBody g = true) :
    soEntry (debugLine inst.block (m.fn g).name) = some (debugEntry inst.block (m.fn g).name) := by
  have hreach : m.DirectReach g := by
    obtain ⟨e, he, hef⟩ := hf
    exact ⟨e, he, hef.tail ⟨hbody, inst, hinst, hcallee⟩⟩
  have hmarked := ((Module.search_spec hsearch).1 g).mpr (Or.inr (Or.inl hreach))
  have hkept : m.isFiltered s g = false := by
    rw [Module.isFiltered, hbody]
    simp [hmarked]
  exact soEntry_debugLine (hblocks f inst hinst) (hnames g hkept)

/-- The script takes every line of a call for an entry. -/
theorem readSo_debugLines :
    ∃ es, readSo s.debugLines = some es ∧ ∀ e, e ∈ es ↔ DebugEntry m e := by
  have hcalls := (Module.search_spec hsearch).2
  have hreadable : Readable s.debugLines := by
    intro line hline _
    obtain ⟨f, hf, inst, hinst, g, hcallee, hbody, rfl⟩ := (hcalls line).mp hline
    rw [soEntry_call hsearch hnames hblocks hf hinst hcallee hbody]
    exact Option.some_ne_none _
  refine ⟨soEntries s.debugLines, readSo_eq hreadable, fun e => ?_⟩
  rw [soEntries, List.mem_filterMap]
  constructor
  · rintro ⟨line, hline, he⟩
    obtain ⟨f, hf, inst, hinst, g, hcallee, hbody, rfl⟩ := (hcalls line).mp (List.mem_filter.mp hline).1
    rw [soEntry_call hsearch hnames hblocks hf hinst hcallee hbody] at he
    exact ⟨f, hf, inst, hinst, g, hcallee, hbody, (Option.some.inj he).symm⟩
  · rintro ⟨f, hf, inst, hinst, g, hcallee, hbody, rfl⟩
    have hline := (hcalls _).mpr ⟨f, hf, inst, hinst, g, hcallee, hbody, rfl⟩
    exact ⟨_, List.mem_filter.mpr ⟨hline, rfl⟩, soEntry_call hsearch hnames hblocks hf hinst hcallee hbody⟩

end Searched

section Whole
variable {config : SoConfig} {locs : List Text} (hlocs : ∀ loc ∈ locs, IsWord loc ∧ isDebug loc = false)
  {m : Module} {markedInterestingString : List (List Char)} {fuel : Nat} {s : Search m.n}
  (hsearch : m.search config.getFuncname markedInterestingString fuel = .ok s)
  (hnames : ∀ f, m.isFiltered s f = false → IsWord (m.fn f).name)
  (hblocks : ∀ f, ∀ inst ∈ m.calls f, ∀ c ∈ inst.block, isSpace c = false) (insts : Fin m.n → List SoInst)
include hlocs hsearch hnames hblocks

theorem soFile_read : ∃ soList : List SoEntry,
    (∀ header, (∀ line ∈ header, isDebug line = true) → ∃ lines,
      soFile header m s insts config (locs.map encode) = lines.map encode ∧ readSo lines = some soList) ∧
    ∀ e, e ∈ soList ↔ DebugEntry m e ∨ e.hash = printedHash e.loc ∧ ∃ f, m.isFiltered s f = false ∧
      (m.fn f).name = e.function ∧ ∃ inst ∈ insts f, locOf locs inst = some e.loc ∧
        e.typ ∈ config.kinds inst := by
  obtain ⟨es, hes, hmem⟩ := readSo_debugLines hsearch hnames hblocks
  refine ⟨es ++ printedEntries config locs m s insts, fun header hheader =>
    ⟨s.debugLines ++ (header ++ (printedEntries config locs m s insts).map SoEntry.line), ?_,
      readSo_append hes (readSo_printedEntries hlocs hnames hheader)⟩, fun e => ?_⟩
  · rw [soFile, soLines_text (fun loc h => (hlocs loc h).1)]
    simp only [List.map_append, List.append_assoc, List.map_map]
    rfl
  · rw [List.mem_append, hmem, mem_printedEntries]

end Whole

/-- `main` makes a thread of `task`, which calls `drop`. -/
def taskDrops : Module where
  n := 3
  fn := ![⟨"main".toList, some [⟨.unknown, "pthread_create".toList,
      [⟨"tid".toList, none⟩, ⟨[], none⟩, ⟨"task".toList, some 1⟩, ⟨[], none⟩], "entry".toList⟩]⟩,
    ⟨"task".toList, some [⟨.direct 2, "drop".toList, [], "entry".toList⟩]⟩, ⟨"drop".toList, some []⟩]

def taskDropsInsts : Fin 3 → List SoInst :=
  ![[], [], [⟨.call, [[], "free".toList], some "free".toList, false, [97, 46, 99, 58, 51]⟩]]

def taskDropsSearch : Search 3 :=
  ⟨{2, 1}, {2, 1}, {2, 1}, true, true, [debugLine "entry".toList "drop".toList]⟩

theorem notSpace_taskDrops (f : Fin 3) : ∀ inst ∈ taskDrops.calls f, ∀ c ∈ inst.block, isSpace c = false := by
  have hall : ∀ f : Fin 3, ((taskDrops.calls f).all fun inst => inst.block.all fun c => !isSpace c) = true := by
    decide
  intro inst hinst c hc
  have hblock := List.all_eq_true.mp (List.all_eq_true.mp (hall f) inst hinst) c hc
  rwa [Bool.not_eq_true'] at hblock

end Period.Analysis
