import Period.Analysis.AliasedInfo

/-!
# The dump of the memory SSA

Lines are printed as the modified analyzer prints them, and read by the script: what each kind
of line does to its state.
-/

namespace Period.Analysis

open Period.Driver (contains strip mem_strip)
set_option autoImplicit false

/-- An `LDMU` or a `STCHI` line. -/
structure Access where
  isWrite : Bool
  mrId : Nat
  resVersion : Nat
  opVersion : Nat
  pts : List Int

def ptsText (pts : List Int) : Text := pts.flatMap fun o => decimal o ++ [' ']

def Access.head (a : Access) : Text :=
  (if a.isWrite then Nat.toDigits 10 a.mrId ++ ("V_".toList ++ (Nat.toDigits 10 a.resVersion ++ " = STCHI".toList))
    else "LDMU".toList) ++
  ("(MR_".toList ++ (Nat.toDigits 10 a.mrId ++ ("V_".toList ++ (Nat.toDigits 10 a.opVersion ++
    ") \tpts".toList))))

def Access.text (a : Access) : Text := a.head ++ '{' :: (ptsText a.pts ++ ['}'])

def Access.line (a : Access) : Text := a.text ++ ['\n']

def functionLine (name : Text) : Text :=
  "==========FUNCTION: ".toList ++ (name ++ "==========\n".toList)

def locationText (loc typ : Text) : Text := "[[".toList ++ (loc ++ ("]](\x7b".toList ++ (typ ++ "\x7d)".toList)))

def locationLine (loc typ : Text) : Text := '\t' :: (locationText loc typ ++ ['\n'])

/-- A block of accesses with its location, or what stands between blocks. -/
inductive DumpItem where
  | blank (text : Text) (white : ∀ c ∈ text, isSpace c = true)
  | function (name : Text) (plain : '{' ∉ name ∧ '[' ∉ name ∧ ']' ∉ name)
  | block (accesses : List Access) (loc typ : Text)

def DumpItem.lines : DumpItem → List Text
  | .blank text _ => [text]
  | .function name _ => [functionLine name]
  | .block accesses loc typ => accesses.map Access.line ++ [locationLine loc typ]

def dumpLines (dump : List DumpItem) : List Text := dump.flatMap DumpItem.lines

theorem notMem_append {c : Char} {text text' : Text} (h : c ∉ text) (h' : c ∉ text') : c ∉ text ++ text' :=
  fun hin => (List.mem_append.mp hin).elim h h'

theorem notMem_toDigits {c : Char} (hc : c.isDigit = false) (n : Nat) : c ∉ Nat.toDigits 10 n :=
  fun hin => ne_of_mem_toDigits hin hc rfl

theorem notMem_ptsText {c : Char} (hc : c.isDigit = false) (hsign : c ≠ '-') (hblank : c ≠ ' ')
    (pts : List Int) : c ∉ ptsText pts := by
  intro hin
  obtain ⟨o, _, hin⟩ := List.mem_flatMap.mp hin
  rcases List.mem_append.mp hin with hin | hin
  · rcases mem_decimal hin with hdigit | hminus
    · rw [hc] at hdigit
      cases hdigit
    · exact hsign hminus
  · exact hblank (List.mem_singleton.mp hin)

theorem not_contains {line : Text} {needle : String} {c : Char} (hc : c ∈ needle.toList) (hline : c ∉ line) :
    contains line needle = false :=
  decide_eq_false fun h => hline (h.mem hc)

theorem contains_append (a b : Text) (needle : String) : contains (a ++ (needle.toList ++ b)) needle = true :=
  decide_eq_true ⟨a, b, by rw [List.append_assoc]⟩

theorem strip_eq {pre text post : Text} (hpre : ∀ c ∈ pre, isSpace c = true)
    (hhead : ∀ c ∈ text.head?, isSpace c = false) (hlast : ∀ c ∈ text.getLast?, isSpace c = false)
    (hpost : ∀ c ∈ post, isSpace c = true) : strip (pre ++ (text ++ post)) = text := by
  have hstays : ∀ text : Text, (∀ c ∈ text.head?, isSpace c = false) → text.dropWhile isSpace = text := by
    intro text h
    cases text with
    | nil => rfl
    | cons c text => exact List.dropWhile_cons_of_neg (by simp [h c rfl])
  rw [strip, List.dropWhile_append_of_pos hpre, List.rdropWhile]
  cases text with
  | nil =>
    rw [List.nil_append, List.dropWhile_eq_nil_iff.mpr hpost]
    rfl
  | cons c text =>
    have hkeep : (c :: text ++ post).dropWhile isSpace = c :: text ++ post := hstays _ hhead
    rw [hkeep, List.reverse_append, List.dropWhile_append_of_pos fun d hd => hpost d (List.mem_reverse.mp hd),
      hstays, List.reverse_reverse]
    rwa [List.head?_reverse]

theorem strip_eq_nil {text : Text} (h : ∀ c ∈ text, isSpace c = true) : strip text = [] := by
  have hstrip := @strip_eq text [] [] h nofun nofun nofun
  rwa [List.nil_append, List.append_nil] at hstrip

theorem strip_ne_nil {line : Text} {c : Char} (hc : isSpace c = false) (hline : c ∈ line) : strip line ≠ [] :=
  List.ne_nil_of_mem ((mem_strip hc line).mpr hline)

theorem foldl_splitStep_word {word : Text} (hword : ∀ c ∈ word, isSpace c = false) (r : List Text × Text) :
    word.foldl splitStep r = (r.1, r.2 ++ word) := by
  induction word generalizing r with
  | nil => rw [List.append_nil]; rfl
  | cons c word ih =>
    have hc : splitStep r c = (r.1, r.2 ++ [c]) := by
      rw [splitStep, hword c List.mem_cons_self]
      rfl
    rw [List.foldl_cons, hc, ih fun d hd => hword d (List.mem_cons_of_mem c hd), List.append_assoc]
    rfl

theorem isSpace_decimal {o : Int} {c : Char} (hc : c ∈ decimal o) : isSpace c = false := by
  have hdigit : ∀ d < 10, isSpace (Nat.digitChar d) = false := by decide
  rcases mem_decimal hc with h | rfl
  · have hrange : 48 ≤ c.toNat ∧ c.toNat ≤ 57 := by
      simp only [Char.isDigit, Bool.and_eq_true, decide_eq_true_eq] at h
      exact h
    have hlist : c.toNat ∉ [0x20, 0x85, 0xA0, 0x1680, 0x2028, 0x2029, 0x202F, 0x205F, 0x3000] := by
      simp only [List.mem_cons, List.not_mem_nil, or_false]
      omega
    rw [isSpace]
    simp only [hlist, decide_false, Bool.false_or, Bool.or_eq_false_iff, Bool.and_eq_false_iff,
      decide_eq_false_iff_not]
    omega
  · decide

theorem split_ptsText (pts : List Int) : split (ptsText pts) = pts.map decimal := by
  have hfold : ∀ (pts : List Int) (words : List Text),
      (ptsText pts).foldl splitStep (words, []) = (words ++ pts.map decimal, []) := by
    intro pts
    induction pts with
    | nil => exact fun words => by rw [List.map_nil, List.append_nil]; rfl
    | cons o pts ih =>
      intro words
      have hcons : ptsText (o :: pts) = decimal o ++ (' ' :: ptsText pts) := by
        rw [ptsText, List.flatMap_cons, List.append_assoc]
        rfl
      have hblank : splitStep (words, decimal o) ' ' = (words ++ [decimal o], []) := by
        have hne : (decimal o).isEmpty = false := List.isEmpty_eq_false_iff.mpr (decimal_ne_nil o)
        have hspace : isSpace ' ' = true := by decide
        rw [splitStep, hspace, hne]
        rfl
      rw [hcons, List.foldl_append, foldl_splitStep_word fun c hc => isSpace_decimal hc, List.foldl_cons,
        List.nil_append, hblank, ih, List.append_assoc]
      rfl
  rw [split, hfold]
  rfl

theorem mapM_parseInt (pts : List Int) : (pts.map decimal).mapM parseInt = some pts := by
  induction pts with
  | nil => rfl
  | cons o pts ih => rw [List.map_cons, List.mapM_cons, parseInt_decimal, ih]; rfl

/-- The slice between the first brace and the last character. -/
theorem parsePts_eq {line pre body : Text} {z : Char} (hstrip : strip line = pre ++ '{' :: (body ++ [z]))
    (hpre : '{' ∉ pre) : parsePts line = ((split body).mapM parseInt).map List.toFinset := by
  have hmem : '{' ∈ pre ++ '{' :: (body ++ [z]) := by simp
  have hidx : (pre ++ '{' :: (body ++ [z])).idxOf '{' = pre.length := by
    rw [List.idxOf_append_of_notMem hpre, List.idxOf_cons_self, Nat.add_zero]
  have hlen : (pre ++ '{' :: (body ++ [z])).length - 1 = (pre ++ '{' :: body).length := by simp
  have hsplit : pre ++ '{' :: (body ++ [z]) = (pre ++ '{' :: body) ++ [z] := by simp
  have hdrop : ((pre ++ '{' :: (body ++ [z])).take ((pre ++ '{' :: (body ++ [z])).length - 1)).drop
      (pre.length + 1) = body := by
    rw [hlen, hsplit, List.take_left, List.drop_append, List.drop_eq_nil_of_le (Nat.le_succ _),
      Nat.add_sub_cancel_left]
    rfl
  rw [parsePts, hstrip]
  simp only [hmem, if_true, hidx, hdrop]

theorem parsePts_eq_none_of_notMem {line : Text} (h : '{' ∉ line) : parsePts line = none := by
  have hstrip : '{' ∉ strip line := fun hin => h ((mem_strip (by decide) line).mp hin)
  rw [parsePts]
  simp only [if_neg hstrip]

theorem mem_split {text : Text} {c : Char} (hc : isSpace c = false) (h : c ∈ text) :
    ∃ word ∈ split text, c ∈ word := by
  have hfold : ∀ (text : Text) (r : List Text × Text),
      (c ∈ text ∨ c ∈ r.2 ∨ ∃ word ∈ r.1, c ∈ word) →
      c ∈ (text.foldl splitStep r).2 ∨ ∃ word ∈ (text.foldl splitStep r).1, c ∈ word := by
    intro text
    induction text with
    | nil => simp
    | cons d text ih =>
      intro r hin
      rw [List.foldl_cons]
      apply ih
      rw [splitStep]
      rcases hin with hin | hin | ⟨word, hword, hin⟩
      · rcases List.mem_cons.mp hin with rfl | hin
        · right
          left
          rw [hc]
          simp
        · exact Or.inl hin
      · right
        split
        · split
          · next hempty =>
            rw [List.isEmpty_iff.mp hempty] at hin
            exact absurd hin List.not_mem_nil
          · exact Or.inr ⟨r.2, by simp, hin⟩
        · exact Or.inl (List.mem_append_left _ hin)
      · right
        right
        split
        · split
          · exact ⟨word, hword, hin⟩
          · exact ⟨word, List.mem_append_left _ hword, hin⟩
        · exact ⟨word, hword, hin⟩
  rw [split]
  rcases hfold text ([], []) (Or.inl h) with hlast | ⟨word, hword, hin⟩
  · have hne : ((text.foldl splitStep ([], [])).2.isEmpty) = false :=
      List.isEmpty_eq_false_iff.mpr (List.ne_nil_of_mem hlast)
    simp only [hne]
    exact ⟨_, List.mem_append_right _ List.mem_cons_self, hlast⟩
  · refine ⟨word, ?_, hin⟩
    split
    · exact hword
    · exact List.mem_append_left _ hword

theorem parseInt_eq_none {word : Text} (h : '}' ∈ word) : parseInt word = none := by
  have hnat : ∀ word : Text, '}' ∈ word → parseNat word = none := by
    intro word hin
    rw [parseNat, if_neg]
    rintro ⟨_, hall⟩
    exact absurd (List.all_eq_true.mp hall '}' hin) (by decide)
  unfold parseInt
  split
  · next word =>
    rcases List.mem_cons.mp h with hminus | hin
    · exact absurd hminus (by decide)
    · rw [hnat word hin]
      rfl
  · rw [hnat word h]
    rfl

theorem mapM_eq_none {α β : Type} {f : α → Option β} {l : List α} {a : α} (ha : a ∈ l) (hf : f a = none) :
    l.mapM f = none := by
  induction l with
  | nil => exact absurd ha List.not_mem_nil
  | cons b l ih =>
    rw [List.mapM_cons]
    rcases List.mem_cons.mp ha with rfl | ha
    · rw [hf]
      rfl
    · rw [ih ha]
      cases f b <;> rfl

/-- The text ends with a brace before its last character. -/
theorem parsePts_eq_none {line text : Text} {z : Char} (hstrip : strip line = (text ++ ['}']) ++ [z])
    (hbrace : '{' ∈ text) : parsePts line = none := by
  obtain ⟨pre, body, rfl, hpre⟩ := List.eq_append_cons_of_mem hbrace
  have hsplit : strip line = pre ++ '{' :: ((body ++ ['}']) ++ [z]) := by
    rw [hstrip]
    simp
  obtain ⟨word, hword, hin⟩ := @mem_split (body ++ ['}']) '}' (by decide) (by simp)
  rw [parsePts_eq hsplit hpre, mapM_eq_none hword (parseInt_eq_none hin)]
  rfl

/-! ## What a line does -/

section Lines
variable {aset : Bool} {order : ObjectOrder} {s : Reading}

def Instruction.add (insn : Instruction) (a : Access) : Instruction :=
  if a.isWrite then { insn with storeTo := insn.storeTo ∪ a.pts.toFinset }
  else { insn with loadFrom := insn.loadFrom ∪ a.pts.toFinset }

theorem Access.notMem_head {a : Access} {c : Char} (hdigit : c.isDigit = false)
    (hload : c ∉ "LDMU".toList) (hstore : c ∉ "V_ = STCHI".toList) (hregion : c ∉ "(MR_V_) \tpts".toList) :
    c ∉ a.head := by
  have htail : c ∉ "(MR_".toList ++ (Nat.toDigits 10 a.mrId ++ ("V_".toList ++ (Nat.toDigits 10 a.opVersion ++
      ") \tpts".toList))) := by
    simp only [show "(MR_V_) \tpts".toList = "(MR_".toList ++ "V_".toList ++ ") \tpts".toList from rfl,
      List.mem_append, not_or] at hregion
    exact notMem_append hregion.1.1 (notMem_append (notMem_toDigits hdigit _)
      (notMem_append hregion.1.2 (notMem_append (notMem_toDigits hdigit _) hregion.2)))
  rw [Access.head]
  apply notMem_append _ htail
  split
  · simp only [show "V_ = STCHI".toList = "V_".toList ++ " = STCHI".toList from rfl, List.mem_append,
      not_or] at hstore
    exact notMem_append (notMem_toDigits hdigit _)
      (notMem_append hstore.1 (notMem_append (notMem_toDigits hdigit _) hstore.2))
  · exact hload

theorem Access.notMem_line {a : Access} {c : Char} (hhead : c ∉ a.head) (hdigit : c.isDigit = false)
    (hsign : c ≠ '-') (hrest : c ∉ " \x7b\x7d\n".toList) : c ∉ a.line := by
  have hparts : c ≠ ' ' ∧ c ≠ '{' ∧ c ≠ '}' ∧ c ≠ '\n' := by
    simp only [show " \x7b\x7d\n".toList = [' ', '{', '}', '\n'] from rfl, List.mem_cons, List.not_mem_nil,
      or_false, not_or] at hrest
    exact hrest
  obtain ⟨hblank, hopen, hclose, hnewline⟩ := hparts
  rw [Access.line, Access.text]
  refine notMem_append (notMem_append hhead ?_) (by simpa using hnewline)
  simp only [List.mem_cons, List.mem_append, List.not_mem_nil, or_false, not_or]
  exact ⟨hopen, notMem_ptsText hdigit hsign hblank _, hclose⟩

theorem Access.exists_head (a : Access) : ∃ c rest, a.head = c :: rest ∧ isSpace c = false := by
  rw [Access.head]
  cases a.isWrite with
  | true =>
    obtain ⟨d, digits, hdigits⟩ := List.exists_cons_of_ne_nil (@Nat.toDigits_ne_nil a.mrId 10)
    have hmem : d ∈ decimal a.mrId := by
      rw [decimal, if_pos (Int.natCast_nonneg _), Int.toNat_natCast, hdigits]
      exact List.mem_cons_self
    rw [if_pos rfl, hdigits]
    exact ⟨d, _, rfl, isSpace_decimal hmem⟩
  | false =>
    rw [if_neg Bool.false_ne_true]
    exact ⟨'L', _, rfl, by decide⟩

theorem Access.strip_line (a : Access) : strip a.line = a.text := by
  obtain ⟨c, rest, hsplit, hspace⟩ := a.exists_head
  have hhead : ∀ d ∈ a.text.head?, isSpace d = false := by
    intro d hd
    rw [Access.text, hsplit] at hd
    obtain rfl := Option.some.inj hd
    exact hspace
  have hlast : ∀ d ∈ a.text.getLast?, isSpace d = false := by
    intro d hd
    have hconcat : a.text = (a.head ++ '{' :: ptsText a.pts) ++ ['}'] := by
      rw [Access.text, List.append_assoc, List.cons_append]
    rw [hconcat, List.getLast?_concat] at hd
    obtain rfl := Option.some.inj hd
    decide
  have hnewline : ∀ d ∈ ['\n'], isSpace d = true := List.forall_mem_singleton.mpr (by decide)
  exact @strip_eq [] a.text ['\n'] nofun hhead hlast hnewline

theorem Access.parsePts_line (a : Access) : parsePts a.line = some a.pts.toFinset := by
  have hhead : '{' ∉ a.head := Access.notMem_head (by decide) (by decide) (by decide) (by decide)
  rw [parsePts_eq a.strip_line hhead, split_ptsText, mapM_parseInt]
  rfl

theorem isSkipped_eq_false {line : Text} (h : ']' ∉ line) : isSkipped line = false := by
  rw [isSkipped, not_contains (by decide) h, not_contains (by decide) h]
  rfl

theorem readLine_access (a : Access) :
    readLine aset order s a.line = some { s with reset := false, insn := s.current.add a } := by
  have hskip : isSkipped a.line = false := by
    apply isSkipped_eq_false
    exact Access.notMem_line (Access.notMem_head (by decide) (by decide) (by decide) (by decide)) (by decide)
      (by decide) (by decide)
  have hblank : strip a.line ≠ [] := by
    rw [a.strip_line, Access.text]
    simp
  rw [readLine, hskip, if_neg Bool.false_ne_true, if_neg hblank, Instruction.feedLine,
    Instruction.feedLine, a.parsePts_line, Instruction.add]
  cases hwrite : a.isWrite with
  | true =>
    have hload : contains a.line "LDMU" = false := by
      apply @not_contains _ _ 'L' (by decide)
      apply Access.notMem_line _ (by decide) (by decide) (by decide)
      rw [Access.head, hwrite, if_pos rfl]
      refine notMem_append (notMem_append (notMem_toDigits (by decide) _) (notMem_append (by decide)
        (notMem_append (notMem_toDigits (by decide) _) (by decide)))) ?_
      exact notMem_append (by decide) (notMem_append (notMem_toDigits (by decide) _) (notMem_append (by decide)
        (notMem_append (notMem_toDigits (by decide) _) (by decide))))
    have hstore : contains a.line "STCHI" = true := by
      have hsplit : a.line = (Nat.toDigits 10 a.mrId ++ ("V_".toList ++ (Nat.toDigits 10 a.resVersion ++
          " = ".toList))) ++ ("STCHI".toList ++ ("(MR_".toList ++ (Nat.toDigits 10 a.mrId ++ ("V_".toList ++
          (Nat.toDigits 10 a.opVersion ++ ") \tpts".toList))) ++ '{' :: (ptsText a.pts ++ ['}', '\n']))) := by
        rw [Access.line, Access.text, Access.head, hwrite, if_pos rfl]
        simp [show " = STCHI".toList = " = ".toList ++ "STCHI".toList from rfl]
      rw [hsplit]
      exact contains_append _ _ _
    rw [hload, hstore]
    rfl
  | false =>
    have hload : contains a.line "LDMU" = true := by
      rw [Access.line, Access.text, Access.head, hwrite, if_neg Bool.false_ne_true, List.append_assoc,
        List.append_assoc]
      exact contains_append [] _ _
    rw [hload]
    rfl

theorem readLine_blank {text : Text} (h : ∀ c ∈ text, isSpace c = true) :
    readLine aset order s text = some s := by
  rw [readLine, if_pos (strip_eq_nil h)]
  split <;> rfl

/-- A line between blocks that looks like an access has no brace. -/
theorem readLine_function {name : Text} (h : '{' ∉ name ∧ '[' ∉ name ∧ ']' ∉ name) :
    readLine aset order s (functionLine name) =
      if contains (functionLine name) "LDMU" || contains (functionLine name) "STCHI" then none
      else some { s with reset := false, insn := s.current } := by
  have hopen : '{' ∉ functionLine name := notMem_append (by decide) (notMem_append h.1 (by decide))
  have hbracket : '[' ∉ functionLine name := notMem_append (by decide) (notMem_append h.2.1 (by decide))
  have hclose : ']' ∉ functionLine name := notMem_append (by decide) (notMem_append h.2.2 (by decide))
  have hskip := isSkipped_eq_false hclose
  have hblank : strip (functionLine name) ≠ [] :=
    strip_ne_nil (c := '=') (by decide) (List.mem_append_left _ (by decide))
  rw [readLine, hskip, if_neg Bool.false_ne_true, if_neg hblank, Instruction.feedLine, Instruction.feedLine,
    parsePts_eq_none_of_notMem hopen, @not_contains _ "[[" '[' (by decide) hbracket]
  cases contains (functionLine name) "LDMU" <;> cases contains (functionLine name) "STCHI" <;> rfl

theorem strip_locationLine (loc typ : Text) : strip (locationLine loc typ) = locationText loc typ := by
  have hhead : ∀ c ∈ (locationText loc typ).head?, isSpace c = false := by
    intro c hc
    obtain rfl := Option.some.inj hc
    decide
  have hlast : ∀ c ∈ (locationText loc typ).getLast?, isSpace c = false := by
    intro c hc
    have hsplit : locationText loc typ =
        ("[[".toList ++ (loc ++ ("]](\x7b".toList ++ (typ ++ "\x7d".toList)))) ++ [')'] := by
      rw [locationText]
      simp [show "\x7d)".toList = "\x7d".toList ++ [')'] from rfl]
    rw [hsplit, List.getLast?_concat] at hc
    obtain rfl := Option.some.inj hc
    decide
  have htab : ∀ c ∈ ['\t'], isSpace c = true := List.forall_mem_singleton.mpr (by decide)
  have hnewline : ∀ c ∈ ['\n'], isSpace c = true := List.forall_mem_singleton.mpr (by decide)
  exact strip_eq htab hhead hlast hnewline

theorem exists_sourceLocOf (aset : Bool) (loc typ : Text) :
    ∃ x, sourceLocOf aset (locationLine loc typ) = some x := by
  have hafter : afterSep "[[".toList (locationText loc typ) =
      some (loc ++ ("]](\x7b".toList ++ (typ ++ "\x7d)".toList))) := rfl
  rw [sourceLocOf, extractSourceLocation, strip_locationLine, hafter]
  exact ⟨_, rfl⟩

/-- A location line that is not passed over, and looks like an access: no number ends with a brace. -/
theorem readLine_location_none {loc typ : Text} (hkept : isSkipped (locationLine loc typ) = false)
    (h : contains (locationLine loc typ) "LDMU" = true ∨ contains (locationLine loc typ) "STCHI" = true) :
    readLine aset order s (locationLine loc typ) = none := by
  have hpts : parsePts (locationLine loc typ) = none := by
    have hstrip : strip (locationLine loc typ) =
        (("[[".toList ++ (loc ++ ("]](\x7b".toList ++ typ))) ++ ['}']) ++ [')'] := by
      rw [strip_locationLine, locationText]
      simp [show "\x7d)".toList = ['}'] ++ [')'] from rfl]
    refine parsePts_eq_none hstrip ?_
    simp
  have hblank : strip (locationLine loc typ) ≠ [] := by
    rw [strip_locationLine]
    exact nofun
  rw [readLine, hkept, if_neg Bool.false_ne_true, if_neg hblank, Instruction.feedLine, Instruction.feedLine, hpts]
  cases hload : contains (locationLine loc typ) "LDMU" with
  | true => rfl
  | false =>
    rw [hload] at h
    rw [h.resolve_left Bool.false_ne_true]
    rfl

theorem readLine_location {loc typ x : Text} (hkept : isSkipped (locationLine loc typ) = false)
    (hload : contains (locationLine loc typ) "LDMU" = false)
    (hstore : contains (locationLine loc typ) "STCHI" = false)
    (hx : sourceLocOf aset (locationLine loc typ) = some x) :
    readLine aset order s (locationLine loc typ) =
      some { memoryLocations := addAccesses order s.current x s.memoryLocations, reset := true,
             insn := s.current } := by
  have hblank : strip (locationLine loc typ) ≠ [] := by
    rw [strip_locationLine]
    exact nofun
  have hopen : contains (locationLine loc typ) "[[" = true := contains_append ['\t'] _ "[["
  rw [readLine, hkept, if_neg Bool.false_ne_true, if_neg hblank, hload, hstore, hopen, hx]
  rfl

end Lines

end Period.Analysis
