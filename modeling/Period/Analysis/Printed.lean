import Period.Analysis.Cleaning
import Period.Analysis.Words
import Period.Pass.ConConfig
import Period.Pass.Coverage

/-!
# From the script to the pass

The script prints one location a line in UTF-8, and the pass reads the file byte by byte. What
is no blank of a location is none in its bytes, so the pass reads what was printed.
-/

namespace Period.Analysis

open Period.Pass (newline carriageReturn getlines conLineOf readConLines splitConLine EmptyLinesLast
  Instruments Item eraseDotSlash getSourceLoc tracked colon stringHashEncoding locHash visit visit_fst
  instruments_iff locString_not_mem_callsBefore colon_mem_eraseDotSlash)
set_option autoImplicit false

def encode (text : Text) : Pass.Text := text.flatMap String.utf8EncodeChar

theorem toNat_of_mem_utf8EncodeChar {c : Char} {b : UInt8} (h : b ∈ String.utf8EncodeChar c)
    (hb : b.toNat < 128) : c.toNat = b.toNat := by
  have hval : c.toNat = c.val.toNat := rfl
  unfold String.utf8EncodeChar at h
  dsimp only at h
  split at h
  · obtain rfl := List.mem_singleton.mp h
    rw [UInt8.toNat_ofNat'] at hb ⊢
    omega
  · exfalso
    split at h
    · simp only [List.mem_cons, List.not_mem_nil, or_false] at h
      rcases h with rfl | rfl <;> rw [UInt8.toNat_ofNat'] at hb <;> omega
    · split at h
      · simp only [List.mem_cons, List.not_mem_nil, or_false] at h
        rcases h with rfl | rfl | rfl <;> rw [UInt8.toNat_ofNat'] at hb <;> omega
      · simp only [List.mem_cons, List.not_mem_nil, or_false] at h
        rcases h with rfl | rfl | rfl | rfl <;> rw [UInt8.toNat_ofNat'] at hb <;> omega

theorem ofNat_mem_of_mem_encode {text : Text} {b : UInt8} (hb : b.toNat < 128) (h : b ∈ encode text) :
    Char.ofNat b.toNat ∈ text := by
  obtain ⟨c, hc, hin⟩ := List.mem_flatMap.mp h
  rwa [← toNat_of_mem_utf8EncodeChar hin hb, Char.ofNat_toNat]

section Word
variable {word : Text} (h : IsWord word)
include h

theorem encode_ne_nil : encode word ≠ [] := by
  obtain ⟨c, rest, rfl⟩ := List.exists_cons_of_ne_nil h.1
  rw [encode, List.flatMap_cons]
  exact List.append_ne_nil_of_left_ne_nil String.utf8EncodeChar_ne_nil _

theorem notMem_encode {b : UInt8} (hb : b.toNat < 128) (hblank : isSpace (Char.ofNat b.toNat) = true) :
    b ∉ encode word := by
  intro hin
  rw [h.2 _ (ofNat_mem_of_mem_encode hb hin)] at hblank
  cases hblank

theorem splitConLine_encode : splitConLine (encode word) = encode word :=
  List.takeWhile_eq_self_iff.mpr fun b hb => by
    rw [decide_eq_true_eq]
    rintro rfl
    exact notMem_encode h (by decide) (by decide) hb

theorem conLineOf_encode : conLineOf (encode word) = some (encode word) := by
  have hlast : (encode word).getLast? ≠ some carriageReturn := fun hlast =>
    notMem_encode h (by decide) (by decide) (List.mem_of_getLast? hlast)
  have hempty : ¬ (encode word).isEmpty = true := fun hempty =>
    encode_ne_nil h (List.isEmpty_iff.mp hempty)
  rw [conLineOf, if_neg hlast, if_neg hempty, splitConLine_encode h]

end Word

def printed (conConfigList : List Text) : Pass.Text :=
  conConfigList.flatMap fun each => encode each ++ [newline]

theorem getlines_append {line : Pass.Text} (hline : newline ∉ line) (front rest : Pass.Text) :
    getlines front (line ++ newline :: rest) = (front ++ line) :: getlines [] rest := by
  induction line generalizing front with
  | nil => rw [List.nil_append, getlines, if_pos rfl, List.append_nil]
  | cons b line ih =>
    obtain ⟨hb, hline⟩ := List.ne_and_not_mem_of_not_mem_cons hline
    rw [List.cons_append, getlines, if_neg (Ne.symm hb), ih hline, List.append_assoc]
    rfl

section Printed
variable {conConfigList : List Text} (h : ∀ loc ∈ conConfigList, IsWord loc)
include h

theorem getlines_printed : getlines [] (printed conConfigList) = conConfigList.map encode := by
  induction conConfigList with
  | nil => rfl
  | cons loc rest ih =>
    obtain ⟨hloc, hrest⟩ := List.forall_mem_cons.mp h
    have hnewline : newline ∉ encode loc := notMem_encode hloc (by decide) (by decide)
    rw [printed, List.flatMap_cons, ← printed, List.append_assoc, List.singleton_append,
      getlines_append hnewline, ih hrest]
    rfl

theorem readConLines_printed : readConLines (printed conConfigList) = conConfigList.map encode := by
  have hlast : EmptyLinesLast (printed conConfigList) := by
    rw [EmptyLinesLast, getlines_printed h]
    apply List.pairwise_of_forall_mem_list
    intro line hline line' _ hempty
    obtain ⟨loc, hloc, rfl⟩ := List.mem_map.mp hline
    exact absurd hempty (encode_ne_nil (h loc hloc))
  rw [Period.Pass.readConLines_eq hlast, getlines_printed h, List.filterMap_map]
  calc conConfigList.filterMap (conLineOf ∘ encode)
      = conConfigList.filterMap (some ∘ encode) :=
        List.filterMap_congr fun loc hloc => conLineOf_encode (h loc hloc)
    _ = conConfigList.map encode := congrFun List.filterMap_eq_map conConfigList

end Printed

/-- The hash that the sensitive operations pass prints for a location. -/
def printedHash (loc : Text) : Text := Nat.toDigits 10 (stringHashEncoding (encode loc)).toNat

section Finish
variable (orders : Nat → SetOrder × SetOrder) {lines : List Text} {soList : List SoEntry}
  (hread : readSo lines = some soList) (groups : List Group)
include hread

theorem readConLines_finish :
    readConLines (printed (finish orders groups (pureSo soList)).conConfigList) =
      (finish orders groups (pureSo soList)).conConfigList.map encode := by
  apply readConLines_printed
  intro loc hloc
  rw [mem_conConfigList_iff_entry (pureSo_nodup soList)] at hloc
  obtain ⟨e, he, rfl⟩ := List.mem_map.mp hloc
  exact isWord_finish he hread

theorem instruments_finish_iff (onlyPthreadCreate : Bool) {lastLocString : Pass.Text} {x : Item}
    (htracked : tracked x = true) (hnew : lastLocString ≠ getSourceLoc x) (hcolon : colon ∈ getSourceLoc x) :
    Instruments (readConLines (printed (finish orders groups (pureSo soList)).conConfigList))
        onlyPthreadCreate lastLocString x ↔
      ∃ loc ∈ (finish orders groups (pureSo soList)).conConfigList,
        eraseDotSlash (getSourceLoc x) <:+ encode loc := by
  rw [instruments_iff htracked hnew hcolon, readConLines_finish orders hread groups]
  simp only [List.mem_map, exists_exists_and_eq_and]

end Finish

/-- What is printed is what the pass reads. An instruction is instrumented exactly when a saved
location ends with its location, and at a saved location with the hash that is saved. Entries
without a colon are lines of calls, which have no hash. -/
theorem printed_instrumented (orders : Nat → SetOrder × SetOrder) {lines : List Text}
    {soList : List SoEntry} (hread : readSo lines = some soList)
    (hprinted : ∀ each ∈ soList, ':' ∈ each.loc → each.hash = printedHash each.loc)
    (memGroupList : List Group) (onlyPthreadCreate : Bool) {lastLocString : Pass.Text} {x : Item} (htracked : tracked x = true)
    (hnew : lastLocString ≠ getSourceLoc x) (hcolon : colon ∈ getSourceLoc x) :
    let out := finish orders (insertAll memGroupList (pureSo soList)) (pureSo soList)
    let conLines := readConLines (printed out.conConfigList)
    conLines = out.conConfigList.map encode ∧
    (Instruments conLines onlyPthreadCreate lastLocString x ↔
      ∃ e ∈ out.pureSoList, eraseDotSlash (getSourceLoc x) <:+ encode e.loc) ∧
    ∀ e ∈ out.pureSoList, eraseDotSlash (getSourceLoc x) = encode e.loc →
      ∃ hash, Item.inserted (.instrLOCString hash) x.dbg ∈
        (visit conLines onlyPthreadCreate lastLocString x).1 ∧ Nat.toDigits 10 hash.toNat = e.hash := by
  intro out conLines
  have hlines : conLines = out.conConfigList.map encode := readConLines_finish orders hread _
  have hinstruments : Instruments conLines onlyPthreadCreate lastLocString x ↔
      ∃ e ∈ out.pureSoList, eraseDotSlash (getSourceLoc x) <:+ encode e.loc := by
    rw [instruments_finish_iff orders hread _ onlyPthreadCreate htracked hnew hcolon]
    simp only [mem_conConfigList_iff_entry (pureSo_nodup soList), List.mem_map, exists_exists_and_eq_and]
    rfl
  refine ⟨hlines, hinstruments, fun e he heq => ⟨locHash (getSourceLoc x), ?_, ?_⟩⟩
  · obtain ⟨hash, dbg, hcall⟩ := hinstruments.mpr ⟨e, he, heq ▸ List.suffix_rfl⟩
    rw [visit_fst _ htracked] at hcall ⊢
    rcases List.mem_append.mp hcall with hbefore | hmarked
    · exact absurd hbefore (locString_not_mem_callsBefore hash dbg)
    · split at hmarked
      · next hmark =>
        rw [if_pos hmark]
        exact List.mem_append_right _ List.mem_cons_self
      · cases hmarked
  · obtain ⟨each, heach, hloc, hhash⟩ := exists_line_of_finish he
    have hin : ':' ∈ e.loc :=
      @ofNat_mem_of_mem_encode e.loc colon (by decide) (heq ▸ colon_mem_eraseDotSlash hcolon)
    rw [locHash, heq, ← hhash, hprinted each heach (hloc ▸ hin), hloc]
    rfl

/-- A `free` at `a.c:3`, behind a line of a call. -/
theorem printed_instrumented_free :
    let soList : List SoEntry := [⟨"[DEBUGDEBUG]".toList, "entry".toList, "calls".toList, "function".toList⟩,
      ⟨"a.c:3".toList, "free".toList, "f".toList, "52859".toList⟩]
    let x := Pass.storeAtA3
    let out := finish (fun _ => (SetOrder.sorted, SetOrder.sorted)) (insertAll [] (pureSo soList)) (pureSo soList)
    let conLines := readConLines (printed out.conConfigList)
    conLines = out.conConfigList.map encode ∧
    (Instruments conLines true [] x ↔ ∃ e ∈ out.pureSoList, eraseDotSlash (getSourceLoc x) <:+ encode e.loc) ∧
    ∀ e ∈ out.pureSoList, eraseDotSlash (getSourceLoc x) = encode e.loc →
      ∃ hash, Item.inserted (.instrLOCString hash) x.dbg ∈ (visit conLines true [] x).1 ∧
        Nat.toDigits 10 hash.toNat = e.hash :=
  @printed_instrumented _ ["[DEBUGDEBUG]   entry calls function 'f'".toList, "a.c:3 free f 52859".toList] _
    (by decide) (by decide) _ _ _ _ (by decide) (by decide) (by decide)

end Period.Analysis
