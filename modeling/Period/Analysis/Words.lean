import Period.Analysis.Cleaning
import Period.Analysis.Dump

/-!
# Words of a line

`str.split()` cuts at blanks, so it is told by what it does to two texts with a blank between
them. What it gives are words, and a word is what it gives back. The locations of the so file
stay words up to the end of the script, each with the hash it was printed with.
-/

namespace Period.Analysis

set_option autoImplicit false

/-- A text that `str.split()` leaves in one piece. -/
def IsWord (word : Text) : Prop := word ≠ [] ∧ ∀ c ∈ word, isSpace c = false

instance (word : Text) : Decidable (IsWord word) :=
  decidable_of_iff (word ≠ [] ∧ (word.all fun c => !isSpace c) = true) (by simp [IsWord])

theorem foldl_splitStep (text : Text) (words : List Text) (word : Text) :
    text.foldl splitStep (words, word) =
      (words ++ (text.foldl splitStep ([], word)).1, (text.foldl splitStep ([], word)).2) := by
  induction text generalizing words word with
  | nil => rw [List.foldl_nil, List.foldl_nil, List.append_nil]
  | cons c text ih =>
    rw [List.foldl_cons, List.foldl_cons, splitStep, splitStep]
    by_cases hc : isSpace c = true
    · by_cases hempty : word.isEmpty = true
      · simp only [hc, hempty, if_true]
        exact ih words word
      · rw [if_pos hc, if_pos hc]
        dsimp only
        rw [if_neg hempty, if_neg hempty, ih (words ++ [word]), ih ([] ++ [word]),
          List.append_assoc]
        rfl
    · rw [if_neg hc, if_neg hc]
      exact ih words (word ++ [c])

theorem split_append_space {c : Char} (hc : isSpace c = true) (front text : Text) :
    split (front ++ c :: text) = split front ++ split text := by
  have hstep : splitStep (front.foldl splitStep ([], [])) c = (split front, []) := by
    rw [splitStep, if_pos hc, split]
    split
    · next hempty =>
      exact Prod.ext rfl (List.isEmpty_iff.mp hempty)
    · rfl
  rw [split, List.foldl_append, List.foldl_cons, hstep, foldl_splitStep]
  unfold split
  dsimp only
  split
  · rfl
  · rw [List.append_assoc]

theorem split_word {word : Text} (h : IsWord word) : split word = [word] := by
  rw [split, foldl_splitStep_word h.2]
  exact if_neg fun hempty => h.1 (List.isEmpty_iff.mp hempty)

theorem split_words {a b c d : Text} (h : ∀ word ∈ [a, b, c, d], IsWord word) :
    split (a ++ ' ' :: (b ++ ' ' :: (c ++ ' ' :: d))) = [a, b, c, d] := by
  have hspace : isSpace ' ' = true := by decide
  rw [split_append_space hspace, split_append_space hspace, split_append_space hspace,
    split_word (h a (by simp)), split_word (h b (by simp)), split_word (h c (by simp)),
    split_word (h d (by simp))]
  rfl

theorem isWord_of_mem_split {line word : Text} (h : word ∈ split line) : IsWord word := by
  have hfold : ∀ (text : Text) (r : List Text × Text), (∀ w ∈ r.1, IsWord w) →
      (∀ c ∈ r.2, isSpace c = false) → (∀ w ∈ (text.foldl splitStep r).1, IsWord w) ∧
        ∀ c ∈ (text.foldl splitStep r).2, isSpace c = false := by
    intro text
    induction text with
    | nil => exact fun _ hwords hword => ⟨hwords, hword⟩
    | cons c text ih =>
      intro r hwords hword
      rw [List.foldl_cons]
      apply ih
      · intro w hw
        rw [splitStep] at hw
        split at hw
        · split at hw
          · exact hwords w hw
          · next hne =>
            rcases List.mem_append.mp hw with hw | hw
            · exact hwords w hw
            · rw [List.mem_singleton.mp hw]
              exact ⟨fun hnil => hne (List.isEmpty_iff.mpr hnil), hword⟩
        · exact hwords w hw
      · intro d hd
        rw [splitStep] at hd
        split at hd
        · split at hd
          · exact hword d hd
          · exact absurd hd List.not_mem_nil
        · next hc =>
          rcases List.mem_append.mp hd with hd | hd
          · exact hword d hd
          · rw [List.mem_singleton.mp hd]
            exact Bool.eq_false_iff.mpr hc
  obtain ⟨hwords, hword⟩ := hfold line ([], [])
    (fun w hw => absurd hw List.not_mem_nil) (fun c hc => absurd hc List.not_mem_nil)
  rw [split] at h
  split at h
  · exact hwords word h
  · next hne =>
    rcases List.mem_append.mp h with h | h
    · exact hwords word h
    · rw [List.mem_singleton.mp h]
      exact ⟨fun hnil => hne (List.isEmpty_iff.mpr hnil), hword⟩

/-- The locations of a so file that can be read are words. -/
theorem isWord_loc {lines : List Text} {soList : List SoEntry} (hread : readSo lines = some soList)
    {e : SoEntry} (he : e ∈ soList) : IsWord e.loc := by
  rw [readSo] at hread
  have hmap : ∀ (lines : List Text) (soList : List SoEntry), lines.mapM soEntry = some soList →
      ∀ e ∈ soList, ∃ line ∈ lines, soEntry line = some e := by
    intro lines
    induction lines with
    | nil =>
      intro soList hnil e he
      cases hnil
      exact absurd he List.not_mem_nil
    | cons line lines ih =>
      intro soList hcons e he
      rw [List.mapM_cons, Option.bind_eq_bind, Option.bind_eq_some_iff] at hcons
      obtain ⟨first, hfirst, hrest⟩ := hcons
      rw [Option.bind_eq_bind, Option.bind_eq_some_iff] at hrest
      obtain ⟨rest, hlines, hsome⟩ := hrest
      cases hsome
      rcases List.mem_cons.mp he with rfl | he
      · exact ⟨line, List.mem_cons_self, hfirst⟩
      · obtain ⟨line', hline', hsome⟩ := ih rest hlines e he
        exact ⟨line', List.mem_cons_of_mem line hline', hsome⟩
  obtain ⟨line, _, hsome⟩ := hmap _ _ hread e he
  rw [soEntry] at hsome
  split at hsome
  · next loc typ function hash rest hsplit =>
    cases hsome
    exact isWord_of_mem_split (hsplit ▸ List.mem_cons_self)
  · cases hsome

theorem mem_mergeSo {pureSoList : List SoEntry} {each e : SoEntry} (h : e ∈ mergeSo pureSoList each) :
    e = each ∨ ∃ e' ∈ pureSoList, e'.loc = e.loc ∧ e'.hash = e.hash := by
  have hold : e ∈ pureSoList → e = each ∨ ∃ e' ∈ pureSoList, e'.loc = e.loc ∧ e'.hash = e.hash :=
    fun he => Or.inr ⟨e, he, rfl, rfl⟩
  rcases List.eq_nil_or_concat' pureSoList with rfl | ⟨entries, last, rfl⟩
  · exact Or.inl (List.mem_singleton.mp h)
  · rw [mergeSo, List.getLast?_concat] at h
    simp only at h
    split at h
    · rcases List.mem_append.mp h with h | h
      · exact hold h
      · exact Or.inl (List.mem_singleton.mp h)
    · split at h
      · rw [List.dropLast_concat] at h
        rcases List.mem_append.mp h with h | h
        · exact hold (List.mem_append_left _ h)
        · obtain rfl := List.mem_singleton.mp h
          exact Or.inr ⟨last, by simp, rfl, rfl⟩
      · exact hold h

theorem exists_line_of_pureSo {soList : List SoEntry} {e : SoEntry} (he : e ∈ pureSo soList) :
    ∃ each ∈ soList, each.loc = e.loc ∧ each.hash = e.hash := by
  have hfold : ∀ (rest pureSoList : List SoEntry), (∀ each ∈ rest, each ∈ soList) →
      (∀ e ∈ pureSoList, ∃ each ∈ soList, each.loc = e.loc ∧ each.hash = e.hash) →
      ∀ e ∈ rest.foldl mergeSo pureSoList, ∃ each ∈ soList, each.loc = e.loc ∧ each.hash = e.hash := by
    intro rest
    induction rest with
    | nil => exact fun _ _ hin => hin
    | cons d rest ih =>
      intro pureSoList hrest hin
      apply ih _ fun each heach => hrest each (List.mem_cons_of_mem d heach)
      intro e he
      rcases mem_mergeSo he with rfl | ⟨e', he', hloc, hhash⟩
      · exact ⟨e, hrest e List.mem_cons_self, rfl, rfl⟩
      · obtain ⟨each, heach, hloc', hhash'⟩ := hin e' he'
        exact ⟨each, heach, hloc'.trans hloc, hhash'.trans hhash⟩
  exact hfold (sortSo soList) [] (fun _ h => List.mem_mergeSort.mp h) nofun e (mem_removeAll.mp he).1

/-- What is printed are the locations of the entries that are saved. -/
theorem mem_conConfigList_iff_entry {pureSoList : List SoEntry}
    (hnodup : (pureSoList.map SoEntry.loc).Nodup) (orders : Nat → SetOrder × SetOrder)
    (groups : List Group) (x : Text) : x ∈ (finish orders groups pureSoList).conConfigList ↔
      x ∈ (finish orders groups pureSoList).pureSoList.map SoEntry.loc := by
  rw [map_loc_finish, List.mem_filter, decide_eq_true_eq, iff_and_self]
  intro hx
  obtain ⟨g, hg, hin⟩ := (mem_finish_conConfigList ..).mp hx
  rw [finish_memGroupList hnodup] at hg
  obtain ⟨g, _, rfl⟩ := List.mem_map.mp (List.mem_filter.mp hg).1
  exact (loc_mem_of_restricted hin).1

section Finish
variable {orders : Nat → SetOrder × SetOrder} {groups : List Group} {soList : List SoEntry} {e : SoEntry}
  (he : e ∈ (finish orders groups (pureSo soList)).pureSoList)
include he

theorem exists_line_of_finish : ∃ each ∈ soList, each.loc = e.loc ∧ each.hash = e.hash := by
  have hmem : e ∈ (cleanGroupsIn orders groups (pureSo soList)).2 := (mem_removeAll.mp he).1
  have hkeys := List.mem_map_of_mem hmem (f := fun e => (e.loc, e.hash))
  rw [@map_cleanGroupsIn _ (fun e => (e.loc, e.hash)) fun _ _ => rfl] at hkeys
  obtain ⟨e', he', heq⟩ := List.mem_map.mp hkeys
  obtain ⟨each, heach, hloc, hhash⟩ := exists_line_of_pureSo he'
  exact ⟨each, heach, hloc.trans (Prod.mk.inj heq).1, hhash.trans (Prod.mk.inj heq).2⟩

theorem isWord_finish {lines : List Text} (hread : readSo lines = some soList) : IsWord e.loc := by
  obtain ⟨each, heach, hloc, _⟩ := exists_line_of_finish he
  exact hloc ▸ isWord_loc hread heach

end Finish

end Period.Analysis
