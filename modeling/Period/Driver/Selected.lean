import Period.Analysis.Mempair
import Period.Analysis.Printed
import Period.Driver.Projection
import Period.Scheduler.Chosen

/-!
# Selected variables

With some memory groups considered at a time, each choice of groups selects the slots whose
hashes are those of their locations. What the analysis saves has one entry for each location,
so a slot is selected once for each chosen location with its hash.
-/

namespace Period.Driver

open Period.Analysis (Text Group SoEntry LocOrder SetOrder encode printedHash pureSo pureSo_nodup finish
  finish_memGroupList loc_mem_of_restricted map_loc_finish mem_finish_conConfigList mem_conConfigList_iff_entry
  exists_line_of_finish)
open Period.Pass (stringHashEncoding)
open Period.Scheduler (Halt combos)
set_option autoImplicit false

structure DirectInter where
  usefulKpNumList : List Nat
  usefulKpIndexList : List Nat
  tmpLocList : List Text

section Selection
variable (o : Nat → LocOrder) (memGroupList : List Group) (pureSoList : List SoEntry)

def locsOf (i : Nat) : List Text :=
  match memGroupList[i]? with
  | none => []
  | some g => (o i).store.elems g.stores ++ (o i).load.elems g.loads ++ (o i).so.elems g.others

/-- `sorted(set(tmpLocList), key=tmpLocList.index)`. -/
def tmpLocList (eachComb : List Nat) : List Text :=
  (eachComb.flatMap (locsOf o memGroupList)).eraseDups

def tmpHashList (tmpLocList : List Text) : List String :=
  tmpLocList.flatMap fun eachKp =>
    (pureSoList.filter fun eachSo => eachSo.loc = eachKp).map fun eachSo => String.ofList eachSo.hash

variable (kpLocArray : List Nat) (M rows : Nat)

def addComb (directInterList : List DirectInter) (eachComb : List Nat) : Except Halt (List DirectInter) := do
  let locs := tmpLocList o memGroupList eachComb
  match ← directInter kpLocArray M rows (tmpHashList pureSoList locs) with
  | none => return directInterList
  | some useful => return directInterList ++ [⟨useful.1, useful.2, locs⟩]

/-- `directInterList` for `varNumConsidered` groups at a time. -/
def directInterList (varNumConsidered : Nat) : Except Halt (List DirectInter) :=
  (combos memGroupList.length varNumConsidered 0).foldlM
    (addComb o memGroupList pureSoList kpLocArray M rows) []

end Selection

theorem toString_eq_ofList_iff {n m : Nat} : toString n = String.ofList (Nat.toDigits 10 m) ↔ n = m := by
  have hrepr : toString n = String.ofList (Nat.toDigits 10 n) := rfl
  rw [hrepr, String.ofList_inj]
  refine ⟨fun h => ?_, fun h => h ▸ rfl⟩
  have hparse := Period.Analysis.parseNat_toDigits n
  rw [h, Period.Analysis.parseNat_toDigits] at hparse
  exact (Option.some.inj hparse).symm

section Entries
variable {pureSoList : List SoEntry} (hnodup : (pureSoList.map SoEntry.loc).Nodup)
include hnodup

theorem filter_loc_eq {e : SoEntry} (he : e ∈ pureSoList) :
    (pureSoList.filter fun eachSo => eachSo.loc = e.loc) = [e] := by
  obtain ⟨pre, post, rfl⟩ := List.append_of_mem he
  rw [List.map_append, List.map_cons] at hnodup
  obtain ⟨_, htail, hcross⟩ := List.nodup_append.mp hnodup
  have hpre : (pre.filter fun eachSo => eachSo.loc = e.loc) = [] :=
    List.filter_eq_nil_iff.mpr fun e' he' => by
      simpa using hcross _ (List.mem_map_of_mem he') _ List.mem_cons_self
  have hpost : (post.filter fun eachSo => eachSo.loc = e.loc) = [] :=
    List.filter_eq_nil_iff.mpr fun e' he' heq =>
      (List.nodup_cons.mp htail).1 (of_decide_eq_true heq ▸ List.mem_map_of_mem he')
  rw [List.filter_append, hpre, List.filter_cons, if_pos (decide_eq_true rfl), hpost, List.nil_append]

theorem tmpHashList_eq {locs : List Text}
    (hentries : ∀ x ∈ locs, ∃ e ∈ pureSoList, e.loc = x ∧ e.hash = printedHash x) :
    tmpHashList pureSoList locs = locs.map fun x => String.ofList (printedHash x) := by
  rw [tmpHashList, ← List.flatMap_singleton' (locs.map _), List.flatMap_map]
  apply List.flatMap_congr
  intro x hx
  obtain ⟨e, he, rfl, hhash⟩ := hentries x hx
  rw [filter_loc_eq hnodup he, List.map_singleton, hhash]

end Entries

theorem hashedAs_printedHash {kpLocArray : List Nat} {i : Nat} (hi : i < kpLocArray.length) (x : Text) :
    hashedAs kpLocArray i (String.ofList (printedHash x)) =
      decide ((stringHashEncoding (encode x)).toNat = kpLocArray.getD i 0) := by
  rw [hashedAs, List.getElem?_eq_getElem hi, List.getD_eq_getElem _ _ hi]
  apply decide_eq_decide.mpr
  rw [printedHash, toString_eq_ofList_iff, eq_comm]

section Range
variable {kpLocArray : List Nat} {M rows : Nat} (hM : M * rows ≤ kpLocArray.length)
include hM

theorem exists_usefulKps (tmpHashList : List String) :
    ∃ useful, usefulKps kpLocArray M rows tmpHashList = .ok useful := by
  have hslots : ∀ (eachHashID : String) (l : List Nat) (useful : List Nat × List Nat),
      (∀ i ∈ l, i < kpLocArray.length) →
      ∃ useful', l.foldlM (markSlot kpLocArray M eachHashID) useful = .ok useful' := by
    intro eachHashID l
    induction l with
    | nil => exact fun useful _ => ⟨useful, rfl⟩
    | cons i l ih =>
      intro useful hl
      obtain ⟨next, hnext⟩ : ∃ next, markSlot kpLocArray M eachHashID useful i = .ok next := by
        rw [markSlot, List.getElem?_eq_getElem (hl i List.mem_cons_self)]
        dsimp only
        split
        · exact ⟨_, rfl⟩
        · exact ⟨_, rfl⟩
      rw [List.foldlM_cons, hnext]
      exact ih next fun j hj => hl j (List.mem_cons_of_mem i hj)
  have hhashes : ∀ (hashes : List String) (useful : List Nat × List Nat),
      ∃ useful', hashes.foldlM (fun useful eachHashID =>
        (List.range (M * rows)).foldlM (markSlot kpLocArray M eachHashID) useful) useful = .ok useful' := by
    intro hashes
    induction hashes with
    | nil => exact fun useful => ⟨useful, rfl⟩
    | cons eachHashID hashes ih =>
      intro useful
      obtain ⟨next, hnext⟩ := hslots eachHashID (List.range (M * rows)) useful
        fun i hi => lt_of_lt_of_le (List.mem_range.mp hi) hM
      rw [List.foldlM_cons, hnext]
      exact ih next
  obtain ⟨useful, huseful⟩ := hhashes tmpHashList (List.replicate rows 0, [])
  rw [usefulKps, huseful]
  exact ⟨_, rfl⟩

end Range

/-! ## What is selected -/

theorem nodup_eraseDups (l : List Text) : l.eraseDups.Nodup := by
  have hlen : ∀ (n : Nat) (l : List Text), l.length ≤ n → l.eraseDups.Nodup := by
    intro n
    induction n with
    | zero => exact fun l hl => List.length_eq_zero_iff.mp (Nat.le_zero.mp hl) ▸ List.nodup_nil
    | succ n ih =>
      intro l hl
      cases l with
      | nil => exact List.nodup_nil
      | cons x l =>
        rw [List.eraseDups_cons, List.nodup_cons]
        refine ⟨?_, ih _ ((List.length_filter_le _ l).trans (Nat.le_of_succ_le_succ hl))⟩
        simp [List.mem_eraseDups]
  exact hlen l.length l (Nat.le_refl _)

/-- The slots that a choice of groups selects. A slot is there once for each location with its hash. -/
structure Selects (memGroupList : List Group) (kpLocArray : List Nat) (M rows : Nat)
    (eachComb : List Nat) (d : DirectInter) : Prop where
  nodup : d.tmpLocList.Nodup
  locs : ∀ x, x ∈ d.tmpLocList ↔ ∃ i ∈ eachComb, ∃ g, memGroupList[i]? = some g ∧
    (x ∈ g.stores ∨ x ∈ g.loads ∨ x ∈ g.others)
  sorted : d.usefulKpIndexList.Pairwise (· ≤ ·)
  index : ∀ i, d.usefulKpIndexList.count i = if i < M * rows then
    d.tmpLocList.countP (fun x => (stringHashEncoding (encode x)).toNat = kpLocArray.getD i 0) else 0
  num : d.usefulKpNumList = (List.range rows).map fun t => d.usefulKpIndexList.countP fun i => i / M = t

section Groups
variable (o : Nat → LocOrder) {memGroupList : List Group} {pureSoList : List SoEntry}
  {kpLocArray : List Nat} {M rows : Nat}

theorem mem_tmpLocList {eachComb : List Nat} {x : Text} : x ∈ tmpLocList o memGroupList eachComb ↔
    ∃ i ∈ eachComb, ∃ g, memGroupList[i]? = some g ∧ (x ∈ g.stores ∨ x ∈ g.loads ∨ x ∈ g.others) := by
  have hgroup : ∀ i, x ∈ locsOf o memGroupList i ↔
      ∃ g, memGroupList[i]? = some g ∧ (x ∈ g.stores ∨ x ∈ g.loads ∨ x ∈ g.others) := by
    intro i
    rw [locsOf]
    cases memGroupList[i]? with
    | none => simp
    | some g => simp [SetOrder.mem_elems]
  rw [tmpLocList, List.mem_eraseDups, List.mem_flatMap]
  simp only [hgroup]

/-- One choice of groups: its entry, and whether it is added. -/
theorem addComb_spec (hnodup : (pureSoList.map SoEntry.loc).Nodup)
    (hentries : ∀ g ∈ memGroupList, ∀ x, x ∈ g.stores ∨ x ∈ g.loads ∨ x ∈ g.others →
      ∃ e ∈ pureSoList, e.loc = x ∧ e.hash = printedHash x)
    (hM : M * rows ≤ kpLocArray.length) (eachComb : List Nat) :
    ∃ d, Selects memGroupList kpLocArray M rows eachComb d ∧
      ∀ l, addComb o memGroupList pureSoList kpLocArray M rows l eachComb =
        .ok (l ++ if 2 ≤ (d.usefulKpNumList.filter (· ≠ 0)).length then [d] else []) := by
  have hlocs : ∀ x ∈ tmpLocList o memGroupList eachComb, ∃ e ∈ pureSoList, e.loc = x ∧ e.hash = printedHash x := by
    intro x hx
    obtain ⟨i, _, g, hg, hin⟩ := (mem_tmpLocList o).mp hx
    exact hentries g (List.mem_of_getElem? hg) x hin
  have hhashes := tmpHashList_eq hnodup hlocs
  obtain ⟨useful, huseful⟩ := @exists_usefulKps kpLocArray M rows hM
    (tmpHashList pureSoList (tmpLocList o memGroupList eachComb))
  obtain ⟨hindex, hnum⟩ := usefulKps_spec huseful
  refine ⟨⟨useful.1, useful.2, tmpLocList o memGroupList eachComb⟩,
    ⟨nodup_eraseDups _, fun x => mem_tmpLocList o, ?_, fun i => ?_, ?_⟩, fun l => ?_⟩
  · rw [hindex]
    exact List.pairwise_insertionSort _ _
  · dsimp only
    rw [hindex, (List.perm_insertionSort _ _).count_eq]
    split
    · next hi =>
      rw [count_foundSlots i hi, hhashes, List.countP_map]
      apply List.countP_congr
      intro x _
      rw [Function.comp, hashedAs_printedHash (lt_of_lt_of_le hi hM)]
    · next hi =>
      refine List.count_eq_zero.mpr fun hin => hi ?_
      obtain ⟨_, _, hin⟩ := List.mem_flatMap.mp hin
      exact List.mem_range.mp (List.mem_filter.mp hin).1
  · dsimp only
    rw [hnum, hindex]
    apply List.map_congr_left
    intro t _
    exact (List.perm_insertionSort _ _).symm.countP_eq _
  · rw [addComb, directInter, huseful]
    by_cases hfew : (useful.1.filter (· ≠ 0)).length < 2
    · have hnot : ¬ 2 ≤ (useful.1.filter (· ≠ 0)).length := Nat.not_le.mpr hfew
      simp only [Bind.bind, Except.bind, Pure.pure, Except.pure, if_pos hfew, if_neg hnot, List.append_nil]
    · have henough : 2 ≤ (useful.1.filter (· ≠ 0)).length := Nat.not_lt.mp hfew
      simp only [Bind.bind, Except.bind, Pure.pure, Except.pure, if_neg hfew, if_pos henough]

end Groups

/-- For what the analysis saves, `directInterList` has the entries of the choices of groups, in
order, that some key points of two threads belong to. -/
theorem directInterList_exact (o : Nat → LocOrder) (orders : Nat → SetOrder × SetOrder)
    {soList : List SoEntry} {groups : List Group} (hprinted : ∀ g ∈ groups, ∀ each ∈ soList,
      each.loc ∈ g.stores ∨ each.loc ∈ g.loads → each.hash = printedHash each.loc) {kpLocArray : List Nat} {M rows : Nat} (hM : M * rows ≤ kpLocArray.length)
    (varNumConsidered : Nat) :
    let out := finish orders groups (pureSo soList)
    ∃ d : List Nat → DirectInter,
      (∀ eachComb, Selects out.memGroupList kpLocArray M rows eachComb (d eachComb)) ∧
      directInterList o out.memGroupList out.pureSoList kpLocArray M rows varNumConsidered =
        .ok (((combos out.memGroupList.length varNumConsidered 0).filter fun eachComb =>
          2 ≤ ((d eachComb).usefulKpNumList.filter (· ≠ 0)).length).map d) := by
  intro out
  have hnodup : (out.pureSoList.map SoEntry.loc).Nodup := by
    rw [map_loc_finish]
    exact (pureSo_nodup soList).filter _
  have hentries : ∀ g ∈ out.memGroupList, ∀ x, x ∈ g.stores ∨ x ∈ g.loads ∨ x ∈ g.others →
      ∃ e ∈ out.pureSoList, e.loc = x ∧ e.hash = printedHash x := by
    intro g hg x hx
    have hlisted : x ∈ out.conConfigList := (mem_finish_conConfigList ..).mpr ⟨g, hg, hx⟩
    obtain ⟨e, he, rfl⟩ := List.mem_map.mp
      ((mem_conConfigList_iff_entry (pureSo_nodup soList) orders groups x).mp hlisted)
    obtain ⟨each, heach, hloc, hhash⟩ := exists_line_of_finish he
    rw [finish_memGroupList (pureSo_nodup soList)] at hg
    obtain ⟨g, hsaved, rfl⟩ := List.mem_map.mp (List.mem_filter.mp hg).1
    have hin := (loc_mem_of_restricted hx).2
    rw [← hloc] at hin
    exact ⟨e, he, rfl, by rw [← hhash, hprinted g hsaved each heach hin, hloc]⟩
  choose d hselects hadd using @addComb_spec o out.memGroupList out.pureSoList kpLocArray M rows hnodup
    hentries hM
  refine ⟨d, hselects, ?_⟩
  have hrun : ∀ (combs : List (List Nat)) (done : List DirectInter),
      combs.foldlM (addComb o out.memGroupList out.pureSoList kpLocArray M rows) done =
        .ok (done ++ (combs.filter fun eachComb =>
          2 ≤ ((d eachComb).usefulKpNumList.filter (· ≠ 0)).length).map d) := by
    intro combs
    induction combs with
    | nil =>
      intro done
      rw [List.filter_nil, List.map_nil, List.append_nil]
      rfl
    | cons eachComb combs ih =>
      intro done
      rw [List.foldlM_cons, hadd, List.filter_cons]
      simp only [Bind.bind, Except.bind, decide_eq_true_eq]
      rw [ih, List.append_assoc]
      split
      · rfl
      · rfl
  exact hrun _ []

/-- Two threads that both pass `a.c:3`. -/
theorem directInterList_exact_shared :
    let soList : List SoEntry := [⟨"[DEBUGDEBUG]".toList, "entry".toList, "calls".toList, "function".toList⟩,
      ⟨"a.c:3".toList, "free".toList, "f".toList, "52859".toList⟩]
    let out := finish (fun _ => (.sorted, .sorted)) [⟨15, {"a.c:3".toList}, ∅, ∅⟩] (pureSo soList)
    ∃ d : List Nat → DirectInter,
      (∀ eachComb, Selects out.memGroupList [52859, 7, 7, 52859] 2 2 eachComb (d eachComb)) ∧
      directInterList (fun _ => ⟨.sorted, .sorted, .sorted⟩) out.memGroupList out.pureSoList
          [52859, 7, 7, 52859] 2 2 1 =
        .ok (((combos out.memGroupList.length 1 0).filter fun eachComb =>
          2 ≤ ((d eachComb).usefulKpNumList.filter (· ≠ 0)).length).map d) :=
  directInterList_exact _ _ (by decide) (by decide) 1

end Period.Driver
