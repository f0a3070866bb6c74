import Period.Analysis.SoList

/-!
# Memory groups

The insertion makes every location of a sensitive entry known to a group. The cleaning
sorts the locations of a group by what the so list says about them, in whatever order the
sets are read.
-/

namespace Period.Analysis

set_option autoImplicit false

def sensitiveTypes : List Text :=
  ["lock".toList, "free".toList, "std_atomic".toList, "std_size".toList, "memset".toList,
    "std::vector<...>::resize".toList, "cmpnull".toList]

/-- A raised flag says that there is a last group. -/
def Insertion.Ok (s : Insertion) : Prop :=
  s.hasUkLockSet = true ∨ s.hasUkFreeSet = true → s.memGroupList ≠ []

theorem mem_inGroups {memGroupList : List Group} {x : Text} :
    inGroups memGroupList x = true ↔ ∃ g ∈ memGroupList, x ∈ g.stores ∨ x ∈ g.loads := by
  rw [inGroups, List.any_eq_true]
  simp only [decide_eq_true_eq]

theorem inGroups_addToLast {memGroupList : List Group} (hne : memGroupList ≠ []) (loc x : Text) :
    inGroups (addToLast memGroupList loc) x = true ↔ inGroups memGroupList x = true ∨ x = loc := by
  rcases List.eq_nil_or_concat' memGroupList with rfl | ⟨groups, last, rfl⟩
  · exact absurd rfl hne
  · have hlen : (groups ++ [last]).length - 1 = groups.length := by simp
    have hadd : addToLast (groups ++ [last]) loc =
        groups ++ [{ last with stores := insert loc last.stores }] := by
      rw [addToLast, hlen, List.modify_eq_take_cons_drop (by simp)]
      simp
    simp only [hadd, inGroups, List.any_append, List.any_cons, List.any_nil, Bool.or_false,
      Bool.or_eq_true, decide_eq_true_eq, Finset.mem_insert]
    tauto

theorem addToLast_ne_nil {memGroupList : List Group} (hne : memGroupList ≠ []) (loc : Text) :
    addToLast memGroupList loc ≠ [] := by
  intro hnil
  have hlen := congrArg List.length hnil
  rw [addToLast, List.length_modify] at hlen
  exact hne (List.length_eq_zero_iff.mp hlen)

/-- After a location of some kind all groups know it, and nothing else is new. -/
theorem addUnknown_spec {id : Int} {memGroupList : List Group} {hasUkSet : Bool}
    (hok : hasUkSet = true → memGroupList ≠ []) (loc x : Text) :
    (inGroups (addUnknown id memGroupList hasUkSet loc).1 x = true ↔
        inGroups memGroupList x = true ∨ x = loc) ∧
      ((addUnknown id memGroupList hasUkSet loc).2 = true ∨ memGroupList ≠ [] →
        (addUnknown id memGroupList hasUkSet loc).1 ≠ []) := by
  rw [addUnknown]
  by_cases hin : inGroups memGroupList loc = true
  · rw [if_pos hin]
    refine ⟨⟨Or.inl, fun h => h.elim (fun h => h) fun h => h ▸ hin⟩, fun h => h.elim hok fun h => h⟩
  · rw [if_neg hin]
    by_cases hflag : hasUkSet = true
    · rw [if_pos hflag]
      exact ⟨inGroups_addToLast (hok hflag) loc x, fun _ => addToLast_ne_nil (hok hflag) loc⟩
    · rw [if_neg hflag]
      have hne : memGroupList ++ [{ id, stores := ∅, loads := ∅, others := ∅ }] ≠ [] := by simp
      refine ⟨?_, fun _ => addToLast_ne_nil hne loc⟩
      rw [inGroups_addToLast hne]
      simp [inGroups]

/-- What tests for the types `typs` do. -/
def Adds (typs : List Text) (each : SoEntry) (s s' : Insertion) : Prop :=
  s.Ok → s'.Ok ∧ ∀ x, inGroups s'.memGroupList x = true ↔
    inGroups s.memGroupList x = true ∨ x = each.loc ∧ each.typ ∈ typs

theorem Adds.trans {typs typs' : List Text} {each : SoEntry} {s s' s'' : Insertion}
    (h : Adds typs each s s') (h' : Adds typs' each s' s'') : Adds (typs ++ typs') each s s'' := by
  intro hok
  obtain ⟨hok', hin⟩ := h hok
  obtain ⟨hok'', hin'⟩ := h' hok'
  refine ⟨hok'', fun x => ?_⟩
  rw [hin' x, hin x, List.mem_append, and_or_left, or_assoc]

/-- A test for one type adds the location of an entry of that type to the unknown groups. -/
theorem adds_of_test {typ : Text} {each : SoEntry} {s s' : Insertion}
    (hsome : each.typ = typ → s.Ok → s'.Ok ∧ ∀ x, inGroups s'.memGroupList x = true ↔
      inGroups s.memGroupList x = true ∨ x = each.loc)
    (hnone : each.typ ≠ typ → s' = s) : Adds [typ] each s s' := by
  intro hok
  by_cases htyp : each.typ = typ
  · obtain ⟨hok', hin⟩ := hsome htyp hok
    refine ⟨hok', fun x => ?_⟩
    rw [hin x, List.mem_singleton]
    simp only [htyp, and_true]
  · rw [hnone htyp]
    refine ⟨hok, fun x => ?_⟩
    rw [List.mem_singleton]
    simp only [htyp, and_false, or_false]

theorem addLock_adds (each : SoEntry) (s : Insertion) :
    Adds ["lock".toList] each s (addLock each s) := by
  apply adds_of_test
  · intro htyp hok
    have hflag : s.hasUkLockSet = true → s.memGroupList ≠ [] := fun h => hok (Or.inl h)
    rw [addLock, if_pos htyp]
    refine ⟨fun h => (addUnknown_spec hflag each.loc []).2 ?_,
      fun x => (addUnknown_spec hflag each.loc x).1⟩
    exact h.imp_right fun h => hok (Or.inr h)
  · exact fun htyp => if_neg htyp

theorem addKind_adds (typ : Text) (id : Int) (each : SoEntry) (s : Insertion) :
    Adds [typ] each s (addKind typ id each s) := by
  apply adds_of_test
  · intro htyp hok
    have hflag : s.hasUkFreeSet = true → s.memGroupList ≠ [] := fun h => hok (Or.inr h)
    rw [addKind, if_pos htyp]
    refine ⟨fun h => (addUnknown_spec hflag each.loc []).2 ?_,
      fun x => (addUnknown_spec hflag each.loc x).1⟩
    exact h.symm.imp_right fun h => hok (Or.inl h)
  · exact fun htyp => if_neg htyp

theorem insertSo_adds (each : SoEntry) (s : Insertion) :
    Adds sensitiveTypes each s (insertSo s each) :=
  addLock_adds each s |>.trans (addKind_adds _ 99998 each _) |>.trans (addKind_adds _ 99997 each _)
    |>.trans (addKind_adds _ 99996 each _) |>.trans (addKind_adds _ 99995 each _)
    |>.trans (addKind_adds _ 99994 each _) |>.trans (addKind_adds _ 99993 each _)

theorem inGroups_insertAll (memGroupList : List Group) (pureSoList : List SoEntry) (x : Text) :
    inGroups (insertAll memGroupList pureSoList) x = true ↔ inGroups memGroupList x = true ∨
      ∃ each ∈ pureSoList, each.loc = x ∧ each.typ ∈ sensitiveTypes := by
  have hfold : ∀ (l : List SoEntry) (s : Insertion), s.Ok →
      (inGroups (l.foldl insertSo s).memGroupList x = true ↔ inGroups s.memGroupList x = true ∨
        ∃ each ∈ l, each.loc = x ∧ each.typ ∈ sensitiveTypes) := by
    intro l
    induction l with
    | nil => simp
    | cons each l ih =>
      intro s hok
      obtain ⟨hok', hin⟩ := insertSo_adds each s hok
      rw [List.foldl_cons, ih _ hok', hin x]
      simp only [List.mem_cons, exists_eq_or_imp]
      tauto
  exact hfold pureSoList _ (by simp [Insertion.Ok])

/-! ## Cleaning -/

/-- What the first entry of a location says: an access, another operation, or nothing. -/
def kindOf (pureSoList : List SoEntry) (x : Text) : Option Bool :=
  (pureSoList.find? fun eachSo => eachSo.loc = x).map fun eachSo => isAccess eachSo.typ

theorem kindOf_cons (e : SoEntry) (l : List SoEntry) (x : Text) :
    kindOf (e :: l) x = if e.loc = x then some (isAccess e.typ) else kindOf l x := by
  rw [kindOf, List.find?_cons]
  by_cases he : e.loc = x
  · simp [he]
  · simp [he, kindOf]

theorem setType_cons (mark loc : Text) (e : SoEntry) (l : List SoEntry) :
    setType mark loc (e :: l) =
      if e.loc = loc then { e with typ := mark } :: l else e :: setType mark loc l := by
  rw [setType, List.findIdx_cons]
  by_cases he : e.loc = loc
  · simp [he]
  · simp [he, setType]

/-- Marking an access does not change what the entries say. -/
theorem kindOf_setType {mark loc : Text} (hmark : isAccess mark = true) {l : List SoEntry}
    (hloc : kindOf l loc = some true) (x : Text) : kindOf (setType mark loc l) x = kindOf l x := by
  induction l with
  | nil => cases hloc
  | cons e l ih =>
    rw [kindOf_cons] at hloc
    rw [setType_cons]
    by_cases he : e.loc = loc
    · rw [if_pos he] at hloc
      rw [if_pos he, kindOf_cons, kindOf_cons, hmark, Option.some.inj hloc]
    · rw [if_neg he] at hloc
      rw [if_neg he, kindOf_cons, kindOf_cons, ih hloc]

theorem scan_spec {mark : Text} (hmark : isAccess mark = true) (l : List Text) (s : Scan) :
    (∀ x, kindOf (l.foldl (scanOne mark) s).pureSoList x = kindOf s.pureSoList x) ∧
      (∀ x, x ∈ (l.foldl (scanOne mark) s).side ↔
        x ∈ s.side ∧ (x ∈ l → kindOf s.pureSoList x = some true)) ∧
      ∀ x, x ∈ (l.foldl (scanOne mark) s).others ↔
        x ∈ s.others ∨ x ∈ l ∧ kindOf s.pureSoList x = some false := by
  induction l generalizing s with
  | nil => simp
  | cons loc l ih =>
    rw [List.foldl_cons]
    obtain ⟨hkind, hside, hothers⟩ := ih (scanOne mark s loc)
    rw [scanOne] at hkind hside hothers ⊢
    cases hfind : s.pureSoList.find? fun eachSo => eachSo.loc = loc with
    | none =>
      have hnone : kindOf s.pureSoList loc = none := by rw [kindOf, hfind]; rfl
      simp only [hfind] at hkind hside hothers ⊢
      refine ⟨hkind, fun x => ?_, fun x => ?_⟩
      · rw [hside, Finset.mem_erase, List.mem_cons]
        by_cases hx : x = loc
        · simp [hx, hnone]
        · simp [hx]
      · rw [hothers, List.mem_cons]
        by_cases hx : x = loc
        · simp [hx, hnone]
        · simp [hx]
    | some eachSo =>
      have hloc : eachSo.loc = loc := by simpa using List.find?_some hfind
      have hsome : kindOf s.pureSoList loc = some (isAccess eachSo.typ) := by
        rw [kindOf, hfind]
        rfl
      simp only [hfind] at hkind hside hothers ⊢
      by_cases haccess : isAccess eachSo.typ = true
      · rw [haccess] at hsome
        simp only [if_pos haccess, kindOf_setType hmark hsome] at hkind hside hothers ⊢
        refine ⟨hkind, fun x => ?_, fun x => ?_⟩
        · rw [hside, List.mem_cons]
          by_cases hx : x = loc
          · simp [hx, hsome]
          · simp [hx]
        · rw [hothers, List.mem_cons]
          by_cases hx : x = loc
          · simp [hx, hsome]
          · simp [hx]
      · rw [Bool.not_eq_true] at haccess
        rw [haccess] at hsome
        simp only [haccess, Bool.false_eq_true, if_false] at hkind hside hothers ⊢
        refine ⟨hkind, fun x => ?_, fun x => ?_⟩
        · rw [hside, Finset.mem_erase, List.mem_cons]
          by_cases hx : x = loc
          · simp [hx, hsome]
          · simp [hx]
        · rw [hothers, Finset.mem_insert, List.mem_cons, hloc]
          by_cases hx : x = loc
          · simp [hx, hsome]
          · simp [hx]

def cleaned (pureSoList : List SoEntry) (g : Group) : Group where
  id := g.id
  stores := g.stores.filter fun x => kindOf pureSoList x = some true
  loads := g.loads.filter fun x => kindOf pureSoList x = some true
  others := (g.loads ∪ g.stores).filter fun x => kindOf pureSoList x = some false

/-- `cleanGroup` where each of the two copies is read in an order of its own. -/
def cleanGroupIn (o : SetOrder × SetOrder) (r : List Group × List SoEntry) (g : Group) :
    List Group × List SoEntry :=
  let loads := (o.1.elems g.loads).foldl (scanOne typR) { pureSoList := r.2, side := g.loads, others := ∅ }
  let stores := (o.2.elems g.stores).foldl (scanOne typW) { loads with side := g.stores }
  (r.1 ++ [{ g with stores := stores.side, loads := loads.side, others := stores.others }],
    stores.pureSoList)

theorem cleanGroupIn_spec (o : SetOrder × SetOrder) (done : List Group) (pureSoList : List SoEntry)
    (g : Group) : (cleanGroupIn o (done, pureSoList) g).1 = done ++ [cleaned pureSoList g] ∧
      ∀ x, kindOf (cleanGroupIn o (done, pureSoList) g).2 x = kindOf pureSoList x := by
  have hR : isAccess typR = true := by decide
  have hW : isAccess typW = true := by decide
  obtain ⟨hkind, hside, hothers⟩ := scan_spec hR (o.1.elems g.loads)
    { pureSoList, side := g.loads, others := ∅ }
  rw [cleanGroupIn]
  simp only
  generalize (o.1.elems g.loads).foldl (scanOne typR) { pureSoList, side := g.loads, others := ∅ } =
    loads at hkind hside hothers
  obtain ⟨hkind', hside', hothers'⟩ := scan_spec hW (o.2.elems g.stores) { loads with side := g.stores }
  generalize (o.2.elems g.stores).foldl (scanOne typW) { loads with side := g.stores } =
    stores at hkind' hside' hothers'
  simp only [o.1.mem_elems, Finset.notMem_empty, false_or] at hside hothers
  simp only [o.2.mem_elems, hkind] at hkind' hside' hothers'
  have hstores : stores.side = g.stores.filter fun x => kindOf pureSoList x = some true := by
    ext x
    rw [hside', Finset.mem_filter]
    tauto
  have hloads : loads.side = g.loads.filter fun x => kindOf pureSoList x = some true := by
    ext x
    rw [hside, Finset.mem_filter]
    tauto
  have hrest : stores.others =
      (g.loads ∪ g.stores).filter fun x => kindOf pureSoList x = some false := by
    ext x
    rw [hothers', hothers, Finset.mem_filter, Finset.mem_union]
    tauto
  refine ⟨?_, hkind'⟩
  rw [cleaned, hstores, hloads, hrest]

def cleanGroupsIn (orders : Nat → SetOrder × SetOrder) (memGroupList : List Group)
    (pureSoList : List SoEntry) : List Group × List SoEntry :=
  memGroupList.zipIdx.foldl (fun r g => cleanGroupIn (orders g.2) r g.1) ([], pureSoList)

theorem cleanGroups_eq_cleanGroupsIn (o : SetOrder) (memGroupList : List Group)
    (pureSoList : List SoEntry) :
    cleanGroups o memGroupList pureSoList = cleanGroupsIn (fun _ => (o, o)) memGroupList pureSoList := by
  have hfst : memGroupList = memGroupList.zipIdx.map Prod.fst := (List.zipIdx_map_fst 0 memGroupList).symm
  rw [cleanGroups]
  nth_rewrite 1 [hfst]
  rw [List.foldl_map]
  rfl

theorem cleanGroupsIn_eq (orders : Nat → SetOrder × SetOrder) (memGroupList : List Group)
    (pureSoList : List SoEntry) :
    (cleanGroupsIn orders memGroupList pureSoList).1 = memGroupList.map (cleaned pureSoList) ∧
      ∀ x, kindOf (cleanGroupsIn orders memGroupList pureSoList).2 x = kindOf pureSoList x := by
  have hfold : ∀ (l : List (Group × Nat)) (done : List Group) (so : List SoEntry),
      (∀ x, kindOf so x = kindOf pureSoList x) →
      (l.foldl (fun r g => cleanGroupIn (orders g.2) r g.1) (done, so)).1 =
          done ++ (l.map Prod.fst).map (cleaned pureSoList) ∧
        ∀ x, kindOf (l.foldl (fun r g => cleanGroupIn (orders g.2) r g.1) (done, so)).2 x =
          kindOf pureSoList x := by
    intro l
    induction l with
    | nil =>
      intro done so hso
      exact ⟨(List.append_nil done).symm, hso⟩
    | cons g l ih =>
      intro done so hso
      obtain ⟨hclean, hkind⟩ := cleanGroupIn_spec (orders g.2) done so g.1
      have hsame : cleaned so g.1 = cleaned pureSoList g.1 := by simp only [cleaned, hso]
      have hstep : cleanGroupIn (orders g.2) (done, so) g.1 =
          (done ++ [cleaned pureSoList g.1], (cleanGroupIn (orders g.2) (done, so) g.1).2) := by
        rw [← hsame, ← hclean]
      obtain ⟨hgroups, hrest⟩ := ih (done ++ [cleaned pureSoList g.1]) _ fun x => (hkind x).trans (hso x)
      rw [List.foldl_cons, hstep]
      refine ⟨?_, hrest⟩
      rw [hgroups, List.append_assoc]
      rfl
  have h := hfold memGroupList.zipIdx [] pureSoList fun _ => rfl
  rw [List.zipIdx_map_fst] at h
  exact h

theorem cleanGroups_eq (o : SetOrder) (memGroupList : List Group) (pureSoList : List SoEntry) :
    (cleanGroups o memGroupList pureSoList).1 = memGroupList.map (cleaned pureSoList) := by
  rw [cleanGroups_eq_cleanGroupsIn]
  exact (cleanGroupsIn_eq _ memGroupList pureSoList).1

theorem mem_conConfigSet {memGroupList : List Group} {x : Text} :
    x ∈ conConfigSet memGroupList ↔
      ∃ g ∈ memGroupList, x ∈ g.stores ∨ x ∈ g.loads ∨ x ∈ g.others := by
  have hfold : ∀ (l : List Group) (s : Finset Text),
      x ∈ l.foldl (fun s g => s ∪ g.stores ∪ g.loads ∪ g.others) s ↔
        x ∈ s ∨ ∃ g ∈ l, x ∈ g.stores ∨ x ∈ g.loads ∨ x ∈ g.others := by
    intro l
    induction l with
    | nil => simp
    | cons g l ih =>
      intro s
      rw [List.foldl_cons, ih]
      simp only [Finset.mem_union, List.mem_cons, exists_eq_or_imp, or_assoc]
  rw [conConfigSet, hfold]
  simp

end Period.Analysis
