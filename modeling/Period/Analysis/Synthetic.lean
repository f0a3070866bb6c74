import Period.Analysis.Groups

/-!
# Groups of unknown locations

The kinds share two flags, and every location goes to the group that happens to be the last
one. So an insertion makes at most two groups, cut where a flag is raised for the first time.
-/

namespace Period.Analysis

set_option autoImplicit false

def syntheticGroups : List (Int × Text) :=
  [(99999, "lock".toList), (99998, "free".toList), (99997, "std_atomic".toList),
    (99996, "std_size".toList), (99995, "memset".toList), (99994, "std::vector<...>::resize".toList),
    (99993, "cmpnull".toList)]

def syntheticId (typ : Text) : Int :=
  ((syntheticGroups.find? fun k => k.2 = typ).map Prod.fst).getD 0

theorem mem_sensitiveTypes {typ : Text} : typ ∈ sensitiveTypes ↔ ∃ k ∈ syntheticGroups, k.2 = typ := by
  have hmap : sensitiveTypes = syntheticGroups.map Prod.snd := rfl
  rw [hmap, List.mem_map]

theorem syntheticId_mem {typ : Text} (h : typ ∈ sensitiveTypes) :
    ∃ k ∈ syntheticGroups, k.1 = syntheticId typ := by
  have hall : ∀ typ ∈ sensitiveTypes, ∃ k ∈ syntheticGroups, k.1 = syntheticId typ := by decide
  exact hall typ h

theorem syntheticId_eq_iff {typ : Text} (h : typ ∈ sensitiveTypes) {k : Int × Text}
    (hk : k ∈ syntheticGroups) : syntheticId typ = k.1 ↔ typ = k.2 := by
  have hall : ∀ typ ∈ sensitiveTypes, ∀ k ∈ syntheticGroups, syntheticId typ = k.1 ↔ typ = k.2 := by decide
  exact hall typ h k hk

/-- Locks have a flag of their own. -/
def isLock (e : SoEntry) : Bool := e.typ = "lock".toList

theorem insertSo_eq (s : Insertion) (e : SoEntry) :
    insertSo s e = if e.typ ∈ sensitiveTypes then
      if isLock e then addLock e s else addKind e.typ (syntheticId e.typ) e s else s := by
  by_cases hmem : e.typ ∈ sensitiveTypes
  · rw [if_pos hmem]
    have hcases := hmem
    simp only [sensitiveTypes, List.mem_cons, List.not_mem_nil, or_false] at hcases
    rcases hcases with h | h | h | h | h | h | h <;>
      simp [insertSo, addLock, addFree, addStdAtomic, addStdSize, addMemset, addResize, addCmpnull,
        addKind, isLock, syntheticId, syntheticGroups, h]
  · rw [if_neg hmem]
    simp only [sensitiveTypes, List.mem_cons, List.not_mem_nil, or_false, not_or] at hmem
    simp only [insertSo, addLock, addFree, addStdAtomic, addStdSize, addMemset, addResize, addCmpnull,
      addKind, hmem, if_false]

/-- The group of a block, named after its first entry. -/
def groupOf : List SoEntry → List Group
  | [] => []
  | e :: l => [⟨syntheticId e.typ, ((e :: l).map SoEntry.loc).toFinset, ∅, ∅⟩]

/-- The new groups are those of the blocks `A` and `B`. In `A` one flag is raised, and `B`
begins with the other one. -/
structure Placed (memGroupList : List Group) (A B : List SoEntry) (s : Insertion) : Prop where
  groups : s.memGroupList = memGroupList ++ (groupOf A ++ groupOf B)
  lockFlag : s.hasUkLockSet = (A ++ B).any isLock
  kindFlag : s.hasUkFreeSet = (A ++ B).any fun e => !isLock e
  one : ∀ a ∈ A, ∀ a' ∈ A, isLock a = isLock a'
  two : ∀ a ∈ A, ∀ b ∈ B.head?, isLock b = !isLock a
  first : A = [] → B = []

theorem addToLast_concat (groups : List Group) (g : Group) (loc : Text) :
    addToLast (groups ++ [g]) loc = groups ++ [{ g with stores := insert loc g.stores }] := by
  have hlen : (groups ++ [g]).length - 1 = groups.length := by simp
  rw [addToLast, hlen, List.modify_eq_take_cons_drop (by simp)]
  simp

theorem addToLast_groupOf (groups : List Group) {l : List SoEntry} (hl : l ≠ []) (e : SoEntry) :
    addToLast (groups ++ groupOf l) e.loc = groups ++ groupOf (l ++ [e]) := by
  obtain ⟨b, l, rfl⟩ := List.exists_cons_of_ne_nil hl
  have hinsert : insert e.loc ((b :: l).map SoEntry.loc).toFinset =
      ((b :: (l ++ [e])).map SoEntry.loc).toFinset := by
    ext x
    simp only [Finset.mem_insert, List.mem_toFinset, List.map_cons, List.map_append, List.map_nil,
      List.mem_cons, List.mem_append, List.not_mem_nil, or_false]
    tauto
  rw [groupOf, addToLast_concat, List.cons_append, groupOf, hinsert]

theorem inGroups_groupOf (l : List SoEntry) (x : Text) :
    inGroups (groupOf l) x = true ↔ x ∈ l.map SoEntry.loc := by
  rw [mem_inGroups]
  cases l with
  | nil => simp [groupOf]
  | cons e l => simp [groupOf]

theorem inGroups_append (l l' : List Group) (x : Text) :
    inGroups (l ++ l') x = true ↔ inGroups l x = true ∨ inGroups l' x = true := by
  rw [inGroups, List.any_append, Bool.or_eq_true]
  rfl

/-- What a test does with a location no group knows. -/
def placeNew (s : Insertion) (e : SoEntry) : Insertion :=
  let flag := if isLock e then s.hasUkLockSet else s.hasUkFreeSet
  { memGroupList := if flag then addToLast s.memGroupList e.loc else s.memGroupList ++ groupOf [e]
    hasUkLockSet := s.hasUkLockSet || isLock e
    hasUkFreeSet := s.hasUkFreeSet || !isLock e }

theorem insertSo_new {s : Insertion} {e : SoEntry} (htyp : e.typ ∈ sensitiveTypes)
    (hnew : inGroups s.memGroupList e.loc = false) : insertSo s e = placeNew s e := by
  have hempty : ∀ id : Int, addToLast (s.memGroupList ++ [⟨id, ∅, ∅, ∅⟩]) e.loc =
      s.memGroupList ++ [⟨id, {e.loc}, ∅, ∅⟩] := fun id => addToLast_concat _ _ _
  rw [insertSo_eq, if_pos htyp]
  by_cases hlock : isLock e = true
  · have htyp' : e.typ = "lock".toList := of_decide_eq_true hlock
    rw [if_pos hlock, addLock, if_pos htyp', addUnknown, hnew, placeNew]
    cases hflag : s.hasUkLockSet with
    | true => simp [hlock]
    | false =>
      have hid : syntheticId e.typ = 99999 := by rw [htyp']; decide
      simp [hlock, hempty, groupOf, hid]
  · rw [Bool.not_eq_true] at hlock
    rw [hlock, if_neg Bool.false_ne_true, addKind, if_pos rfl, addUnknown, hnew, placeNew]
    cases hflag : s.hasUkFreeSet with
    | true => simp [hlock]
    | false => simp [hlock, hempty, groupOf]

theorem insertSo_known {s : Insertion} {e : SoEntry} (hknown : inGroups s.memGroupList e.loc = true) :
    insertSo s e = s := by
  rw [insertSo_eq]
  split
  · split
    · next hlock => rw [addLock, if_pos (of_decide_eq_true hlock), addUnknown, if_pos hknown]
    · rw [addKind, if_pos rfl, addUnknown, if_pos hknown]
  · rfl

/-- The flag of a kind is up when a location of that kind has been placed. -/
theorem Placed.flag {memGroupList : List Group} {A B : List SoEntry} {s : Insertion}
    (h : Placed memGroupList A B s) (e : SoEntry) :
    (if isLock e then s.hasUkLockSet else s.hasUkFreeSet) = (A ++ B).any fun a => isLock a == isLock e := by
  cases isLock e with
  | true =>
    rw [if_pos rfl, h.lockFlag]
    simp
  | false =>
    rw [if_neg Bool.false_ne_true, h.kindFlag]
    simp

/-- The flags follow the blocks, whichever block takes the location. -/
theorem Placed.grow {memGroupList : List Group} {A B A' B' : List SoEntry} {s : Insertion}
    (h : Placed memGroupList A B s) {e : SoEntry} (hsplit : A' ++ B' = A ++ B ++ [e])
    (hgroups : (placeNew s e).memGroupList = memGroupList ++ (groupOf A' ++ groupOf B'))
    (hone : ∀ a ∈ A', ∀ a' ∈ A', isLock a = isLock a') (htwo : ∀ a ∈ A', ∀ b ∈ B'.head?, isLock b = !isLock a)
    (hfirst : A' = [] → B' = []) : Placed memGroupList A' B' (placeNew s e) := by
  refine ⟨hgroups, ?_, ?_, hone, htwo, hfirst⟩
  · rw [hsplit, placeNew, List.any_append, ← h.lockFlag]
    simp
  · rw [hsplit, placeNew, List.any_append, ← h.kindFlag]
    simp

theorem placeNew_opens {memGroupList : List Group} {A B : List SoEntry} {s : Insertion}
    (h : Placed memGroupList A B s) {e : SoEntry} (hnone : ∀ a ∈ A ++ B, isLock a ≠ isLock e) :
    (placeNew s e).memGroupList = memGroupList ++ (groupOf A ++ groupOf B ++ groupOf [e]) := by
  have hflag : ¬ ((A ++ B).any fun a => isLock a == isLock e) = true := by
    rw [List.any_eq_true]
    rintro ⟨a, ha, heq⟩
    exact hnone a ha (beq_iff_eq.mp heq)
  rw [placeNew]
  simp only [h.flag e]
  rw [if_neg hflag, h.groups, List.append_assoc]

theorem placeNew_joins {memGroupList : List Group} {A B : List SoEntry} {s : Insertion}
    (h : Placed memGroupList A B s) {a e : SoEntry} (ha : a ∈ A ++ B) (hsame : isLock a = isLock e) :
    (placeNew s e).memGroupList = addToLast (memGroupList ++ (groupOf A ++ groupOf B)) e.loc := by
  have hflag : ((A ++ B).any fun a => isLock a == isLock e) = true :=
    List.any_eq_true.mpr ⟨a, ha, beq_iff_eq.mpr hsame⟩
  rw [placeNew]
  simp only [h.flag e]
  rw [if_pos hflag, h.groups]

theorem placed_new {memGroupList : List Group} {A B : List SoEntry} {s : Insertion}
    (h : Placed memGroupList A B s) (e : SoEntry) :
    ∃ A' B', A' ++ B' = A ++ B ++ [e] ∧ Placed memGroupList A' B' (placeNew s e) := by
  cases A with
  | nil =>
    obtain rfl := h.first rfl
    refine ⟨[e], [], rfl, h.grow rfl ?_ (by simp) (by simp) (by simp)⟩
    rw [placeNew_opens h (by simp)]
    simp [groupOf]
  | cons a A =>
    cases B with
    | nil =>
      by_cases hsame : isLock a = isLock e
      · have hall : ∀ b ∈ a :: A ++ [e], isLock b = isLock e := by
          intro b hb
          rcases List.mem_append.mp hb with hb | hb
          · rw [h.one b hb a List.mem_cons_self, hsame]
          · rw [List.mem_singleton.mp hb]
        refine ⟨a :: A ++ [e], [], by simp, h.grow (by simp) ?_
          (fun b hb b' hb' => (hall b hb).trans (hall b' hb').symm) (by simp) (by simp)⟩
        rw [placeNew_joins h (by simp) hsame]
        simp only [groupOf, List.append_nil]
        exact addToLast_groupOf memGroupList (List.cons_ne_nil a A) e
      · have hother : ∀ b ∈ a :: A, isLock b ≠ isLock e := by
          intro b hb
          rw [h.one b hb a List.mem_cons_self]
          exact hsame
        refine ⟨a :: A, [e], by simp, h.grow (by simp) ?_ h.one ?_ (by simp)⟩
        · rw [placeNew_opens h (by rwa [List.append_nil])]
          simp [groupOf]
        · intro b hb e' he'
          obtain rfl := Option.some.inj he'
          exact Bool.eq_not.mpr (hother b hb).symm
    | cons b B =>
      -- both flags are up
      obtain ⟨c, hc, hsame⟩ : ∃ c ∈ a :: A ++ b :: B, isLock c = isLock e := by
        by_cases hsame : isLock a = isLock e
        · exact ⟨a, by simp, hsame⟩
        · refine ⟨b, by simp, ?_⟩
          rw [h.two a List.mem_cons_self b rfl, ← Bool.eq_not.mpr (fun h => hsame h.symm)]
      refine ⟨a :: A, b :: B ++ [e], by simp, h.grow (by simp) ?_ h.one h.two (by simp)⟩
      rw [placeNew_joins h hc hsame, ← List.append_assoc, addToLast_groupOf _ (List.cons_ne_nil b B),
        List.append_assoc]

/-- The sensitive entries that no group knows, in the order of the list. -/
def unknownEntries (memGroupList : List Group) (pureSoList : List SoEntry) : List SoEntry :=
  pureSoList.filter fun e => sensitiveTypes.contains e.typ && !inGroups memGroupList e.loc

/-- One round. The location of `e` is none of those that have been placed. -/
theorem placed_step {memGroupList : List Group} {done : List SoEntry} {e : SoEntry} {A B : List SoEntry}
    {s : Insertion} (hsplit : A ++ B = unknownEntries memGroupList done)
    (hfresh : e.loc ∉ done.map SoEntry.loc) (h : Placed memGroupList A B s) :
    ∃ A' B', A' ++ B' = unknownEntries memGroupList (done ++ [e]) ∧
      Placed memGroupList A' B' (insertSo s e) := by
  have hnext : unknownEntries memGroupList (done ++ [e]) =
      A ++ B ++ [e].filter fun e => sensitiveTypes.contains e.typ && !inGroups memGroupList e.loc := by
    rw [hsplit, unknownEntries, List.filter_append]
    rfl
  have hplaced : e.loc ∉ (A ++ B).map SoEntry.loc := by
    rw [hsplit]
    exact fun hin => hfresh ((List.filter_sublist.map SoEntry.loc).mem hin)
  have hknown : inGroups s.memGroupList e.loc = true ↔ inGroups memGroupList e.loc = true := by
    rw [h.groups, inGroups_append, inGroups_append, inGroups_groupOf, inGroups_groupOf, ← List.mem_append,
      ← List.map_append]
    exact or_iff_left hplaced
  by_cases htyp : e.typ ∈ sensitiveTypes
  · by_cases hin : inGroups memGroupList e.loc = true
    · refine ⟨A, B, ?_, ?_⟩
      · rw [hnext]
        simp [hin]
      · rwa [insertSo_known (hknown.mpr hin)]
    · have hnew : inGroups s.memGroupList e.loc = false := Bool.eq_false_iff.mpr fun h => hin (hknown.mp h)
      obtain ⟨A', B', hsplit', hplaced'⟩ := placed_new h e
      refine ⟨A', B', ?_, ?_⟩
      · rw [hnext, hsplit', Bool.not_eq_true] at *
        simp [hin, htyp]
      · rwa [insertSo_new htyp hnew]
  · refine ⟨A, B, ?_, ?_⟩
    · rw [hnext]
      simp [htyp]
    · rwa [insertSo_eq, if_neg htyp]

theorem insertAll_placed (memGroupList : List Group) {pureSoList : List SoEntry}
    (hnodup : (pureSoList.map SoEntry.loc).Nodup) :
    ∃ A B, A ++ B = unknownEntries memGroupList pureSoList ∧
      Placed memGroupList A B (pureSoList.foldl insertSo
        { memGroupList, hasUkLockSet := false, hasUkFreeSet := false }) := by
  induction pureSoList using List.reverseRecOn with
  | nil =>
    refine ⟨[], [], rfl, ?_, rfl, rfl, by simp, by simp, by simp⟩
    simp [groupOf]
  | append_singleton done e ih =>
    rw [List.map_append, List.nodup_append] at hnodup
    obtain ⟨hdone, _, hcross⟩ := hnodup
    obtain ⟨A, B, hsplit, hplaced⟩ := ih hdone
    have hfresh : e.loc ∉ done.map SoEntry.loc := fun hin => hcross _ hin _ (by simp) rfl
    rw [List.foldl_append]
    exact placed_step hsplit hfresh hplaced

/-! ## Kinds -/

/-- What the ids promise: a new group has the locations of its kind that no group knew, and the
old groups stay as they are. -/
def GroupedByKind (memGroupList : List Group) (pureSoList : List SoEntry) : Prop :=
  ∃ new, insertAll memGroupList pureSoList = memGroupList ++ new ∧
    (∀ g ∈ new, g.loads = ∅ ∧ g.id ∈ syntheticGroups.map Prod.fst) ∧
    (∀ k ∈ syntheticGroups, ∀ x, (∃ g ∈ new, g.id = k.1 ∧ x ∈ g.stores) ↔
      ∃ e ∈ pureSoList, e.loc = x ∧ e.typ = k.2 ∧ inGroups memGroupList x = false) ∧
    ∀ g ∈ new, ∀ e ∈ pureSoList, ∀ e' ∈ pureSoList, e.loc ∈ g.stores → e'.loc ∈ g.stores → e.typ = e'.typ

/-- One run of locks and one of another kind. -/
def TwoRuns (l : List SoEntry) : Prop :=
  ∃ typ typ' X Y, l = X ++ Y ∧ (∀ e ∈ X, e.typ = typ) ∧ (∀ e ∈ Y, e.typ = typ') ∧
    (typ = "lock".toList ∨ typ' = "lock".toList)

theorem mem_unknownEntries {memGroupList : List Group} {pureSoList : List SoEntry} {e : SoEntry} :
    e ∈ unknownEntries memGroupList pureSoList ↔
      e ∈ pureSoList ∧ e.typ ∈ sensitiveTypes ∧ inGroups memGroupList e.loc = false := by
  rw [unknownEntries, List.mem_filter]
  simp

/-- Two runs do not cut a block: `B` begins where the flag changes. -/
theorem sameType_of_twoRuns {memGroupList : List Group} {A B : List SoEntry} {s : Insertion}
    (h : Placed memGroupList A B s) (hruns : TwoRuns (A ++ B)) :
    (∀ a ∈ A, ∀ a' ∈ A, a.typ = a'.typ) ∧ ∀ b ∈ B, ∀ b' ∈ B, b.typ = b'.typ := by
  obtain ⟨typ, typ', X, Y, hsplit, hX, hY, hlock⟩ := hruns
  have hbothY : ∀ b ∈ Y, ∀ b' ∈ Y, b.typ = b'.typ := fun b hb b' hb' => (hY b hb).trans (hY b' hb').symm
  have hbothX : ∀ a ∈ X, ∀ a' ∈ X, a.typ = a'.typ := fun a ha a' ha' => (hX a ha).trans (hX a' ha').symm
  rcases List.append_eq_append_iff.mp hsplit with ⟨C, rfl, rfl⟩ | ⟨C, rfl, rfl⟩
  · -- `B` begins inside the first run
    refine ⟨fun a ha a' ha' => hbothX a (by simp [ha]) a' (by simp [ha']), ?_⟩
    cases C with
    | nil => exact fun b hb b' hb' => hbothY b (by simpa using hb) b' (by simpa using hb')
    | cons c C =>
      cases A with
      | nil => exact absurd (h.first rfl) (by simp)
      | cons a A =>
        have hac : a.typ = c.typ := hbothX a (by simp) c (by simp)
        have hother := h.two a List.mem_cons_self c rfl
        rw [isLock, isLock, hac] at hother
        exact absurd hother (Bool.self_ne_not _)
  · refine ⟨?_, fun b hb b' hb' => hbothY b (by simp [hb]) b' (by simp [hb'])⟩
    cases X with
    | nil => exact fun a ha a' ha' => hbothY a (by simp_all) a' (by simp_all)
    | cons x X =>
      cases C with
      | nil => exact fun a ha a' ha' => hbothX a (by simpa using ha) a' (by simpa using ha')
      | cons c C =>
        -- one flag in both runs: both are locks
        have hxc := h.one x (by simp) c (by simp)
        have htyps : typ = typ' := by
          rw [isLock, isLock, hX x List.mem_cons_self, hY c (by simp), decide_eq_decide] at hxc
          rcases hlock with hlock | hlock
          · rw [hlock, hxc.mp hlock]
          · rw [hlock, hxc.mpr hlock]
        subst htyps
        have hall : ∀ e ∈ x :: X ++ c :: C, e.typ = typ := by
          intro e he
          rcases List.mem_append.mp he with he | he
          · exact hX e he
          · exact hY e (List.mem_append_left _ he)
        exact fun a ha a' ha' => (hall a ha).trans (hall a' ha').symm

theorem twoRuns_of_sameType {memGroupList : List Group} {A B : List SoEntry} {s : Insertion}
    (h : Placed memGroupList A B s) (hA : ∀ a ∈ A, ∀ a' ∈ A, a.typ = a'.typ)
    (hB : ∀ b ∈ B, ∀ b' ∈ B, b.typ = b'.typ) : TwoRuns (A ++ B) := by
  cases A with
  | nil =>
    obtain rfl := h.first rfl
    exact ⟨"lock".toList, [], [], [], rfl, by simp, by simp, Or.inl rfl⟩
  | cons a A =>
    have hfirst : ∀ e ∈ a :: A, e.typ = a.typ := fun e he => hA e he a List.mem_cons_self
    cases B with
    | nil => exact ⟨a.typ, "lock".toList, a :: A, [], rfl, hfirst, by simp, Or.inr rfl⟩
    | cons b B =>
      have hsecond : ∀ e ∈ b :: B, e.typ = b.typ := fun e he => hB e he b List.mem_cons_self
      refine ⟨a.typ, b.typ, a :: A, b :: B, rfl, hfirst, hsecond, ?_⟩
      -- one of the two blocks raises the flag of the locks
      have hb := h.two a List.mem_cons_self b rfl
      cases hlock : isLock a with
      | true => exact Or.inl (of_decide_eq_true hlock)
      | false =>
        rw [hlock, Bool.not_false] at hb
        exact Or.inr (of_decide_eq_true hb)

theorem twoRuns_iff {memGroupList : List Group} {A B : List SoEntry} {s : Insertion}
    (h : Placed memGroupList A B s) :
    TwoRuns (A ++ B) ↔ (∀ a ∈ A, ∀ a' ∈ A, a.typ = a'.typ) ∧ ∀ b ∈ B, ∀ b' ∈ B, b.typ = b'.typ := by
  refine ⟨sameType_of_twoRuns h, ?_⟩
  rintro ⟨hA, hB⟩
  exact twoRuns_of_sameType h hA hB

theorem mem_groupOf {l : List SoEntry} {g : Group} (hg : g ∈ groupOf l) :
    g.loads = ∅ ∧ (∀ x, x ∈ g.stores ↔ ∃ e ∈ l, e.loc = x) ∧ ∃ e ∈ l, g.id = syntheticId e.typ := by
  cases l with
  | nil => exact absurd hg List.not_mem_nil
  | cons e l =>
    obtain rfl := List.mem_singleton.mp hg
    refine ⟨rfl, fun x => ?_, e, List.mem_cons_self, rfl⟩
    rw [List.mem_toFinset, List.mem_map]

theorem exists_groupOf {l : List SoEntry} {e : SoEntry} (he : e ∈ l) :
    ∃ g ∈ groupOf l, e.loc ∈ g.stores := by
  cases l with
  | nil => exact absurd he List.not_mem_nil
  | cons b l => exact ⟨_, List.mem_singleton.mpr rfl, List.mem_toFinset.mpr (List.mem_map_of_mem he)⟩

theorem mem_groupOf_append {A B : List SoEntry} (hA : ∀ a ∈ A, ∀ a' ∈ A, a.typ = a'.typ)
    (hB : ∀ b ∈ B, ∀ b' ∈ B, b.typ = b'.typ) {g : Group} (hg : g ∈ groupOf A ++ groupOf B) :
    ∃ l, (∀ e ∈ l, e ∈ A ++ B) ∧ g ∈ groupOf l ∧ ∀ e ∈ l, ∀ e' ∈ l, e.typ = e'.typ := by
  rcases List.mem_append.mp hg with hg | hg
  · exact ⟨A, fun e he => List.mem_append_left _ he, hg, hA⟩
  · exact ⟨B, fun e he => List.mem_append_right _ he, hg, hB⟩

theorem exists_groupOf_append {A B : List SoEntry} (hA : ∀ a ∈ A, ∀ a' ∈ A, a.typ = a'.typ)
    (hB : ∀ b ∈ B, ∀ b' ∈ B, b.typ = b'.typ) {e : SoEntry} (he : e ∈ A ++ B) :
    ∃ g ∈ groupOf A ++ groupOf B, g.id = syntheticId e.typ ∧ e.loc ∈ g.stores := by
  have hfind : ∀ l, e ∈ l → (∀ b ∈ l, ∀ b' ∈ l, b.typ = b'.typ) →
      ∃ g ∈ groupOf l, g.id = syntheticId e.typ ∧ e.loc ∈ g.stores := by
    intro l hel hsame
    obtain ⟨g, hg, hloc⟩ := exists_groupOf hel
    obtain ⟨_, _, b, hb, hid⟩ := mem_groupOf hg
    exact ⟨g, hg, by rw [hid, hsame b hb e hel], hloc⟩
  rcases List.mem_append.mp he with he | he
  · obtain ⟨g, hg, hrest⟩ := hfind A he hA
    exact ⟨g, List.mem_append_left _ hg, hrest⟩
  · obtain ⟨g, hg, hrest⟩ := hfind B he hB
    exact ⟨g, List.mem_append_right _ hg, hrest⟩

theorem groupedByKind_of_placed {memGroupList : List Group} {pureSoList A B : List SoEntry}
    (hnodup : (pureSoList.map SoEntry.loc).Nodup) (hsplit : A ++ B = unknownEntries memGroupList pureSoList)
    (hinsert : insertAll memGroupList pureSoList = memGroupList ++ (groupOf A ++ groupOf B))
    (hA : ∀ a ∈ A, ∀ a' ∈ A, a.typ = a'.typ) (hB : ∀ b ∈ B, ∀ b' ∈ B, b.typ = b'.typ) :
    GroupedByKind memGroupList pureSoList := by
  have hsub : ∀ e ∈ A ++ B, e ∈ pureSoList ∧ e.typ ∈ sensitiveTypes ∧ inGroups memGroupList e.loc = false := by
    rw [hsplit]
    exact fun e he => mem_unknownEntries.mp he
  have hunique : ∀ e ∈ pureSoList, ∀ e' ∈ pureSoList, e.loc = e'.loc → e = e' :=
    fun e he e' he' heq => List.inj_on_of_nodup_map hnodup he he' heq
  refine ⟨groupOf A ++ groupOf B, hinsert, fun g hg => ?_, fun k hk x => ⟨?_, ?_⟩,
    fun g hg e he e' he' hx hx' => ?_⟩
  · obtain ⟨l, hl, hgl, _⟩ := mem_groupOf_append hA hB hg
    obtain ⟨hloads, _, e, he, hid⟩ := mem_groupOf hgl
    obtain ⟨k, hk, hkid⟩ := syntheticId_mem (hsub e (hl e he)).2.1
    exact ⟨hloads, List.mem_map.mpr ⟨k, hk, hkid.trans hid.symm⟩⟩
  · rintro ⟨g, hg, hid, hx⟩
    obtain ⟨l, hl, hgl, hsame⟩ := mem_groupOf_append hA hB hg
    obtain ⟨_, hstores, b, hb, hbid⟩ := mem_groupOf hgl
    obtain ⟨e, he, rfl⟩ := (hstores x).mp hx
    obtain ⟨hpure, _, hin⟩ := hsub e (hl e he)
    refine ⟨e, hpure, rfl, ?_, hin⟩
    rw [hsame e he b hb]
    exact (syntheticId_eq_iff (hsub b (hl b hb)).2.1 hk).mp (hbid.symm.trans hid)
  · rintro ⟨e, he, rfl, htyp, hin⟩
    have hsens : e.typ ∈ sensitiveTypes := mem_sensitiveTypes.mpr ⟨k, hk, htyp.symm⟩
    have hmem : e ∈ A ++ B := by
      rw [hsplit]
      exact mem_unknownEntries.mpr ⟨he, hsens, hin⟩
    obtain ⟨g, hg, hid, hloc⟩ := exists_groupOf_append hA hB hmem
    exact ⟨g, hg, hid.trans ((syntheticId_eq_iff hsens hk).mpr htyp), hloc⟩
  · obtain ⟨l, hl, hgl, hsame⟩ := mem_groupOf_append hA hB hg
    obtain ⟨_, hstores, _⟩ := mem_groupOf hgl
    obtain ⟨b, hb, hbx⟩ := (hstores _).mp hx
    obtain ⟨b', hb', hbx'⟩ := (hstores _).mp hx'
    rw [← hunique b (hsub b (hl b hb)).1 e he hbx, ← hunique b' (hsub b' (hl b' hb')).1 e' he' hbx']
    exact hsame b hb b' hb'

theorem groupedByKind_iff {memGroupList : List Group} {pureSoList : List SoEntry}
    (hnodup : (pureSoList.map SoEntry.loc).Nodup) :
    GroupedByKind memGroupList pureSoList ↔ TwoRuns (unknownEntries memGroupList pureSoList) := by
  obtain ⟨A, B, hsplit, hplaced⟩ := insertAll_placed memGroupList hnodup
  have hinsert : insertAll memGroupList pureSoList = memGroupList ++ (groupOf A ++ groupOf B) := hplaced.groups
  rw [← hsplit, twoRuns_iff hplaced]
  constructor
  · rintro ⟨new, hnew, _, _, hmix⟩
    obtain rfl : groupOf A ++ groupOf B = new := List.append_cancel_left (hinsert.symm.trans hnew)
    have hpure : ∀ e ∈ A ++ B, e ∈ pureSoList := by
      rw [hsplit]
      exact fun e he => (mem_unknownEntries.mp he).1
    have hblock : ∀ l, (∀ g ∈ groupOf l, g ∈ groupOf A ++ groupOf B) → (∀ e ∈ l, e ∈ A ++ B) →
        ∀ e ∈ l, ∀ e' ∈ l, e.typ = e'.typ := by
      intro l hl hmem e he e' he'
      obtain ⟨g, hg, hloc⟩ := exists_groupOf he
      have hstores := (mem_groupOf hg).2.1
      exact hmix g (hl g hg) e (hpure e (hmem e he)) e' (hpure e' (hmem e' he')) hloc
        ((hstores _).mpr ⟨e', he', rfl⟩)
    exact ⟨hblock A (fun g hg => List.mem_append_left _ hg) fun e he => List.mem_append_left _ he,
      hblock B (fun g hg => List.mem_append_right _ hg) fun e he => List.mem_append_right _ he⟩
  · rintro ⟨hA, hB⟩
    exact groupedByKind_of_placed hnodup hsplit hinsert hA hB

/-- The insertion groups by kind exactly when the unknown locations come as locks and one other
kind, one after the other. -/
theorem insertAll_groupedByKind_iff (soList : List SoEntry) (memGroupList : List Group) :
    GroupedByKind memGroupList (pureSo soList) ↔
      TwoRuns (unknownEntries memGroupList (pureSo soList)) :=
  groupedByKind_iff (pureSo_nodup soList)

/-- A null comparison ends up among the freed objects. -/
theorem cmpnull_grouped_with_free : ¬ ∀ (soList : List SoEntry) (memGroupList : List Group),
    GroupedByKind memGroupList (pureSo soList) := by
  intro h
  let freed : SoEntry := ⟨"a.c:1".toList, "free".toList, "f".toList, "1".toList⟩
  let compared : SoEntry := ⟨"a.c:2".toList, "cmpnull".toList, "f".toList, "1".toList⟩
  have hsort : sortSo [freed, compared] = [freed, compared] := by
    apply List.mergeSort_of_pairwise
    decide
  have hpure : pureSo [freed, compared] = [freed, compared] := by
    rw [pureSo, hsort]
    decide
  obtain ⟨new, hnew, _, _, hmix⟩ := h [freed, compared] []
  rw [hpure] at hnew hmix
  have hgroup : insertAll [] [freed, compared] =
      [⟨99998, {"a.c:2".toList, "a.c:1".toList}, ∅, ∅⟩] := by decide
  obtain rfl := hgroup.symm.trans hnew
  have htyp := hmix _ List.mem_cons_self freed (by simp) compared (by simp) (by decide) (by decide)
  exact absurd htyp (by decide)

end Period.Analysis
