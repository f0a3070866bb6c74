import Period.Analysis.Dump

/-!
# What skipped blocks leave behind

A location that is passed over does not end its block: what the block accesses stays with the
reader and gets the next location that is not passed over.
-/

namespace Period.Analysis

open Period.Driver (contains)
set_option autoImplicit false

def Group.side (g : Group) (isWrite : Bool) : Finset Text := if isWrite then g.stores else g.loads

def Instruction.side (insn : Instruction) (isWrite : Bool) : Finset Int :=
  if isWrite then insn.storeTo else insn.loadFrom

def HasAccess (groups : List Group) (isWrite : Bool) (o : Int) (x : Text) : Prop :=
  ∃ g ∈ groups, g.id = o ∧ x ∈ g.side isWrite

def Group.addLoc (g : Group) (isWrite : Bool) (sourceLoc : Text) : Group :=
  if isWrite then { g with stores := insert sourceLoc g.stores } else { g with loads := insert sourceLoc g.loads }

theorem Group.addLoc_id (g : Group) (isWrite : Bool) (sourceLoc : Text) : (g.addLoc isWrite sourceLoc).id = g.id := by
  rw [addLoc]
  split <;> rfl

theorem Group.mem_side_addLoc {g : Group} {isWrite w : Bool} {sourceLoc x : Text} :
    x ∈ (g.addLoc isWrite sourceLoc).side w ↔ x ∈ g.side w ∨ w = isWrite ∧ x = sourceLoc := by
  cases isWrite <;> cases w <;> simp [addLoc, side, or_comm]

/-- With or without a group of the key, there is one in the end, and it gets the location. -/
theorem addInstruction_eq {isWrite : Bool} {sourceLoc : Text} {groups : List Group} {key : Int} (hkey : key ≠ 1) :
    addInstruction isWrite sourceLoc groups key =
      (if groups.any fun g => g.id = key then groups else groups ++ [⟨key, ∅, ∅, ∅⟩]).map fun g =>
        if g.id = key then g.addLoc isWrite sourceLoc else g := by
  rw [addInstruction, if_neg hkey]
  rfl

theorem addInstruction_ids {isWrite : Bool} {sourceLoc : Text} {groups : List Group} (key : Int)
    (h : (groups.map Group.id).Nodup) : ((addInstruction isWrite sourceLoc groups key).map Group.id).Nodup := by
  have hmap : ∀ l : List Group,
      (l.map fun g => if g.id = key then g.addLoc isWrite sourceLoc else g).map Group.id = l.map Group.id := by
    intro l
    rw [List.map_map]
    apply List.map_congr_left
    intro g _
    rw [Function.comp]
    split
    · exact g.addLoc_id isWrite sourceLoc
    · rfl
  by_cases hkey : key = 1
  · rwa [addInstruction, if_pos hkey]
  · rw [addInstruction_eq hkey, hmap]
    split
    · exact h
    · next hnew =>
      have hfresh : ∀ i ∈ groups.map Group.id, ∀ k ∈ [key], i ≠ k := by
        intro i hi k hk
        obtain ⟨g, hg, rfl⟩ := List.mem_map.mp hi
        obtain rfl := List.mem_singleton.mp hk
        exact fun heq => hnew (List.any_eq_true.mpr ⟨g, hg, decide_eq_true heq⟩)
      rw [List.map_append]
      exact List.nodup_append.mpr ⟨h, List.nodup_singleton key, hfresh⟩

theorem hasAccess_map_addLoc {isWrite w : Bool} {sourceLoc x : Text} {groups : List Group} {key o : Int}
    (hkey : ∃ g ∈ groups, g.id = key) :
    HasAccess (groups.map fun g => if g.id = key then g.addLoc isWrite sourceLoc else g) w o x ↔
      HasAccess groups w o x ∨ o = key ∧ w = isWrite ∧ x = sourceLoc := by
  simp only [HasAccess, List.mem_map, exists_exists_and_eq_and]
  constructor
  · rintro ⟨g, hg, hid, hx⟩
    by_cases hgk : g.id = key
    · rw [if_pos hgk, Group.addLoc_id] at hid
      rw [if_pos hgk, Group.mem_side_addLoc] at hx
      rcases hx with hx | hnew
      · exact Or.inl ⟨g, hg, hid, hx⟩
      · exact Or.inr ⟨hid.symm.trans hgk, hnew⟩
    · rw [if_neg hgk] at hid hx
      exact Or.inl ⟨g, hg, hid, hx⟩
  · rintro (⟨g, hg, hid, hx⟩ | ⟨rfl, hnew⟩)
    · refine ⟨g, hg, ?_⟩
      split
      · exact ⟨(g.addLoc_id _ _).trans hid, Group.mem_side_addLoc.mpr (Or.inl hx)⟩
      · exact ⟨hid, hx⟩
    · obtain ⟨g, hg, hid⟩ := hkey
      refine ⟨g, hg, ?_⟩
      rw [if_pos hid]
      exact ⟨(g.addLoc_id _ _).trans hid, Group.mem_side_addLoc.mpr (Or.inr hnew)⟩

theorem hasAccess_concat {w : Bool} {x : Text} {groups : List Group} {key o : Int} :
    HasAccess (groups ++ [⟨key, ∅, ∅, ∅⟩]) w o x ↔ HasAccess groups w o x := by
  constructor
  · rintro ⟨g, hg, hid, hx⟩
    rcases List.mem_append.mp hg with hg | hg
    · exact ⟨g, hg, hid, hx⟩
    · obtain rfl := List.mem_singleton.mp hg
      rw [Group.side] at hx
      split at hx <;> exact absurd hx (Finset.notMem_empty x)
  · rintro ⟨g, hg, hid, hx⟩
    exact ⟨g, List.mem_append_left _ hg, hid, hx⟩

theorem hasAccess_addInstruction {isWrite w : Bool} {sourceLoc x : Text} {groups : List Group} {key o : Int} :
    HasAccess (addInstruction isWrite sourceLoc groups key) w o x ↔
      HasAccess groups w o x ∨ key ≠ 1 ∧ o = key ∧ w = isWrite ∧ x = sourceLoc := by
  by_cases hone : key = 1
  · rw [addInstruction, if_pos hone]
    simp [hone]
  · rw [addInstruction_eq hone, and_iff_right hone]
    by_cases hold : (groups.any fun g => g.id = key) = true
    · obtain ⟨g, hg, hid⟩ := List.any_eq_true.mp hold
      rw [if_pos hold]
      exact hasAccess_map_addLoc ⟨g, hg, of_decide_eq_true hid⟩
    · have hkey : ∃ g ∈ groups ++ [⟨key, ∅, ∅, ∅⟩], g.id = key :=
        ⟨_, List.mem_append_right _ List.mem_cons_self, rfl⟩
      rw [if_neg hold, hasAccess_map_addLoc hkey, hasAccess_concat]

theorem addAccesses_spec {order : ObjectOrder} {insn : Instruction} {sourceLoc : Text} {groups : List Group}
    (h : (groups.map Group.id).Nodup) :
    ((addAccesses order insn sourceLoc groups).map Group.id).Nodup ∧
      ∀ w o x, o ≠ 1 → (HasAccess (addAccesses order insn sourceLoc groups) w o x ↔
        HasAccess groups w o x ∨ x = sourceLoc ∧ o ∈ insn.side w) := by
  have hfold : ∀ (isWrite : Bool) (l : List Int) (groups : List Group), (groups.map Group.id).Nodup →
      ((l.foldl (addInstruction isWrite sourceLoc) groups).map Group.id).Nodup ∧
      ∀ w o x, o ≠ 1 → (HasAccess (l.foldl (addInstruction isWrite sourceLoc) groups) w o x ↔
        HasAccess groups w o x ∨ w = isWrite ∧ x = sourceLoc ∧ o ∈ l) := by
    intro isWrite l
    induction l with
    | nil => exact fun groups h => ⟨h, fun w o x _ => by simp⟩
    | cons key l ih =>
      intro groups h
      obtain ⟨hids, hmem⟩ := ih _ (addInstruction_ids key h)
      refine ⟨hids, fun w o x ho => ?_⟩
      rw [List.foldl_cons, hmem w o x ho, hasAccess_addInstruction, List.mem_cons]
      grind
  obtain ⟨hids, hmem⟩ := hfold true (order.elems insn.storeTo) groups h
  obtain ⟨hids', hmem'⟩ := hfold false (order.elems insn.loadFrom) _ hids
  refine ⟨hids', fun w o x ho => ?_⟩
  rw [addAccesses, hmem' w o x ho, hmem w o x ho, order.mem_elems, order.mem_elems, Instruction.side]
  cases w <;> simp

namespace DumpItem

/-- A block whose location is not passed over. -/
def isKept : DumpItem → Bool
  | .block _ loc typ => !isSkipped (locationLine loc typ)
  | _ => false

/-- The location line, or the line between blocks, looks like an access. -/
def looksLikeAccess : DumpItem → Bool
  | .blank _ _ => false
  | .function name _ => contains (functionLine name) "LDMU" || contains (functionLine name) "STCHI"
  | .block _ loc typ => !isSkipped (locationLine loc typ) &&
      (contains (locationLine loc typ) "LDMU" || contains (locationLine loc typ) "STCHI")

def sourceLoc (aset : Bool) : DumpItem → Option Text
  | .block _ loc typ => sourceLocOf aset (locationLine loc typ)
  | _ => none

/-- The object is in an `STCHI` line (in an `LDMU` line) of the block. -/
def Accesses (isWrite : Bool) (o : Int) : DumpItem → Prop
  | .block accesses _ _ => ∃ a ∈ accesses, a.isWrite = isWrite ∧ o ∈ a.pts
  | _ => False

end DumpItem

/-- A skipped block has accessed the object, and no block since was kept. -/
def Pending (done : List DumpItem) (isWrite : Bool) (o : Int) : Prop :=
  ∃ pre b mid, done = pre ++ b :: mid ∧ (∀ item ∈ b :: mid, item.isKept = false) ∧ b.Accesses isWrite o

/-- A kept block gives its location to what it accesses and to what is pending before it. -/
def Recorded (aset : Bool) (done : List DumpItem) (isWrite : Bool) (o : Int) (x : Text) : Prop :=
  ∃ pre b post, done = pre ++ b :: post ∧ b.isKept = true ∧ b.sourceLoc aset = some x ∧
    (b.Accesses isWrite o ∨ Pending pre isWrite o)

theorem pending_concat {done : List DumpItem} {item : DumpItem} {w : Bool} {o : Int} :
    Pending (done ++ [item]) w o ↔ item.isKept = false ∧ (Pending done w o ∨ item.Accesses w o) := by
  constructor
  · rintro ⟨pre, b, mid, hsplit, hskipped, haccess⟩
    rcases List.eq_nil_or_concat' mid with rfl | ⟨mid, last, rfl⟩
    · obtain ⟨rfl, heq⟩ := List.append_inj' hsplit rfl
      obtain rfl := List.head_eq_of_cons_eq heq
      exact ⟨hskipped item List.mem_cons_self, Or.inr haccess⟩
    · have hconcat : done ++ [item] = (pre ++ b :: mid) ++ [last] := by
        rw [hsplit, List.append_assoc]
        rfl
      obtain ⟨rfl, heq⟩ := List.append_inj' hconcat rfl
      obtain rfl := List.head_eq_of_cons_eq heq
      refine ⟨hskipped item (by simp), Or.inl ⟨pre, b, mid, rfl, fun c hc => hskipped c ?_, haccess⟩⟩
      exact List.mem_append_left [item] hc
  · rintro ⟨hkept, ⟨pre, b, mid, rfl, hskipped, haccess⟩ | haccess⟩
    · refine ⟨pre, b, mid ++ [item], by rw [List.append_assoc]; rfl, fun c hc => ?_, haccess⟩
      rcases List.mem_append.mp (show c ∈ (b :: mid) ++ [item] from hc) with hc | hc
      · exact hskipped c hc
      · rwa [List.mem_singleton.mp hc]
    · exact ⟨done, item, [], rfl, fun c hc => by rwa [List.mem_singleton.mp hc], haccess⟩

theorem recorded_concat {aset : Bool} {done : List DumpItem} {item : DumpItem} {w : Bool} {o : Int} {x : Text} :
    Recorded aset (done ++ [item]) w o x ↔ Recorded aset done w o x ∨
      item.isKept = true ∧ item.sourceLoc aset = some x ∧ (item.Accesses w o ∨ Pending done w o) := by
  constructor
  · rintro ⟨pre, b, post, hsplit, hrest⟩
    rcases List.eq_nil_or_concat' post with rfl | ⟨post, last, rfl⟩
    · obtain ⟨rfl, heq⟩ := List.append_inj' hsplit rfl
      obtain rfl := List.head_eq_of_cons_eq heq
      exact Or.inr hrest
    · have hconcat : done ++ [item] = (pre ++ b :: post) ++ [last] := by
        rw [hsplit, List.append_assoc]
        rfl
      obtain ⟨rfl, _⟩ := List.append_inj' hconcat rfl
      exact Or.inl ⟨pre, b, post, rfl, hrest⟩
  · rintro (⟨pre, b, post, rfl, hrest⟩ | hrest)
    · exact ⟨pre, b, post ++ [item], by rw [List.append_assoc]; rfl, hrest⟩
    · exact ⟨done, item, [], rfl, hrest⟩

/-! ## The run -/

section Run
variable {aset : Bool} {order : ObjectOrder}

theorem side_add (insn : Instruction) (a : Access) (w : Bool) (o : Int) :
    o ∈ (insn.add a).side w ↔ o ∈ insn.side w ∨ a.isWrite = w ∧ o ∈ a.pts := by
  rw [Instruction.add]
  cases a.isWrite <;> cases w <;> simp [Instruction.side]

theorem foldlM_access (accesses : List Access) (s : Reading) :
    ∃ s', (accesses.map Access.line).foldlM (readLine aset order) s = some s' ∧
      s'.memoryLocations = s.memoryLocations ∧ ∀ w o, o ∈ s'.current.side w ↔
        o ∈ s.current.side w ∨ ∃ a ∈ accesses, a.isWrite = w ∧ o ∈ a.pts := by
  induction accesses generalizing s with
  | nil => exact ⟨s, rfl, rfl, by simp⟩
  | cons a accesses ih =>
    obtain ⟨s', hrun, hgroups, hside⟩ := ih { s with reset := false, insn := s.current.add a }
    refine ⟨s', ?_, hgroups, fun w o => ?_⟩
    · rw [List.map_cons, List.foldlM_cons, readLine_access]
      exact hrun
    · have hcurrent : Reading.current { s with reset := false, insn := s.current.add a } = s.current.add a := rfl
      rw [hside, hcurrent, side_add]
      simp only [List.mem_cons, exists_eq_or_imp, or_assoc]

/-- What the reader knows after a part of the dump. -/
structure Read (aset : Bool) (done : List DumpItem) (s : Reading) : Prop where
  ids : (s.memoryLocations.map Group.id).Nodup
  side : ∀ w o, o ∈ s.current.side w ↔ Pending done w o
  recorded : ∀ w o x, o ≠ 1 → (HasAccess s.memoryLocations w o x ↔ Recorded aset done w o x)

theorem read_item {done : List DumpItem} {s : Reading} (h : Read aset done s) {item : DumpItem}
    (hitem : item.looksLikeAccess = false) :
    ∃ s', item.lines.foldlM (readLine aset order) s = some s' ∧ Read aset (done ++ [item]) s' := by
  -- an item that is no kept block adds to what is pending only
  have hkeep : item.isKept = false → ∀ s' : Reading, s'.memoryLocations = s.memoryLocations →
      (∀ w o, o ∈ s'.current.side w ↔ o ∈ s.current.side w ∨ item.Accesses w o) →
      Read aset (done ++ [item]) s' := by
    intro hkept s' hgroups hside
    refine ⟨hgroups ▸ h.ids, fun w o => ?_, fun w o x ho => ?_⟩
    · rw [hside, h.side, pending_concat]
      simp [hkept]
    · rw [hgroups, h.recorded w o x ho, recorded_concat]
      simp [hkept]
  cases item with
  | blank text white =>
    refine ⟨s, ?_, hkeep rfl s rfl fun w o => by simp [DumpItem.Accesses]⟩
    rw [DumpItem.lines, List.foldlM_cons, readLine_blank white]
    rfl
  | function name plain =>
    rw [DumpItem.looksLikeAccess] at hitem
    refine ⟨{ s with reset := false, insn := s.current }, ?_, hkeep rfl _ rfl fun w o => ?_⟩
    · rw [DumpItem.lines, List.foldlM_cons, readLine_function plain, hitem]
      rfl
    · have hcurrent : Reading.current { s with reset := false, insn := s.current } = s.current := rfl
      simp [hcurrent, DumpItem.Accesses]
  | block accesses loc typ =>
    obtain ⟨s', hrun, hgroups, hside⟩ := @foldlM_access aset order accesses s
    rw [DumpItem.lines, List.foldlM_append, hrun]
    cases hkept : isSkipped (locationLine loc typ) with
    | true =>
      refine ⟨s', ?_, hkeep (by rw [DumpItem.isKept, hkept]; rfl) s' hgroups hside⟩
      have hline : readLine aset order s' (locationLine loc typ) = some s' := by rw [readLine, hkept]; rfl
      simp only [Option.bind_eq_bind, Option.bind_some, List.foldlM_cons, hline]
      rfl
    | false =>
      rw [DumpItem.looksLikeAccess, hkept, Bool.not_false, Bool.true_and, Bool.or_eq_false_iff] at hitem
      obtain ⟨x, hx⟩ := exists_sourceLocOf aset loc typ
      have hline := @readLine_location aset order s' loc typ x hkept hitem.1 hitem.2 hx
      have hblock : (DumpItem.block accesses loc typ).isKept = true := by rw [DumpItem.isKept, hkept]; rfl
      refine ⟨_, by simp only [Option.bind_eq_bind, Option.bind_some, List.foldlM_cons, hline]; rfl, ?_⟩
      obtain ⟨hids, hmem⟩ := @addAccesses_spec order s'.current x s'.memoryLocations (hgroups ▸ h.ids)
      refine ⟨hids, fun w o => ?_, fun w o y ho => ?_⟩
      · have hcurrent : Reading.current ⟨addAccesses order s'.current x s'.memoryLocations, true, s'.current⟩ =
            Instruction.new := rfl
        rw [hcurrent, pending_concat, hblock]
        cases w <;> simp [Instruction.side, Instruction.new]
      · rw [hmem w o y ho, hgroups, h.recorded w o y ho, recorded_concat, hside, h.side]
        have hloc : (DumpItem.block accesses loc typ).sourceLoc aset = some x := hx
        have haccess : (DumpItem.block accesses loc typ).Accesses w o ↔
          ∃ a ∈ accesses, a.isWrite = w ∧ o ∈ a.pts := Iff.rfl
        rw [hloc, hblock, Option.some.injEq, haccess, or_comm (a := Pending done w o), eq_comm (a := y)]
        simp only [true_and]

theorem read_dump {dump : List DumpItem} (h : ∀ item ∈ dump, item.looksLikeAccess = false) :
    ∃ groups, getAliasedInfo aset order (dumpLines dump) = some groups ∧ (groups.map Group.id).Nodup ∧
      ∀ w o x, o ≠ 1 → (HasAccess groups w o x ↔ Recorded aset dump w o x) := by
  have hrun : ∀ (rest done : List DumpItem) (s : Reading), Read aset done s →
      (∀ item ∈ rest, item.looksLikeAccess = false) →
      ∃ s', (dumpLines rest).foldlM (readLine aset order) s = some s' ∧ Read aset (done ++ rest) s' := by
    intro rest
    induction rest with
    | nil => exact fun done s hs _ => ⟨s, rfl, by rwa [List.append_nil]⟩
    | cons item rest ih =>
      intro done s hs hrest
      obtain ⟨mid, hmid, hread⟩ := @read_item aset order done s hs item (hrest item List.mem_cons_self)
      obtain ⟨s', hs', hread'⟩ := ih (done ++ [item]) mid hread fun i hi => hrest i (List.mem_cons_of_mem _ hi)
      refine ⟨s', ?_, ?_⟩
      · rw [dumpLines, List.flatMap_cons, List.foldlM_append, hmid]
        exact hs'
      · rw [List.append_assoc] at hread'
        exact hread'
  have hstart : Read aset [] { memoryLocations := [], reset := true, insn := Instruction.new } := by
    refine ⟨List.nodup_nil, fun w o => ?_, fun w o x _ => ?_⟩
    · refine iff_of_false ?_ ?_
      · cases w <;> exact Finset.notMem_empty o
      · rintro ⟨pre, b, mid, hsplit, _⟩
        simp at hsplit
    · refine iff_of_false ?_ ?_
      · rintro ⟨g, hg, _⟩
        exact absurd hg List.not_mem_nil
      · rintro ⟨pre, b, post, hsplit, _⟩
        simp at hsplit
  obtain ⟨s, hs, hread⟩ := hrun dump [] _ hstart h
  rw [List.nil_append] at hread
  refine ⟨s.memoryLocations, ?_, hread.ids, hread.recorded⟩
  rw [getAliasedInfo, hs]
  rfl

theorem read_dump_none {dump : List DumpItem} {item : DumpItem} (hitem : item ∈ dump)
    (h : item.looksLikeAccess = true) : getAliasedInfo aset order (dumpLines dump) = none := by
  have hfails : ∀ s : Reading, item.lines.foldlM (readLine aset order) s = none := by
    intro s
    cases item with
    | blank text white => cases h
    | function name plain =>
      rw [DumpItem.looksLikeAccess] at h
      rw [DumpItem.lines, List.foldlM_cons, readLine_function plain, h]
      rfl
    | block accesses loc typ =>
      rw [DumpItem.looksLikeAccess, Bool.and_eq_true, Bool.not_eq_true', Bool.or_eq_true] at h
      obtain ⟨s', hrun, _⟩ := @foldlM_access aset order accesses s
      rw [DumpItem.lines, List.foldlM_append, hrun]
      simp only [Option.bind_eq_bind, Option.bind_some, List.foldlM_cons, readLine_location_none h.1 h.2]
      rfl
  have hrun : ∀ s : Reading, (dumpLines dump).foldlM (readLine aset order) s = none := by
    induction dump with
    | nil => exact absurd hitem List.not_mem_nil
    | cons first rest ih =>
      intro s
      rw [dumpLines, List.flatMap_cons, List.foldlM_append]
      rcases List.mem_cons.mp hitem with rfl | hitem
      · rw [hfails]
        rfl
      · cases first.lines.foldlM (readLine aset order) s with
        | none => rfl
        | some s' => exact ih hitem s'
  rw [getAliasedInfo, hrun]
  rfl

end Run

/-- The script returns, and the groups have exactly the locations of the kept blocks that access
the object. -/
def GroupsExact (aset : Bool) (order : ObjectOrder) (dump : List DumpItem) : Prop :=
  ∃ groups, getAliasedInfo aset order (dumpLines dump) = some groups ∧ (groups.map Group.id).Nodup ∧
    ∀ isWrite o, o ≠ 1 → ∀ x, HasAccess groups isWrite o x ↔
      ∃ b ∈ dump, b.isKept = true ∧ b.Accesses isWrite o ∧ b.sourceLoc aset = some x

/-- The groups are exact exactly when no line between looks like an access, and what skipped blocks
access before a kept block is also accessed by a kept block at its location. -/
theorem groupsExact_iff (aset : Bool) (order : ObjectOrder) (dump : List DumpItem) :
    GroupsExact aset order dump ↔ (∀ item ∈ dump, item.looksLikeAccess = false) ∧
      ∀ pre b post, dump = pre ++ b :: post → b.isKept = true → ∀ isWrite o, o ≠ 1 →
        Pending pre isWrite o →
        ∃ b' ∈ dump, b'.isKept = true ∧ b'.Accesses isWrite o ∧ b'.sourceLoc aset = b.sourceLoc aset := by
  by_cases hlines : ∀ item ∈ dump, item.looksLikeAccess = false
  · obtain ⟨groups, hrun, hids, hrecorded⟩ := @read_dump aset order dump hlines
    constructor
    · rintro ⟨groups', hrun', _, hexact⟩
      obtain rfl : groups = groups' := Option.some.inj (hrun.symm.trans hrun')
      refine ⟨hlines, fun pre b post hsplit hkept w o ho hpending => ?_⟩
      obtain ⟨x, hx⟩ : ∃ x, b.sourceLoc aset = some x := by
        cases b with
        | block accesses loc typ => exact exists_sourceLocOf aset loc typ
        | blank text white => cases hkept
        | function name plain => cases hkept
      have hrec : Recorded aset dump w o x := ⟨pre, b, post, hsplit, hkept, hx, Or.inr hpending⟩
      obtain ⟨b', hb', hkept', haccess, hx'⟩ := (hexact w o ho x).mp ((hrecorded w o x ho).mpr hrec)
      exact ⟨b', hb', hkept', haccess, hx'.trans hx.symm⟩
    · rintro ⟨_, hmakeUp⟩
      refine ⟨groups, hrun, hids, fun w o ho x => ?_⟩
      rw [hrecorded w o x ho]
      constructor
      · rintro ⟨pre, b, post, hsplit, hkept, hx, haccess | hpending⟩
        · exact ⟨b, by simp [hsplit], hkept, haccess, hx⟩
        · obtain ⟨b', hb', hkept', haccess, hx'⟩ := hmakeUp pre b post hsplit hkept w o ho hpending
          exact ⟨b', hb', hkept', haccess, hx'.trans hx⟩
      · rintro ⟨b, hb, hkept, haccess, hx⟩
        obtain ⟨pre, post, hsplit⟩ := List.append_of_mem hb
        exact ⟨pre, b, post, hsplit, hkept, hx, Or.inl haccess⟩
  · refine iff_of_false ?_ fun h => hlines h.1
    rintro ⟨groups, hrun, _⟩
    simp only [not_forall, Bool.not_eq_false] at hlines
    obtain ⟨item, hitem, hlooks⟩ := hlines
    rw [read_dump_none hitem hlooks] at hrun
    cases hrun

def inlinedStore : DumpItem :=
  .block [⟨true, 6, 2, 1, [116]⟩] "./v.h:4:2 @[ ./a.c:8:5 ]".toList "i32".toList

def nextLoad : DumpItem := .block [⟨false, 4, 0, 1, [20]⟩] "./a.c:9:7".toList "i8*".toList

/-- The store is recorded at the location of the load. -/
theorem inlined_store_carried : ¬ ∀ (aset : Bool) (order : ObjectOrder) (dump : List DumpItem),
    GroupsExact aset order dump := by
  intro h
  have hlines : ∀ item ∈ [inlinedStore, nextLoad], item.looksLikeAccess = false := by decide
  have hkept : nextLoad.isKept = true := by decide
  have hskipped : inlinedStore.isKept = false := by decide
  have hloc : nextLoad.sourceLoc false = some "a.c:9".toList := by decide
  have hstore : inlinedStore.Accesses true 116 := ⟨_, List.mem_cons_self, rfl, List.mem_cons_self⟩
  obtain ⟨groups, hrun, _, hexact⟩ := h false ObjectOrder.sorted [inlinedStore, nextLoad]
  obtain ⟨groups', hrun', _, hrecorded⟩ := @read_dump false ObjectOrder.sorted _ hlines
  obtain rfl : groups = groups' := Option.some.inj (hrun.symm.trans hrun')
  have hpending : Pending [inlinedStore] true 116 :=
    ⟨[], inlinedStore, [], rfl, fun item hitem => by rwa [List.mem_singleton.mp hitem], hstore⟩
  have hrec : Recorded false [inlinedStore, nextLoad] true 116 "a.c:9".toList :=
    ⟨[inlinedStore], nextLoad, [], rfl, hkept, hloc, Or.inr hpending⟩
  obtain ⟨b, hb, hb', haccess, _⟩ :=
    (hexact true 116 (by decide) _).mp ((hrecorded true 116 _ (by decide)).mpr hrec)
  rcases List.mem_cons.mp hb with rfl | hb
  · rw [hskipped] at hb'
    cases hb'
  · obtain rfl := List.mem_singleton.mp hb
    obtain ⟨a, ha, hwrite, _⟩ := haccess
    obtain rfl := List.mem_singleton.mp ha
    cases hwrite

end Period.Analysis
