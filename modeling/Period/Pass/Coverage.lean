import Period.Foundation.Marking
import Period.Foundation.Splitting
import Period.Pass.Instrument

/-!
# Coverage of listed locations

A listed location that stands first in a block and was the last one in layout order gets no
call there. It is covered when every path to the block comes from the same location.
-/

namespace Period.Pass

open Marking Splitting
set_option autoImplicit false

def listed (conLines : List Text) (sourceLoc : Text) : Bool :=
  decide (colon ∈ sourceLoc) && inConLines conLines sourceLoc

def Func.codes (f : Func) (onlyPthreadCreate : Bool) : List (List Item) :=
  f.withEntryCalls.map (visited onlyPthreadCreate)

def Func.code (f : Func) (onlyPthreadCreate : Bool) (b : Nat) : List Item :=
  (f.codes onlyPthreadCreate).getD b []

/-- The instructions executed on a path after the pass. -/
def Func.execution (f : Func) (conLines : List Text) (onlyPthreadCreate : Bool) (p : List Nat) :
    List Item :=
  p.flatMap fun b => (f.instrumented conLines onlyPthreadCreate).getD b []

def Func.Edge (f : Func) (a b : Nat) : Prop := ∃ block, f.blocks[a]? = some block ∧ b ∈ block.succs

/-- A call with the hash of the location has been passed, and no other location since. -/
def CallPassed (sourceLoc : Text) (pre : List Item) : Prop :=
  ∃ a dbg b, pre = a ++ .inserted (.instrLOCString (locHash sourceLoc)) dbg :: b ∧
    ∀ y ∈ b, getSourceLoc y = [] ∨ getSourceLoc y = sourceLoc

/-- On every path each listed instruction has its call. -/
def CoversListed (f : Func) (conLines : List Text) (onlyPthreadCreate : Bool) : Prop :=
  ∀ b p, PathTo f.Edge 0 b p → ∀ pre i post,
    f.execution conLines onlyPthreadCreate (p ++ [b]) = pre ++ .original i :: post →
    listed conLines (getSourceLoc (.original i)) = true → CallPassed (getSourceLoc (.original i)) pre

/-- The last location that is not skipped, empty or not. -/
def lastLoc (t : Text) (xs : List Item) : Text :=
  xs.foldl (fun t x => if tracked x then getSourceLoc x else t) t

/-- The last location that is neither skipped nor empty. -/
def lastNonEmptyLoc (xs : List Item) : Text :=
  xs.foldl (fun t x => if tracked x ∧ getSourceLoc x ≠ [] then getSourceLoc x else t) []

/-- `LastLocString` at the start of block `b`: the location before it in layout order. -/
def Func.carried (f : Func) (onlyPthreadCreate : Bool) (b : Nat) : Text :=
  lastLoc [] ((f.codes onlyPthreadCreate).take b).flatten

/-- A block whose first instruction has the listed location that comes right before it in layout
order is only reached from that location. -/
def HeadsReached (f : Func) (conLines : List Text) (onlyPthreadCreate : Bool) : Prop :=
  ∀ b block i, f.blocks[b]? = some block → block.instrs.head? = some i →
    f.carried onlyPthreadCreate b = getSourceLoc (.original i) →
    listed conLines (getSourceLoc (.original i)) = true →
    ∀ p, PathTo f.Edge 0 b p →
      lastNonEmptyLoc (p.flatMap (f.code onlyPthreadCreate)) = getSourceLoc (.original i)

def label (x : Item) : Option Text := if getSourceLoc x = [] then none else some (getSourceLoc x)

def toLabel (t : Text) : Option Text := if t = [] then none else some t

section Loop
variable {conLines : List Text} {onlyPthreadCreate : Bool}

/-- An instruction with its calls; the mark says whether `instr_LOC_string` is called. -/
def emit (onlyPthreadCreate : Bool) (g : Item × Bool) : List Item :=
  callsBefore onlyPthreadCreate g.1 ++
    ((if g.2 then [.inserted (.instrLOCString (locHash (getSourceLoc g.1))) g.1.dbg] else []) ++ [g.1])

def groups (conLines : List Text) : Text → List Item → List (Item × Bool)
  | _, [] => []
  | last, x :: xs =>
    (x, marked (listed conLines) (toLabel last) (label x)) :: groups conLines (getSourceLoc x) xs

def labelOf (g : Item × Bool) : Option Text × Bool := (label g.1, g.2)

theorem label_eq_some {x : Item} {t : Text} (h : label x = some t) : getSourceLoc x = t ∧ t ≠ [] := by
  unfold label at h
  split at h
  · cases h
  · next hne =>
    obtain rfl := Option.some.inj h
    exact ⟨rfl, hne⟩

theorem toLabel_eq_some {t u : Text} (h : toLabel t = some u) : t = u := by
  unfold toLabel at h
  split at h
  · cases h
  · exact Option.some.inj h

theorem label_of_listed {x : Item} (h : listed conLines (getSourceLoc x) = true) :
    label x = some (getSourceLoc x) := by
  unfold label
  rw [if_neg]
  intro hnil
  rw [hnil] at h
  cases h

theorem visit_snd (last : Text) (x : Item) : (visit conLines onlyPthreadCreate last x).2 =
    if tracked x then getSourceLoc x else last := by
  unfold visit
  cases htracked : tracked x with
  | false => rfl
  | true =>
    rw [if_neg Bool.noConfusion, if_pos rfl]
    split
    · next heq => exact heq
    · repeat' split
      all_goals rfl

theorem visit_fst (last : Text) {x : Item} (hx : tracked x = true) :
    (visit conLines onlyPthreadCreate last x).1 = callsBefore onlyPthreadCreate x ++
      if marked (listed conLines) (toLabel last) (label x) then
        [.inserted (.instrLOCString (locHash (getSourceLoc x))) x.dbg] else [] := by
  unfold visit
  rw [if_neg (by rw [hx]; exact Bool.noConfusion)]
  by_cases hnil : getSourceLoc x = []
  · have hlabel : label x = none := if_pos hnil
    rw [hlabel, hnil]
    split <;> simp [marked]
  · have hlabel : label x = some (getSourceLoc x) := if_neg hnil
    have hlast : toLabel last = some (getSourceLoc x) ↔ last = getSourceLoc x := by
      unfold toLabel
      split
      · next h =>
        rw [h]
        exact ⟨(fun h' => by cases h'), fun h' => absurd h'.symm hnil⟩
      · exact Option.some_inj
    have hmark : marked (listed conLines) (toLabel last) (some (getSourceLoc x)) =
        (decide (last ≠ getSourceLoc x) && listed conLines (getSourceLoc x)) := by
      have hnew : decide (toLabel last ≠ some (getSourceLoc x)) = decide (last ≠ getSourceLoc x) :=
        decide_eq_decide.mpr (not_congr hlast)
      rw [← hnew, marked]
    rw [hlabel, hmark, if_neg hnil]
    unfold listed
    by_cases hsame : last = getSourceLoc x
    · simp [hsame]
    · by_cases hcolon : colon ∈ getSourceLoc x
      · by_cases hin : inConLines conLines (getSourceLoc x) = true <;> simp [hsame, hcolon, hin]
      · simp [hsame, hcolon]

theorem runOnBlock_snd (last : Text) (xs : List Item) :
    (runOnBlock conLines onlyPthreadCreate last xs).2 = lastLoc last xs := by
  induction xs generalizing last with
  | nil => rfl
  | cons x xs ih =>
    rw [runOnBlock, ih, visit_snd]
    rfl

theorem runOnBlock_tracked (last : Text) {xs : List Item} (h : ∀ x ∈ xs, tracked x = true) :
    (runOnBlock conLines onlyPthreadCreate last xs).1 =
      (groups conLines last xs).flatMap (emit onlyPthreadCreate) := by
  induction xs generalizing last with
  | nil => rfl
  | cons x xs ih =>
    have hx := h x List.mem_cons_self
    have ih := ih (getSourceLoc x) fun y hy => h y (List.mem_cons_of_mem x hy)
    rw [runOnBlock, visit_snd, if_pos hx, visit_fst last hx, ih, groups, List.flatMap_cons, emit]
    simp only [List.append_assoc, List.singleton_append]

theorem runOnBlock_untracked (last : Text) {own xs : List Item}
    (h : ∀ x ∈ own, tracked x = false) :
    (runOnBlock conLines onlyPthreadCreate last (own ++ xs)).1 =
      own ++ (runOnBlock conLines onlyPthreadCreate last xs).1 := by
  induction own with
  | nil => rfl
  | cons x own ih =>
    have hx := h x List.mem_cons_self
    have hvisit : visit conLines onlyPthreadCreate last x = ([], last) := by
      unfold visit
      rw [if_pos hx]
      match x, hx with
      | .inserted .instrCall _, _ => rfl
      | .inserted .instrPthreadCall _, _ => rfl
    rw [List.cons_append, runOnBlock, hvisit, ih fun y hy => h y (List.mem_cons_of_mem x hy)]
    rfl

theorem runOnBlocks_getElem? (last : Text) (blocks : List (List Item)) (b : Nat) :
    (runOnBlocks conLines onlyPthreadCreate last blocks)[b]? =
      blocks[b]?.map fun block => (runOnBlock conLines onlyPthreadCreate
        (lastLoc last ((blocks.map (visited onlyPthreadCreate)).take b).flatten)
        (visited onlyPthreadCreate block)).1 := by
  induction blocks generalizing last b with
  | nil => rfl
  | cons block blocks ih =>
    cases b with
    | zero => rfl
    | succ b =>
      rw [runOnBlocks, List.getElem?_cons_succ, List.getElem?_cons_succ, ih, runOnBlock_snd,
        List.map_cons, List.take_succ_cons, List.flatten_cons]
      unfold lastLoc
      rw [List.foldl_append]

end Loop

/-! ## Paths -/

/-- The calls at the entry that the loop passes over. -/
def Func.own (f : Func) (onlyPthreadCreate : Bool) (b : Nat) : List Item :=
  (f.code onlyPthreadCreate b).filter fun x => !tracked x

def Func.body (f : Func) (onlyPthreadCreate : Bool) (b : Nat) : List Item :=
  (f.code onlyPthreadCreate b).filter tracked

section Func
variable (f : Func) (conLines : List Text) (onlyPthreadCreate : Bool)

theorem visited_tracked (instrs : List Instr) :
    ∀ x ∈ visited onlyPthreadCreate (instrs.map .original), tracked x = true := by
  induction instrs with
  | nil => exact fun x hx => absurd hx List.not_mem_nil
  | cons i instrs ih =>
    intro x hx
    rw [List.map_cons, visited, List.cons_append, List.mem_cons, List.mem_append] at hx
    rcases hx with rfl | hx | hx
    · rfl
    · unfold callsBehind at hx
      split at hx
      · split at hx
        · rw [List.mem_singleton.mp hx]
          rfl
        · cases hx
      · split at hx
        · cases hx
        · rw [List.mem_singleton.mp hx]
          rfl
      · rw [List.mem_singleton.mp hx]
        rfl
      · cases hx
    · exact ih x hx

theorem filter_split (own : List Item) {xs : List Item} (hown : ∀ x ∈ own, tracked x = false)
    (hxs : ∀ x ∈ xs, tracked x = true) :
    (own ++ xs).filter (fun x => !tracked x) = own ∧ (own ++ xs).filter tracked = xs := by
  constructor
  · rw [List.filter_append, List.filter_eq_self.mpr, List.filter_eq_nil_iff.mpr, List.append_nil]
    · intro x hx
      rw [hxs x hx]
      exact Bool.noConfusion
    · intro x hx
      rw [hown x hx]
      rfl
  · rw [List.filter_append, List.filter_eq_self.mpr hxs, List.filter_eq_nil_iff.mpr, List.nil_append]
    intro x hx
    rw [hown x hx]
    exact Bool.noConfusion

theorem code_zero : ∃ own xs, f.code onlyPthreadCreate 0 = own ++ xs ∧
    (∀ x ∈ own, tracked x = false) ∧ ∀ x ∈ xs, tracked x = true := by
  unfold Func.code Func.codes Func.withEntryCalls
  cases f.blocks with
  | nil => exact ⟨[], [], rfl, fun x hx => absurd hx List.not_mem_nil, fun x hx => absurd hx List.not_mem_nil⟩
  | cons entry rest =>
    have hbody := visited_tracked onlyPthreadCreate entry.instrs
    dsimp only [List.map_cons, List.getD_cons_zero]
    generalize (entry.instrs.head?.map Instr.dbg).getD [] = dbg
    unfold Func.entryCalls
    split
    · refine ⟨[.inserted .instrCall dbg], .inserted .instrLOC dbg :: visited onlyPthreadCreate _, rfl,
        by simp [tracked], fun x hx => ?_⟩
      rcases List.mem_cons.mp hx with rfl | hx
      · rfl
      · exact hbody x hx
    · split
      · exact ⟨[.inserted .instrCall dbg, .inserted .instrPthreadCall dbg], _, rfl,
          by simp [tracked], hbody⟩
      · exact ⟨[.inserted .instrCall dbg], _, rfl, by simp [tracked], hbody⟩

theorem code_succ (b : Nat) : f.code onlyPthreadCreate (b + 1) =
    visited onlyPthreadCreate
      (((f.blocks[b + 1]?).map Block.instrs).getD [] |>.map .original) := by
  unfold Func.code Func.codes Func.withEntryCalls
  cases f.blocks with
  | nil => rfl
  | cons entry rest =>
    rw [List.getD_eq_getElem?_getD, List.map_cons, List.getElem?_cons_succ, List.getElem?_cons_succ,
      List.map_map, List.getElem?_map]
    cases rest[b]? <;> rfl

theorem code_eq (b : Nat) : f.code onlyPthreadCreate b =
    f.own onlyPthreadCreate b ++ f.body onlyPthreadCreate b := by
  unfold Func.own Func.body
  cases b with
  | zero =>
    obtain ⟨own, xs, heq, hown, hxs⟩ := code_zero f onlyPthreadCreate
    rw [heq, (filter_split own hown hxs).1, (filter_split own hown hxs).2]
  | succ b =>
    have hxs := visited_tracked onlyPthreadCreate (((f.blocks[b + 1]?).map Block.instrs).getD [])
    have hsplit := filter_split [] (fun x hx => absurd hx List.not_mem_nil) hxs
    rw [List.nil_append] at hsplit
    rw [code_succ, hsplit.1, hsplit.2, List.nil_append]

theorem own_succ (b : Nat) : f.own onlyPthreadCreate (b + 1) = [] := by
  have hxs := visited_tracked onlyPthreadCreate (((f.blocks[b + 1]?).map Block.instrs).getD [])
  have hsplit := filter_split [] (fun x hx => absurd hx List.not_mem_nil) hxs
  unfold Func.own
  rw [code_succ]
  exact hsplit.1

theorem instrumented_getD (b : Nat) : (f.instrumented conLines onlyPthreadCreate).getD b [] =
    f.own onlyPthreadCreate b ++ (groups conLines (f.carried onlyPthreadCreate b)
      (f.body onlyPthreadCreate b)).flatMap (emit onlyPthreadCreate) := by
  have hown : ∀ x ∈ f.own onlyPthreadCreate b, tracked x = false := by
    intro x hx
    have := (List.mem_filter.mp hx).2
    rwa [Bool.not_eq_true'] at this
  have hbody : ∀ x ∈ f.body onlyPthreadCreate b, tracked x = true :=
    fun x hx => (List.mem_filter.mp hx).2
  rw [← runOnBlock_tracked _ hbody, ← runOnBlock_untracked _ hown, ← code_eq]
  unfold Func.instrumented Func.carried Func.code
  rw [List.getD_eq_getElem?_getD, runOnBlocks_getElem?, List.getD_eq_getElem?_getD, Func.codes,
    List.getElem?_map]
  cases f.withEntryCalls[b]? <;> rfl

def Func.pathGroups (p : List Nat) : List (Item × Bool) :=
  p.flatMap fun b => groups conLines (f.carried onlyPthreadCreate b) (f.body onlyPthreadCreate b)

theorem path_from_entry {b : Nat} {p : List Nat} (hp : PathTo f.Edge 0 b p) :
    ∃ q, p ++ [b] = 0 :: q ∧ ∀ a ∈ q, a ≠ 0 := by
  induction hp with
  | entry => exact ⟨[], rfl, fun a ha => absurd ha List.not_mem_nil⟩
  | @edge c b p _ he ih =>
    obtain ⟨q, hq, hne⟩ := ih
    obtain ⟨block, hblock, hb⟩ := he
    refine ⟨q ++ [b], by rw [hq, List.cons_append], fun a ha => ?_⟩
    rcases List.mem_append.mp ha with ha | ha
    · exact hne a ha
    · rw [List.mem_singleton.mp ha]
      intro hzero
      exact f.entry_no_pred block (List.mem_of_getElem? hblock) (hzero ▸ hb)

theorem execution_eq {q : List Nat} (hq : ∀ a ∈ q, a ≠ 0) :
    f.execution conLines onlyPthreadCreate (0 :: q) = f.own onlyPthreadCreate 0 ++
      (f.pathGroups conLines onlyPthreadCreate (0 :: q)).flatMap (emit onlyPthreadCreate) := by
  have hrest : q.flatMap (fun b => (f.instrumented conLines onlyPthreadCreate).getD b []) =
      (f.pathGroups conLines onlyPthreadCreate q).flatMap (emit onlyPthreadCreate) := by
    unfold Func.pathGroups
    rw [List.flatMap_assoc]
    apply List.flatMap_congr
    intro b hb
    obtain ⟨c, rfl⟩ := Nat.exists_eq_succ_of_ne_zero (hq b hb)
    rw [instrumented_getD, own_succ, List.nil_append]
  unfold Func.execution
  rw [List.flatMap_cons, hrest, instrumented_getD, List.append_assoc, ← List.flatMap_append]
  rfl

theorem groups_labelOf (last : Text) (xs : List Item) :
    (groups conLines last xs).map labelOf = marks (listed conLines) (toLabel last) (xs.map label) := by
  induction xs generalizing last with
  | nil => rfl
  | cons x xs ih =>
    rw [groups, List.map_cons, ih, List.map_cons, marks]
    rfl

theorem groups_fst (last : Text) (xs : List Item) : (groups conLines last xs).map Prod.fst = xs := by
  induction xs generalizing last with
  | nil => rfl
  | cons x xs ih => rw [groups, List.map_cons, ih]

theorem trace_eq (p : List Nat) : trace (listed conLines)
    (fun b => (f.body onlyPthreadCreate b).map label)
    (fun b => toLabel (f.carried onlyPthreadCreate b)) p =
      (f.pathGroups conLines onlyPthreadCreate p).map labelOf := by
  unfold trace Func.pathGroups
  rw [List.map_flatMap]
  exact List.flatMap_congr fun b _ => (groups_labelOf conLines _ _).symm

theorem lastNonEmptyLoc_concat (xs : List Item) (x : Item) : lastNonEmptyLoc (xs ++ [x]) =
    if tracked x ∧ getSourceLoc x ≠ [] then getSourceLoc x else lastNonEmptyLoc xs := by
  unfold lastNonEmptyLoc
  rw [List.foldl_append]
  rfl

theorem lastNonEmptyLoc_filter (xs : List Item) :
    lastNonEmptyLoc (xs.filter tracked) = lastNonEmptyLoc xs := by
  induction xs using List.reverseRecOn with
  | nil => rfl
  | append_singleton xs x ih =>
    rw [List.filter_append, lastNonEmptyLoc_concat]
    cases hx : tracked x with
    | false =>
      rw [List.filter_cons_of_neg (by simp [hx]), List.filter_nil, List.append_nil, ih,
        if_neg fun h => Bool.noConfusion h.1]
    | true => rw [List.filter_cons_of_pos hx, List.filter_nil, lastNonEmptyLoc_concat, ih, hx]

theorem top_groups (G : List (Item × Bool)) (hG : ∀ g ∈ G, tracked g.1 = true) :
    top (G.map labelOf) = toLabel (lastNonEmptyLoc (G.map Prod.fst)) := by
  induction G using List.reverseRecOn with
  | nil => rfl
  | append_singleton G g ih =>
    have ih := ih fun y hy => hG y (List.mem_append_left _ hy)
    have hg := hG g (by simp)
    rw [List.map_append, List.map_append, top_append, ih, List.map_singleton, List.map_singleton,
      labelOf, top_singleton, lastNonEmptyLoc_concat]
    by_cases hnil : getSourceLoc g.1 = []
    · rw [label, if_pos hnil, if_neg fun h => h.2 hnil, Option.none_or]
    · rw [label, if_neg hnil, if_pos ⟨hg, hnil⟩, Option.some_or, toLabel, if_neg hnil]

theorem top_path (p : List Nat) : top ((f.pathGroups conLines onlyPthreadCreate p).map labelOf) =
    toLabel (lastNonEmptyLoc (p.flatMap (f.code onlyPthreadCreate))) := by
  have hfst : (f.pathGroups conLines onlyPthreadCreate p).map Prod.fst =
      (p.flatMap (f.code onlyPthreadCreate)).filter tracked := by
    unfold Func.pathGroups
    rw [List.map_flatMap, List.filter_flatMap]
    exact List.flatMap_congr fun b _ => groups_fst conLines _ _
  have htracked : ∀ g ∈ f.pathGroups conLines onlyPthreadCreate p, tracked g.1 = true := by
    intro g hg
    have hmem : g.1 ∈ (f.pathGroups conLines onlyPthreadCreate p).map Prod.fst :=
      List.mem_map_of_mem hg
    rw [hfst] at hmem
    exact (List.mem_filter.mp hmem).2
  rw [top_groups _ htracked, hfst, lastNonEmptyLoc_filter]

end Func

section Calls
variable {conLines : List Text} {onlyPthreadCreate : Bool} {G : List (Item × Bool)} {sourceLoc : Text}

def MarksListed (conLines : List Text) (G : List (Item × Bool)) : Prop :=
  ∀ g ∈ G, g.2 = true → listed conLines (getSourceLoc g.1) = true

theorem pathGroups_marksListed (f : Func) (conLines : List Text) (onlyPthreadCreate : Bool)
    (p : List Nat) :
    MarksListed conLines (f.pathGroups conLines onlyPthreadCreate p) := by
  have hgroups : ∀ (xs : List Item) (last : Text), MarksListed conLines (groups conLines last xs) := by
    intro xs
    induction xs with
    | nil => exact fun last g hg => absurd hg List.not_mem_nil
    | cons x xs ih =>
      intro last g hg hmark
      rcases List.mem_cons.mp hg with rfl | hg
      · cases hlabel : label x with
        | none =>
          rw [hlabel] at hmark
          cases hmark
        | some t =>
          rw [hlabel, marked, Bool.and_eq_true] at hmark
          rw [(label_eq_some hlabel).1]
          exact hmark.2
      · exact ih _ g hg hmark
  intro g hg
  obtain ⟨b, _, hb⟩ := List.mem_flatMap.mp hg
  exact hgroups _ _ g hb

/-- The debug location of a listed instruction is its location. -/
theorem dbg_of_listed {x : Item} (h : listed conLines (getSourceLoc x) = true) :
    x.dbg = getSourceLoc x := by
  match x with
  | .inserted _ _ => rfl
  | .original ⟨.alloca line, _⟩ =>
    unfold listed at h
    rw [Bool.and_eq_true] at h
    exact absurd (of_decide_eq_true h.1) line.no_colon
  | .original ⟨.ret, _⟩ => rfl
  | .original ⟨.call _, _⟩ => rfl
  | .original ⟨.other, _⟩ => rfl

theorem callsBefore_spec {x y : Item} (hy : y ∈ callsBefore onlyPthreadCreate x) :
    getSourceLoc y = getSourceLoc x ∧ (∃ h dbg, y = .inserted h dbg) ∧
      ∀ intHash dbg, y ≠ .inserted (.instrLOCString intHash) dbg := by
  have hcall : ∀ h dbg, y ∈ [Item.inserted h dbg] → (∀ intHash, h ≠ .instrLOCString intHash) →
      getSourceLoc y = dbg ∧ (∃ h dbg, y = .inserted h dbg) ∧
        ∀ intHash dbg, y ≠ .inserted (.instrLOCString intHash) dbg := by
    intro h dbg hmem hne
    obtain rfl := List.mem_singleton.mp hmem
    exact ⟨rfl, ⟨h, dbg, rfl⟩, fun intHash dbg' heq => hne intHash (Item.inserted.inj heq).1⟩
  unfold callsBefore at hy
  split at hy
  · exact hcall _ _ hy fun _ => Hook.noConfusion
  · exact hcall _ _ hy fun _ => Hook.noConfusion
  · split at hy
    · exact hcall _ _ hy fun _ => Hook.noConfusion
    · cases hy
  · split at hy
    · cases hy
    · exact hcall _ _ hy fun _ => Hook.noConfusion
  · split at hy
    · cases hy
    · exact hcall _ _ hy fun _ => Hook.noConfusion
  · cases hy

theorem emit_loc {g : Item × Bool} (hg : g.2 = true → listed conLines (getSourceLoc g.1) = true)
    {y : Item} (hy : y ∈ emit onlyPthreadCreate g) : getSourceLoc y = getSourceLoc g.1 := by
  unfold emit at hy
  rcases List.mem_append.mp hy with hy | hy
  · exact (callsBefore_spec hy).1
  · rcases List.mem_append.mp hy with hy | hy
    · split at hy
      · next hmark =>
        rw [List.mem_singleton.mp hy]
        exact dbg_of_listed (hg hmark)
      · cases hy
    · rw [List.mem_singleton.mp hy]

theorem callPassed_of_armed (onlyPthreadCreate : Bool) (own : List Item) (hG : MarksListed conLines G)
    (h : Armed sourceLoc (G.map labelOf)) :
    CallPassed sourceLoc (own ++ G.flatMap (emit onlyPthreadCreate)) := by
  obtain ⟨A, B, heq, hB⟩ := h
  obtain ⟨A', rest, rfl, rfl, hrest⟩ := List.map_eq_append_iff.mp heq
  obtain ⟨g, B', rfl, hg, rfl⟩ := List.map_eq_cons_iff.mp hrest
  obtain ⟨hlabel, hmark⟩ := Prod.mk.inj hg
  have hloc := (label_eq_some hlabel).1
  refine ⟨own ++ A'.flatMap (emit onlyPthreadCreate) ++ callsBefore onlyPthreadCreate g.1, g.1.dbg,
    g.1 :: B'.flatMap (emit onlyPthreadCreate), ?_, fun y hy => ?_⟩
  · rw [List.flatMap_append, List.flatMap_cons, emit, if_pos hmark, hloc]
    simp only [List.append_assoc, List.cons_append, List.nil_append]
  · rcases List.mem_cons.mp hy with rfl | hy
    · exact Or.inr hloc
    · obtain ⟨g', hg', hy⟩ := List.mem_flatMap.mp hy
      rw [emit_loc (hG g' (by simp [hg'])) hy]
      have hlabel' := hB (labelOf g') (List.mem_map_of_mem hg')
      rcases hlabel' with hnone | hsome
      · left
        by_contra hne
        rw [labelOf, label, if_neg hne] at hnone
        cases hnone
      · exact Or.inr (label_eq_some hsome).1

theorem armed_of_callPassed {own : List Item} (hown : ∀ x ∈ own, tracked x = false)
    (hG : MarksListed conLines G)
    (hvisited : ∀ g ∈ G, ∀ intHash dbg, g.1 ≠ .inserted (.instrLOCString intHash) dbg)
    (h : CallPassed sourceLoc (own ++ G.flatMap (emit onlyPthreadCreate))) :
    Armed sourceLoc (G.map labelOf) := by
  obtain ⟨a, dbg, b, heq, hb⟩ := h
  obtain ⟨a', rfl, hflat⟩ := split_right heq fun hmem => Bool.noConfusion (hown _ hmem)
  obtain ⟨A, g, B, u, v, rfl, hg, rfl, rfl⟩ := split_flatMap hflat
  unfold emit at hg
  obtain ⟨u', rfl, htail⟩ := split_right hg fun hmem => (callsBefore_spec hmem).2.2 _ _ rfl
  have hother : ∀ u, [g.1] ≠ u ++ .inserted (.instrLOCString (locHash sourceLoc)) dbg :: v := by
    intro u heq
    have hmem : Item.inserted (.instrLOCString (locHash sourceLoc)) dbg ∈ [g.1] := by
      rw [heq]
      simp
    exact hvisited g (by simp) _ _ (List.mem_singleton.mp hmem).symm
  have hlast : v = [g.1] ∧ g.2 = true := by
    cases hmark : g.2 with
    | false =>
      rw [hmark] at htail
      exact absurd htail (hother u')
    | true =>
      rw [hmark] at htail
      refine ⟨?_, rfl⟩
      cases u' with
      | nil => exact (List.cons.inj htail).2.symm
      | cons x u' => exact absurd (List.cons.inj htail).2 (hother u')
  obtain ⟨rfl, hmark⟩ := hlast
  have hne : getSourceLoc g.1 ≠ [] := by
    have := hG g (by simp) hmark
    intro hnil
    rw [hnil] at this
    cases this
  have hsame : getSourceLoc g.1 = sourceLoc := (hb g.1 (by simp)).resolve_left hne
  refine ⟨A.map labelOf, B.map labelOf, ?_, fun z hz => ?_⟩
  · rw [List.map_append, List.map_cons, labelOf, label, if_neg hne, hsame, hmark]
  · obtain ⟨g', hg', rfl⟩ := List.mem_map.mp hz
    have hmem : g'.1 ∈ B.flatMap (emit onlyPthreadCreate) :=
      List.mem_flatMap.mpr ⟨g', hg', by simp [emit]⟩
    rw [labelOf, label]
    rcases hb g'.1 (List.mem_append_right _ hmem) with hnil | hother
    · exact Or.inl (if_pos hnil)
    · by_cases hnil : getSourceLoc g'.1 = []
      · exact Or.inl (if_pos hnil)
      · exact Or.inr (by rw [if_neg hnil, hother])

end Calls

/-! ## The exact condition -/

section Exact
variable {f : Func} {conLines : List Text} {onlyPthreadCreate : Bool}

theorem visited_no_locString {xs : List Item}
    (h : ∀ x ∈ xs, ∀ intHash dbg, x ≠ .inserted (.instrLOCString intHash) dbg) :
    ∀ x ∈ visited onlyPthreadCreate xs, ∀ intHash dbg,
      x ≠ .inserted (.instrLOCString intHash) dbg := by
  induction xs with
  | nil => exact fun x hx => absurd hx List.not_mem_nil
  | cons y xs ih =>
    intro x hx intHash dbg
    rw [visited, List.cons_append, List.mem_cons, List.mem_append] at hx
    rcases hx with rfl | hx | hx
    · exact h x List.mem_cons_self intHash dbg
    · intro heq
      subst heq
      unfold callsBehind at hx
      repeat' split at hx
      all_goals simp at hx
    · exact ih (fun z hz => h z (List.mem_cons_of_mem y hz)) x hx intHash dbg

theorem code_no_locString (b : Nat) : ∀ x ∈ f.code onlyPthreadCreate b, ∀ intHash dbg,
    x ≠ .inserted (.instrLOCString intHash) dbg := by
  cases b with
  | zero =>
    unfold Func.code Func.codes Func.withEntryCalls
    cases f.blocks with
    | nil => exact fun x hx => absurd hx List.not_mem_nil
    | cons entry rest =>
      apply visited_no_locString
      intro x hx intHash dbg heq
      subst heq
      rcases List.mem_append.mp hx with hx | hx
      · unfold Func.entryCalls at hx
        repeat' split at hx
        all_goals simp at hx
      · simp at hx
  | succ b =>
    rw [code_succ]
    apply visited_no_locString
    intro x hx intHash dbg heq
    subst heq
    simp at hx

theorem pathGroups_no_locString (p : List Nat) :
    ∀ g ∈ f.pathGroups conLines onlyPthreadCreate p, ∀ intHash dbg,
      g.1 ≠ .inserted (.instrLOCString intHash) dbg := by
  intro g hg
  obtain ⟨b, _, hb⟩ := List.mem_flatMap.mp hg
  have hbody : g.1 ∈ f.body onlyPthreadCreate b := by
    rw [← groups_fst conLines (f.carried onlyPthreadCreate b) (f.body onlyPthreadCreate b)]
    exact List.mem_map_of_mem hb
  exact code_no_locString b g.1 (List.mem_filter.mp hbody).1

theorem own_untracked (b : Nat) : ∀ x ∈ f.own onlyPthreadCreate b, tracked x = false := by
  intro x hx
  have := (List.mem_filter.mp hx).2
  rwa [Bool.not_eq_true'] at this

theorem body_head (b : Nat) : (f.body onlyPthreadCreate (b + 1)).head? =
    (((f.blocks[b + 1]?).map Block.instrs).getD []).head?.map .original := by
  have hbody : f.body onlyPthreadCreate (b + 1) = f.code onlyPthreadCreate (b + 1) := by
    rw [code_eq, own_succ, List.nil_append]
  rw [hbody, code_succ]
  cases ((f.blocks[b + 1]?).map Block.instrs).getD [] <;> rfl

theorem carried_zero : f.carried onlyPthreadCreate 0 = [] := rfl

theorem anchored_of_headsReached (h : HeadsReached f conLines onlyPthreadCreate) :
    Anchored (listed conLines) f.Edge 0 (fun b => (f.body onlyPthreadCreate b).map label)
      fun b => toLabel (f.carried onlyPthreadCreate b) := by
  intro b p t hp hcarry hhead ht
  cases b with
  | zero => cases hcarry
  | succ b =>
    rw [List.head?_map, body_head, Option.map_map] at hhead
    obtain ⟨i, hi, hlabel⟩ := Option.map_eq_some_iff.mp hhead
    have hloc := (label_eq_some hlabel).1
    have hcarry : f.carried onlyPthreadCreate (b + 1) = t := toLabel_eq_some hcarry
    cases hblock : f.blocks[b + 1]? with
    | none =>
      rw [hblock] at hi
      cases hi
    | some block =>
      rw [hblock] at hi
      have hlast := h (b + 1) block i hblock hi (hcarry.trans hloc.symm) (by rwa [hloc]) p hp
      rw [trace_eq, top_path, hlast, toLabel, if_neg]
      · rw [hloc]
      · exact (label_eq_some hlabel).1 ▸ (label_eq_some hlabel).2

theorem coversListed_of_headsReached (h : HeadsReached f conLines onlyPthreadCreate) :
    CoversListed f conLines onlyPthreadCreate := by
  intro b p hp pre i post heq hi
  have hcovered := covered_of_anchored (anchored_of_headsReached h) hp
  obtain ⟨q, hq, hne⟩ := path_from_entry f hp
  rw [trace_eq] at hcovered
  rw [hq] at heq hcovered
  rw [execution_eq f conLines onlyPthreadCreate hne] at heq
  have hmarks := pathGroups_marksListed f conLines onlyPthreadCreate (0 :: q)
  generalize f.pathGroups conLines onlyPthreadCreate (0 :: q) = G at heq hcovered hmarks
  obtain ⟨a', rfl, hflat⟩ := split_right heq fun hmem => Bool.noConfusion (own_untracked 0 _ hmem)
  obtain ⟨A, g, B, u, v, rfl, hg, rfl, rfl⟩ := split_flatMap hflat
  have hitem : g.1 = .original i ∧ u = callsBefore onlyPthreadCreate g.1 ++
      if g.2 then [.inserted (.instrLOCString (locHash (getSourceLoc g.1))) g.1.dbg] else [] := by
    unfold emit at hg
    rw [← List.append_assoc] at hg
    obtain ⟨u', rfl, hlast⟩ := split_right hg fun hmem => by
      rcases List.mem_append.mp hmem with hmem | hmem
      · obtain ⟨_, _, hinserted⟩ := (callsBefore_spec hmem).2.1
        cases hinserted
      · split at hmem
        · cases List.mem_singleton.mp hmem
        · cases hmem
    cases u' with
    | nil => exact ⟨(List.cons.inj hlast).1, List.append_nil _⟩
    | cons x u' =>
      have hnil := (List.cons.inj hlast).2
      cases u' <;> cases hnil
  obtain ⟨hgi, rfl⟩ := hitem
  have harmed : Armed (getSourceLoc (.original i)) (A.map labelOf ++ [labelOf g]) := by
    have hlabel : labelOf g = (some (getSourceLoc (.original i)), g.2) := by
      rw [labelOf, hgi, label_of_listed hi]
    rw [hlabel]
    refine hcovered _ _ _ (B.map labelOf) ?_ hi
    rw [List.map_append, List.map_cons, hlabel]
  cases hmark : g.2 with
  | true =>
    refine ⟨f.own onlyPthreadCreate 0 ++ (A.flatMap (emit onlyPthreadCreate) ++
      callsBefore onlyPthreadCreate g.1), g.1.dbg, [], ?_, fun y hy => absurd hy List.not_mem_nil⟩
    rw [if_pos rfl, hgi]
    simp only [List.append_assoc]
  | false =>
    rw [labelOf, hmark] at harmed
    have hA : MarksListed conLines A := fun g' hg' => hmarks g' (List.mem_append_left _ hg')
    obtain ⟨a, dbg, b, hcall, hb⟩ := callPassed_of_armed onlyPthreadCreate
      (f.own onlyPthreadCreate 0) hA harmed.of_snoc
    refine ⟨a, dbg, b ++ callsBefore onlyPthreadCreate g.1, ?_, fun y hy => ?_⟩
    · rw [if_neg Bool.noConfusion, List.append_nil, ← List.append_assoc, hcall]
      simp only [List.append_assoc, List.cons_append]
    · rcases List.mem_append.mp hy with hy | hy
      · exact hb y hy
      · rw [(callsBefore_spec hy).1, hgi]
        exact Or.inr rfl

theorem callPassed_before {pre : List Item} {x : Item} {sourceLoc : Text}
    (h : CallPassed sourceLoc (pre ++ callsBefore onlyPthreadCreate x)) :
    CallPassed sourceLoc pre := by
  obtain ⟨a, dbg, b, heq, hb⟩ := h
  obtain ⟨b', rfl, hpre⟩ := split_left heq fun hmem => (callsBefore_spec hmem).2.2 _ _ rfl
  exact ⟨a, dbg, b', hpre, fun y hy => hb y (List.mem_append_left _ hy)⟩

/-- A block whose head is the location carried into it starts without a call. -/
theorem block_without_call (conLines : List Text) {b : Nat} {i : Instr}
    (hhead : (f.body onlyPthreadCreate (b + 1)).head? = some (.original i))
    (hcarry : f.carried onlyPthreadCreate (b + 1) = getSourceLoc (.original i)) :
    ∃ post, (f.instrumented conLines onlyPthreadCreate).getD (b + 1) [] =
      callsBefore onlyPthreadCreate (.original i) ++ .original i :: post := by
  obtain ⟨xs, hxs⟩ : ∃ xs, f.body onlyPthreadCreate (b + 1) = .original i :: xs := by
    cases hbody : f.body onlyPthreadCreate (b + 1) with
    | nil =>
      rw [hbody] at hhead
      cases hhead
    | cons x xs =>
      rw [hbody] at hhead
      exact ⟨xs, by rw [Option.some.inj hhead]⟩
  have hmark : marked (listed conLines) (toLabel (getSourceLoc (.original i)))
      (label (.original i)) = false := by
    unfold toLabel label
    split
    · rfl
    · simp [marked]
  rw [instrumented_getD, own_succ, hxs, hcarry, groups, hmark, List.flatMap_cons, emit,
    List.nil_append]
  refine ⟨(groups conLines (getSourceLoc (.original i)) xs).flatMap (emit onlyPthreadCreate), ?_⟩
  simp only [Bool.false_eq_true, if_false, List.nil_append, List.append_assoc, List.cons_append]

theorem headsReached_of_coversListed (h : CoversListed f conLines onlyPthreadCreate) :
    HeadsReached f conLines onlyPthreadCreate := by
  intro b block i hblock hi hcarry hlisted p hp
  cases b with
  | zero =>
    rw [← hcarry, carried_zero] at hlisted
    cases hlisted
  | succ b =>
    obtain ⟨q, rfl, hne⟩ : ∃ q, p = 0 :: q ∧ ∀ a ∈ q, a ≠ 0 := by
      obtain ⟨q, hq, hne⟩ := path_from_entry f hp
      cases p with
      | nil => cases hq
      | cons a p =>
        obtain ⟨rfl, rfl⟩ := List.cons.inj hq
        exact ⟨p, rfl, fun c hc => hne c (List.mem_append_left _ hc)⟩
    have hhead : (f.body onlyPthreadCreate (b + 1)).head? = some (.original i) := by
      rw [body_head, hblock, Option.map_some, Option.getD_some, hi, Option.map_some]
    obtain ⟨post, hpost⟩ := block_without_call conLines hhead hcarry
    have hrun : f.execution conLines onlyPthreadCreate ((0 :: q) ++ [b + 1]) =
        (f.execution conLines onlyPthreadCreate (0 :: q) ++
          callsBefore onlyPthreadCreate (.original i)) ++ .original i :: post := by
      unfold Func.execution
      rw [List.flatMap_append, List.flatMap_singleton, hpost, List.append_assoc]
    have hpassed := callPassed_before (h (b + 1) _ hp _ i post hrun hlisted)
    rw [execution_eq f conLines onlyPthreadCreate hne] at hpassed
    have harmed := armed_of_callPassed (own_untracked 0)
      (pathGroups_marksListed f conLines onlyPthreadCreate (0 :: q))
      (pathGroups_no_locString (0 :: q)) hpassed
    have htop := harmed.top_eq
    rw [top_path] at htop
    exact toLabel_eq_some htop

/-- The pass covers every execution of the listed locations exactly when each block that starts
with the listed location before it in layout order is only reached from that location. -/
theorem coversListed_iff (f : Func) (conLines : List Text) (onlyPthreadCreate : Bool) :
    CoversListed f conLines onlyPthreadCreate ↔ HeadsReached f conLines onlyPthreadCreate :=
  ⟨headsReached_of_coversListed, coversListed_of_headsReached⟩

end Exact

/-- `a.c:1` branches to two blocks that lie one behind the other, both at `a.c:2`. -/
def twoBranches : Func where
  blocks := [⟨[⟨.other, [97, 46, 99, 58, 49]⟩], [1, 2]⟩, ⟨[⟨.other, [97, 46, 99, 58, 50]⟩], []⟩,
    ⟨[⟨.other, [97, 46, 99, 58, 50]⟩], []⟩]
  isMain := false
  isPthreadTask := false
  entry_no_pred := by decide

/-- The second branch has no call. -/
theorem second_branch_not_covered : ¬ CoversListed twoBranches [[97, 46, 99, 58, 50]] true := by
  intro h
  have hp : PathTo twoBranches.Edge 0 2 [0] := PathTo.edge PathTo.entry ⟨_, rfl, by decide⟩
  have hrun : twoBranches.execution [[97, 46, 99, 58, 50]] true [0, 2] =
      [.inserted .instrCall [97, 46, 99, 58, 49], .original ⟨.other, [97, 46, 99, 58, 49]⟩] ++
        .original ⟨.other, [97, 46, 99, 58, 50]⟩ :: [] := by decide
  obtain ⟨a, dbg, b, hcall, _⟩ := h 2 [0] hp _ _ [] hrun (by decide)
  have hmem : Item.inserted (.instrLOCString (locHash [97, 46, 99, 58, 50])) dbg ∈
      [.inserted .instrCall [97, 46, 99, 58, 49], Item.original ⟨.other, [97, 46, 99, 58, 49]⟩] := by
    have hcall : _ = a ++ Item.inserted (.instrLOCString (locHash [97, 46, 99, 58, 50])) dbg :: b := hcall
    rw [hcall]
    simp
  simp at hmem

end Period.Pass
