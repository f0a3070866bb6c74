import Mathlib.Data.List.Basic
import Mathlib.Data.List.Forall2
import Mathlib.Data.List.Nodup
import Mathlib.Logic.Relation
import Mathlib.Order.Basic
import Mathlib.Order.Lattice

/-!
# Walking through a list with a successor function

`WalksTo next l out` says that `next` leads through `l` element by element and
from its last element to `out`. Blocks compose: an enumeration nested in another
one is a `flatMap`, and the carry of an odometer is the step to the next block.
Nothing here asks the elements to be different or ordered.
-/

namespace Period.Enumeration

set_option autoImplicit false

universe u v
variable {α : Type u} {β : Type v}

def WalksTo (next : α → Option α) : List α → Option α → Prop
  | [], _ => True
  | a :: l, out => next a = l.head?.or out ∧ WalksTo next l out

section Walks
variable {next : α → Option α}

theorem walksTo_append (l₁ l₂ : List α) (out : Option α) :
    WalksTo next (l₁ ++ l₂) out ↔
      WalksTo next l₁ (l₂.head?.or out) ∧ WalksTo next l₂ out := by
  induction l₁ with
  | nil => simp [WalksTo]
  | cons a l ih =>
    have hhead : ((l ++ l₂).head?).or out = l.head?.or (l₂.head?.or out) := by
      simp only [List.head?_append, Option.or_assoc]
    simp only [List.cons_append, WalksTo, ih, hhead, and_assoc]

theorem walksTo_at {l pre post : List α} {a : α} {out : Option α}
    (hw : WalksTo next l out) (hl : l = pre ++ a :: post) : next a = post.head?.or out := by
  subst hl
  exact ((walksTo_append pre (a :: post) out).mp hw).2.1

theorem walksTo_mem {l : List α} {a b : α} (hw : WalksTo next l none) (ha : a ∈ l)
    (hnext : next a = some b) : b ∈ l := by
  obtain ⟨pre, post, rfl⟩ := List.append_of_mem ha
  rw [walksTo_at hw rfl, Option.or_none] at hnext
  exact List.mem_append_right pre (List.mem_cons_of_mem a (List.mem_of_head? hnext))

theorem walksTo_flatMap (xs : List β) (f : β → List α) (out : Option α)
    (h : ∀ pre b post, xs = pre ++ b :: post →
      WalksTo next (f b) ((post.flatMap f).head?.or out)) :
    WalksTo next (xs.flatMap f) out := by
  induction xs with
  | nil => trivial
  | cons b xs ih =>
    rw [List.flatMap_cons]
    refine (walksTo_append _ _ _).mpr ⟨h [] b xs rfl, ih ?_⟩
    intro pre c post hxs
    exact h (b :: pre) c post (by rw [hxs, List.cons_append])

/-- One block of a nested enumeration: the step function first tries the inner
enumeration and leaves the block through `out` when that one is done. -/
theorem walksTo_map (inner : β → Option β) (g : β → α) (l : List β) (out : Option α)
    (hnext : ∀ b ∈ l, next (g b) = ((inner b).map g).or out) (hw : WalksTo inner l none) :
    WalksTo next (l.map g) out := by
  induction l with
  | nil => trivial
  | cons b l ih =>
    obtain ⟨hb, hl⟩ := hw
    refine ⟨?_, ih (fun c hc => hnext c (List.mem_cons_of_mem b hc)) hl⟩
    rw [hnext b List.mem_cons_self, hb, Option.or_none, List.head?_map]

/-- One block of a nested enumeration whose step function passes over the elements that
fail a test. -/
theorem walksTo_filter {q : β → Bool} (g : β → α) (l : List β) (out : Option α)
    (hnext : ∀ pre b post, l = pre ++ b :: post → next (g b) = ((post.find? q).map g).or out) :
    WalksTo next ((l.filter q).map g) out := by
  induction l with
  | nil => trivial
  | cons b l ih =>
    have ih := ih fun pre c post hl => hnext (b :: pre) c post (by rw [hl, List.cons_append])
    cases hb : q b
    · rwa [List.filter_cons_of_neg (by simp [hb])]
    · rw [List.filter_cons_of_pos hb]
      refine ⟨?_, ih⟩
      rw [hnext [] b l rfl, List.head?_map, List.head?_filter]

/-- The elements that `next` leads through from `a` on, or nothing when `k` steps are too few. -/
def walk (next : α → Option α) : Nat → α → Option (List α)
  | 0, _ => none
  | k + 1, a =>
    match next a with
    | some b => (walk next k b).map (a :: ·)
    | none => some [a]

theorem walk_eq {a : α} {l : List α} (hw : WalksTo next (a :: l) none) {k : Nat} (hk : l.length < k) :
    walk next k a = some (a :: l) := by
  induction l generalizing a k with
  | nil =>
    obtain ⟨k, rfl⟩ := Nat.exists_eq_succ_of_ne_zero (Nat.ne_of_gt hk)
    rw [walk, hw.1]
    rfl
  | cons b l ih =>
    obtain ⟨k, rfl⟩ := Nat.exists_eq_succ_of_ne_zero (Nat.ne_zero_of_lt hk)
    rw [walk, hw.1]
    exact congrArg (Option.map (a :: ·)) (ih hw.2 (Nat.lt_of_succ_lt_succ hk))

end Walks

def seek (next : α → Option α) (q : α → Bool) : Nat → α → Option α
  | 0, _ => none
  | k + 1, a => (next a).bind fun b => if q b then some b else seek next q k b

theorem seek_eq_find? {next : α → Option α} {q : α → Bool} {a : α} {l : List α}
    (hw : WalksTo next (a :: l) none) {k : Nat} (hk : l.length ≤ k) : seek next q k a = l.find? q := by
  induction l generalizing a k with
  | nil =>
    cases k with
    | zero => rfl
    | succ k =>
      rw [seek, hw.1]
      rfl
  | cons b l ih =>
    cases k with
    | zero => exact absurd hk (Nat.not_succ_le_zero _)
    | succ k =>
      rw [seek, hw.1]
      simp only [List.head?_cons, Option.some_or, Option.bind_some]
      rw [List.find?_cons, ih hw.2 (Nat.le_of_succ_le_succ hk)]
      cases q b <;> rfl

theorem walksTo_seek {next step : α → Option α} {q : α → Bool} {a : α} {l : List α}
    (hw : WalksTo next (a :: l) none)
    (hstep : ∀ b ∈ a :: l, ∃ k, l.length ≤ k ∧ step b = seek next q k b) :
    WalksTo step (a :: l.filter q) none := by
  have hfind : ∀ pre b post, a :: l = pre ++ b :: post → step b = post.find? q := by
    intro pre b post hsplit
    obtain ⟨k, hk, hb⟩ := hstep b (by simp [hsplit])
    have hlen := congrArg List.length hsplit
    rw [List.length_cons, List.length_append, List.length_cons] at hlen
    rw [hsplit] at hw
    rw [hb, seek_eq_find? ((walksTo_append pre (b :: post) none).mp hw).2 (by omega)]
  refine ⟨?_, ?_⟩
  · rw [hfind [] a l rfl, Option.or_none, List.head?_filter]
  · rw [← List.map_id (l.filter q)]
    apply walksTo_filter
    intro pre b post hsplit
    rw [id, hfind (a :: pre) b post (by rw [hsplit]; rfl), Option.map_id, Option.or_none]
    rfl

section Nested
variable {next : α → Option α} {inner : α → β → Option β} {start : α → β} {runs : α → List β}
  {as : List α} (hruns : ∀ a ∈ as, (runs a).head? = some (start a) ∧ WalksTo (inner a) (runs a) none)
include hruns

theorem nested_head : (as.flatMap fun a => (runs a).map (a, ·)).head? =
    as.head?.map fun a => (a, start a) := by
  cases as with
  | nil => rfl
  | cons a as =>
    rw [List.flatMap_cons, List.head?_append, List.head?_map, (hruns a List.mem_cons_self).1]
    rfl

/-- An enumeration of elements with a run of their own: a run goes to its end, then the next
element starts. -/
theorem nested_walks (hw : WalksTo next as none) :
    WalksTo (fun v : α × β => ((inner v.1 v.2).map (v.1, ·)).or
      ((next v.1).map fun a => (a, start a))) (as.flatMap fun a => (runs a).map (a, ·)) none := by
  apply walksTo_flatMap
  intro pre a post hsplit
  have hpost : ∀ b ∈ post, b ∈ as := fun b hb => by simp [hsplit, hb]
  apply walksTo_map (inner a)
  · intro b _
    rw [nested_head fun c hc => hruns c (hpost c hc), walksTo_at hw hsplit, Option.or_none,
      Option.or_none]
  · exact (hruns a (by simp [hsplit])).2

end Nested

/-- Blocks that can be told apart by a key do not repeat an element. -/
theorem nodup_flatMap_of_key {xs : List α} {f : α → List β} (key : β → α) (hxs : xs.Nodup)
    (hf : ∀ a ∈ xs, (f a).Nodup) (hkey : ∀ a ∈ xs, ∀ b ∈ f a, key b = a) : (xs.flatMap f).Nodup := by
  rw [List.nodup_flatMap]
  refine ⟨hf, hxs.imp_of_mem fun {a a'} ha ha' hne b hb hb' => ?_⟩
  exact hne ((hkey a ha b hb).symm.trans (hkey a' ha' b hb'))

/-! ## Odometers -/

/-- One wheel: how it turns and where it starts again. -/
structure Wheel (α : Type u) where
  turn : α → Option α
  first : α

/-- The wheel shows exactly the list `l`, in this order. -/
def Wheel.Shows (w : Wheel α) (l : List α) : Prop :=
  l.head? = some w.first ∧ WalksTo w.turn l none

def readings : List (List α) → List (List α)
  | [] => [[]]
  | l :: ls => l.flatMap fun a => (readings ls).map (a :: ·)

theorem mem_readings (ls : List (List α)) (as : List α) :
    as ∈ readings ls ↔ List.Forall₂ (fun a l => a ∈ l) as ls := by
  induction ls generalizing as with
  | nil => simp [readings]
  | cons l ls ih =>
    simp only [readings, List.mem_flatMap, List.mem_map, List.forall₂_cons_right_iff]
    constructor
    · rintro ⟨a, ha, bs, hbs, rfl⟩
      exact ⟨a, bs, ha, (ih bs).mp hbs, rfl⟩
    · rintro ⟨a, bs, ha, hbs, rfl⟩
      exact ⟨a, ha, bs, (ih bs).mpr hbs, rfl⟩

theorem exists_readings {ls : List (List α)} (h : ∀ l ∈ ls, l ≠ []) : ∃ as, as ∈ readings ls := by
  induction ls with
  | nil => exact ⟨[], List.mem_cons_self⟩
  | cons l ls ih =>
    obtain ⟨bs, hbs⟩ := ih fun l' hl' => h l' (List.mem_cons_of_mem l hl')
    obtain ⟨a, ha⟩ := List.exists_mem_of_ne_nil l (h l List.mem_cons_self)
    exact ⟨a :: bs, List.mem_flatMap.mpr ⟨a, ha, List.mem_map.mpr ⟨bs, hbs, rfl⟩⟩⟩

theorem exists_mem_readings {ls : List (List α)} (h : ∀ l ∈ ls, l ≠ []) {j : Nat} {a : α} :
    (∃ as ∈ readings ls, as[j]? = some a) ↔ ∃ l, ls[j]? = some l ∧ a ∈ l := by
  induction ls generalizing j with
  | nil => simp [readings]
  | cons l ls ih =>
    have hrest := fun l' hl' => h l' (List.mem_cons_of_mem l hl')
    obtain ⟨x, hx⟩ := List.exists_mem_of_ne_nil l (h l List.mem_cons_self)
    obtain ⟨bs, hbs⟩ := exists_readings hrest
    simp only [readings, List.mem_flatMap, List.mem_map]
    cases j with
    | zero =>
      constructor
      · rintro ⟨_, ⟨y, hy, cs, _, rfl⟩, hget⟩
        exact ⟨l, rfl, Option.some.inj hget ▸ hy⟩
      · rintro ⟨_, hl, ha⟩
        obtain rfl := Option.some.inj hl
        exact ⟨a :: bs, ⟨a, ha, bs, hbs, rfl⟩, rfl⟩
    | succ j =>
      rw [List.getElem?_cons_succ, ← ih hrest]
      constructor
      · rintro ⟨_, ⟨y, _, cs, hcs, rfl⟩, hget⟩
        exact ⟨cs, hcs, hget⟩
      · rintro ⟨cs, hcs, hget⟩
        exact ⟨x :: cs, ⟨x, hx, cs, hcs, rfl⟩, hget⟩

theorem nodup_flatMap_cons {as : List α} {tails : List (List α)} (has : as.Nodup)
    (htails : tails.Nodup) : (as.flatMap fun a => tails.map (a :: ·)).Nodup := by
  rw [List.nodup_flatMap]
  constructor
  · exact fun a _ => htails.map List.cons_injective
  · apply has.imp
    intro a b hne l ha hb
    obtain ⟨as', _, rfl⟩ := List.mem_map.mp ha
    obtain ⟨bs', _, hcons⟩ := List.mem_map.mp hb
    exact hne (List.cons_eq_cons.mp hcons).1.symm

theorem readings_nodup {ls : List (List α)} (h : ∀ l ∈ ls, l.Nodup) : (readings ls).Nodup := by
  induction ls with
  | nil => exact List.nodup_singleton []
  | cons l ls ih =>
    have ih := ih fun l' hl' => h l' (List.mem_cons_of_mem l hl')
    rw [readings]
    exact nodup_flatMap_cons (h l List.mem_cons_self) ih

/-- Turn the last wheel that can be turned and reset the wheels behind it. -/
def carry : List (Wheel α) → List α → Option (List α)
  | w :: ws, a :: as =>
    ((carry ws as).map (a :: ·)).or ((w.turn a).map (· :: ws.map Wheel.first))
  | _, _ => none

theorem carry_walks {ws : List (Wheel α)} {ls : List (List α)}
    (h : List.Forall₂ Wheel.Shows ws ls) :
    (readings ls).head? = some (ws.map Wheel.first) ∧ WalksTo (carry ws) (readings ls) none := by
  induction h with
  | nil => exact ⟨rfl, rfl, trivial⟩
  | @cons w l ws ls hw _ ih =>
    obtain ⟨hhead, hwalk⟩ := ih
    have hblocks : ∀ post : List α,
        (post.flatMap fun a => (readings ls).map (a :: ·)).head? =
          post.head?.map (· :: ws.map Wheel.first) := by
      intro post
      cases post with
      | nil => rfl
      | cons a post =>
        simp only [List.flatMap_cons, List.head?_append, List.head?_map, hhead, Option.map_some,
          Option.some_or, List.head?_cons]
    refine ⟨?_, ?_⟩
    · rw [readings, hblocks, hw.1]
      rfl
    · apply walksTo_flatMap
      intro pre a post hl
      apply walksTo_map (carry ws)
      · intro as _
        rw [carry, walksTo_at hw.2 hl, Option.or_none, hblocks, Option.or_none]
      · exact hwalk

theorem turn_eq_none_of_carry {ws : List (Wheel α)} {as : List α} (h : carry ws as = none) :
    ∀ (i : Nat) (w : Wheel α) (a : α), ws[i]? = some w → as[i]? = some a → w.turn a = none := by
  induction ws generalizing as with
  | nil => exact fun i w a hw => absurd hw (by simp)
  | cons w ws ih =>
    cases as with
    | nil => exact fun i w a _ ha => absurd ha (by simp)
    | cons a as =>
      rw [carry, Option.or_eq_none_iff, Option.map_eq_none_iff, Option.map_eq_none_iff] at h
      intro i w' a' hw ha
      cases i with
      | zero =>
        cases hw
        cases ha
        exact h.2
      | succ i => exact ih h.1 i w' a' hw ha

/-- The carry as a search from the last wheel to the first one. -/
theorem carry_eq_findSome (ws : List (Wheel α)) (as : List α) (hlen : as.length = ws.length) :
    carry ws as = (List.range ws.length).reverse.findSome? fun i =>
      (ws[i]?.bind fun w => as[i]?.bind w.turn).map fun a =>
        as.take i ++ a :: (ws.drop (i + 1)).map Wheel.first := by
  induction ws generalizing as with
  | nil => simp [carry]
  | cons w ws ih =>
    cases as with
    | nil => simp at hlen
    | cons a as =>
      simp only [List.length_cons, Nat.add_right_cancel_iff] at hlen
      rw [carry, ih as hlen, List.length_cons, List.range_succ_eq_map, List.reverse_cons,
        List.findSome?_append, ← List.map_reverse, List.findSome?_map, List.map_findSome?]
      congr 1
      · apply congrArg fun f => List.findSome? f (List.range ws.length).reverse
        funext i
        simp [Function.comp_def]
      · simp

/-- What a wheel shows now, what it has still to show before it is done, and what it
shows after it has been reset. -/
structure Dial (α : Type u) where
  now : α
  later : List α
  all : List α

def Wheel.Resumes (w : Wheel α) (d : Dial α) : Prop :=
  w.Shows d.all ∧ WalksTo w.turn (d.now :: d.later) none

def readingsFrom : List (Dial α) → List (List α)
  | [] => [[]]
  | d :: ds =>
    (readingsFrom ds).map (d.now :: ·) ++
      d.later.flatMap fun a => (readings (ds.map Dial.all)).map (a :: ·)

theorem now_mem_readingsFrom (ds : List (Dial α)) : ds.map Dial.now ∈ readingsFrom ds := by
  induction ds with
  | nil => exact List.mem_cons_self
  | cons d ds ih => exact List.mem_append_left _ (List.mem_map.mpr ⟨_, ih, rfl⟩)

/-- What a wheel can show: something later, or anything once a wheel in front of it has been
turned. -/
theorem exists_mem_readingsFrom {ds : List (Dial α)} (hall : ∀ d ∈ ds, d.all ≠ []) {j : Nat}
    {a : α} : (∃ as ∈ readingsFrom ds, as[j]? = some a) ↔ ∃ d, ds[j]? = some d ∧
      (a ∈ d.now :: d.later ∨ a ∈ d.all ∧ ∃ e ∈ ds.take j, e.later ≠ []) := by
  induction ds generalizing j with
  | nil => simp [readingsFrom]
  | cons d ds ih =>
    have hrest := fun e he => hall e (List.mem_cons_of_mem d he)
    have halls : ∀ l ∈ ds.map Dial.all, l ≠ [] := by
      intro l hl
      obtain ⟨e, he, rfl⟩ := List.mem_map.mp hl
      exact hrest e he
    simp only [readingsFrom, List.mem_append, List.mem_map, List.mem_flatMap]
    cases j with
    | zero =>
      simp only [List.getElem?_cons_zero, List.take_zero, List.not_mem_nil, false_and, exists_false,
        and_false, or_false]
      constructor
      · rintro ⟨_, ⟨cs, _, rfl⟩ | ⟨x, hx, cs, _, rfl⟩, hget⟩
        · exact ⟨d, rfl, Option.some.inj hget ▸ List.mem_cons_self⟩
        · exact ⟨d, rfl, Option.some.inj hget ▸ List.mem_cons_of_mem _ hx⟩
      · rintro ⟨_, hd, ha⟩
        obtain rfl := Option.some.inj hd
        rcases List.mem_cons.mp ha with rfl | ha
        · exact ⟨_, Or.inl ⟨ds.map Dial.now, now_mem_readingsFrom ds, rfl⟩, rfl⟩
        · obtain ⟨bs, hbs⟩ := exists_readings halls
          exact ⟨_, Or.inr ⟨a, ha, bs, hbs, rfl⟩, rfl⟩
    | succ j =>
      simp only [List.getElem?_cons_succ, List.take_succ_cons, List.mem_cons, exists_eq_or_imp]
      constructor
      · rintro ⟨_, ⟨cs, hcs, rfl⟩ | ⟨x, hx, cs, hcs, rfl⟩, hget⟩
        · obtain ⟨e, he, hmem⟩ := (ih hrest).mp ⟨cs, hcs, hget⟩
          exact ⟨e, he, hmem.imp List.mem_cons.mp fun h => ⟨h.1, Or.inr h.2⟩⟩
        · obtain ⟨l, hl, hmem⟩ := (exists_mem_readings halls).mp ⟨cs, hcs, hget⟩
          rw [List.getElem?_map] at hl
          obtain ⟨e, he, rfl⟩ := Option.map_eq_some_iff.mp hl
          exact ⟨e, he, Or.inr ⟨hmem, Or.inl (List.ne_nil_of_mem hx)⟩⟩
      · rintro ⟨e, he, hmem⟩
        by_cases hlater : d.later = []
        · obtain ⟨cs, hcs, hget⟩ := (ih hrest).mpr ⟨e, he, hmem.imp List.mem_cons.mpr fun h =>
            ⟨h.1, h.2.resolve_left fun hne => hne hlater⟩⟩
          exact ⟨d.now :: cs, Or.inl ⟨cs, hcs, rfl⟩, hget⟩
        · rcases hmem with hmem | ⟨hmem, _⟩
          · obtain ⟨cs, hcs, hget⟩ := (ih hrest).mpr ⟨e, he, Or.inl (List.mem_cons.mpr hmem)⟩
            exact ⟨d.now :: cs, Or.inl ⟨cs, hcs, rfl⟩, hget⟩
          · obtain ⟨x, hx⟩ := List.exists_mem_of_ne_nil _ hlater
            obtain ⟨cs, hcs, hget⟩ := (exists_mem_readings halls).mpr
              ⟨e.all, by rw [List.getElem?_map, he]; rfl, hmem⟩
            exact ⟨x :: cs, Or.inr ⟨x, hx, cs, hcs, rfl⟩, hget⟩

theorem readingsFrom_of_later_nil {ds : List (Dial α)} (h : ∀ d ∈ ds, d.later = []) :
    readingsFrom ds = [ds.map Dial.now] := by
  induction ds with
  | nil => rfl
  | cons d ds ih =>
    rw [readingsFrom, ih fun e he => h e (List.mem_cons_of_mem d he), h d List.mem_cons_self]
    rfl

theorem forall₂_of_mem_readingsFrom {ds : List (Dial α)} {as : List α} (h : as ∈ readingsFrom ds) :
    List.Forall₂ (fun a d => a ∈ d.now :: d.later ∨ a ∈ d.all) as ds := by
  induction ds generalizing as with
  | nil =>
    rw [List.mem_singleton.mp h]
    exact List.Forall₂.nil
  | cons d ds ih =>
    rw [readingsFrom] at h
    rcases List.mem_append.mp h with h | h
    · obtain ⟨bs, hbs, rfl⟩ := List.mem_map.mp h
      exact List.Forall₂.cons (Or.inl List.mem_cons_self) (ih hbs)
    · obtain ⟨a, ha, hmem⟩ := List.mem_flatMap.mp h
      obtain ⟨bs, hbs, rfl⟩ := List.mem_map.mp hmem
      refine List.Forall₂.cons (Or.inl (List.mem_cons_of_mem _ ha)) ?_
      exact (List.forall₂_map_right_iff.mp ((mem_readings _ _).mp hbs)).imp fun _ _ hb => Or.inr hb

theorem readingsFrom_nodup {ds : List (Dial α)} (hall : ∀ d ∈ ds, d.all.Nodup)
    (hlater : ∀ d ∈ ds, (d.now :: d.later).Nodup) : (readingsFrom ds).Nodup := by
  induction ds with
  | nil => exact List.nodup_singleton []
  | cons d ds ih =>
    have ih := ih (fun e he => hall e (List.mem_cons_of_mem d he))
      (fun e he => hlater e (List.mem_cons_of_mem d he))
    obtain ⟨hnow, hnodup⟩ := List.nodup_cons.mp (hlater d List.mem_cons_self)
    have hreadings : (readings (ds.map Dial.all)).Nodup := by
      apply readings_nodup
      intro l hl
      obtain ⟨e, he, rfl⟩ := List.mem_map.mp hl
      exact hall e (List.mem_cons_of_mem d he)
    rw [readingsFrom, List.nodup_append]
    refine ⟨ih.map List.cons_injective, nodup_flatMap_cons hnodup hreadings, ?_⟩
    intro as has bs hbs heq
    obtain ⟨as', _, rfl⟩ := List.mem_map.mp has
    obtain ⟨b, hb, hmem⟩ := List.mem_flatMap.mp hbs
    obtain ⟨bs', _, rfl⟩ := List.mem_map.mp hmem
    exact hnow ((List.cons_eq_cons.mp heq).1 ▸ hb)

theorem carry_resumes {ws : List (Wheel α)} {ds : List (Dial α)}
    (h : List.Forall₂ Wheel.Resumes ws ds) :
    (readingsFrom ds).head? = some (ds.map Dial.now) ∧
      WalksTo (carry ws) (readingsFrom ds) none := by
  induction h with
  | nil => exact ⟨rfl, rfl, trivial⟩
  | @cons w d ws ds hw hrest ih =>
    obtain ⟨hhead, hwalk⟩ := ih
    have hshow : List.Forall₂ Wheel.Shows ws (ds.map Dial.all) :=
      List.forall₂_map_right_iff.mpr (hrest.imp fun _ _ hd => hd.1)
    obtain ⟨hfirst, hreset⟩ := carry_walks hshow
    -- the next reading of this wheel comes with the first readings of the wheels behind it
    have hblocks : ∀ post : List α,
        (post.flatMap fun a => (readings (ds.map Dial.all)).map (a :: ·)).head? =
          post.head?.map (· :: ws.map Wheel.first) := by
      intro post
      cases post with
      | nil => rfl
      | cons a post =>
        simp only [List.flatMap_cons, List.head?_append, List.head?_map, hfirst, Option.map_some,
          Option.some_or, List.head?_cons]
    refine ⟨?_, ?_⟩
    · rw [readingsFrom, List.head?_append, List.head?_map, hhead]
      rfl
    · rw [readingsFrom]
      refine (walksTo_append _ _ _).mpr ⟨?_, ?_⟩
      · apply walksTo_map (carry ws)
        · intro as _
          rw [carry, hw.2.1, Option.or_none, Option.or_none, hblocks]
        · exact hwalk
      · apply walksTo_flatMap
        intro pre a post hlater
        apply walksTo_map (carry ws)
        · intro as _
          rw [carry, walksTo_at hw.2.2 hlater, Option.or_none, hblocks, Option.or_none]
        · exact hreset

/-! ## Neighbours in a sorted list -/

/-- In a sorted list the element behind another one is the next one in the order. -/
theorem successive_iff {r : α → α → Prop} (hasymm : ∀ a b, r a b → ¬ r b a) {l : List α}
    (hsorted : l.Pairwise r) {a b : α} : (∃ pre post, l = pre ++ a :: b :: post) ↔
      a ∈ l ∧ b ∈ l ∧ r a b ∧ ∀ c ∈ l, ¬ (r a c ∧ r c b) := by
  have hirrefl : ∀ a, ¬ r a a := fun a h => hasymm a a h h
  constructor
  · rintro ⟨pre, post, rfl⟩
    obtain ⟨_, htail, hpre⟩ := List.pairwise_append.mp hsorted
    obtain ⟨ha, hrest⟩ := List.pairwise_cons.mp htail
    obtain ⟨hb, _⟩ := List.pairwise_cons.mp hrest
    refine ⟨by simp, by simp, ha b List.mem_cons_self, fun c hc hbetween => ?_⟩
    rcases List.mem_append.mp hc with hc | hc
    · exact hasymm _ _ hbetween.1 (hpre c hc a List.mem_cons_self)
    rcases List.mem_cons.mp hc with rfl | hc
    · exact hirrefl _ hbetween.1
    rcases List.mem_cons.mp hc with rfl | hc
    · exact hirrefl _ hbetween.2
    · exact hasymm _ _ hbetween.2 (hb c hc)
  · rintro ⟨ha, hb, hab, hnone⟩
    obtain ⟨pre, rest, rfl⟩ := List.append_of_mem ha
    obtain ⟨_, htail, hpre⟩ := List.pairwise_append.mp hsorted
    obtain ⟨hafter, hrest⟩ := List.pairwise_cons.mp htail
    rcases List.mem_append.mp hb with hb | hb
    · exact absurd (hpre b hb a List.mem_cons_self) (hasymm _ _ hab)
    rcases List.mem_cons.mp hb with rfl | hb
    · exact absurd hab (hirrefl _)
    cases rest with
    | nil => exact absurd hb List.not_mem_nil
    | cons c rest =>
      rcases List.mem_cons.mp hb with rfl | hb
      · exact ⟨pre, rest, rfl⟩
      · have hac := hafter c List.mem_cons_self
        have hcb := (List.pairwise_cons.mp hrest).1 b hb
        exact absurd ⟨hac, hcb⟩ (hnone c (by simp))

theorem exists_of_forall₂ {R : α → β → Prop} {as : List α} {bs : List β} (h : List.Forall₂ R as bs)
    {a : α} (ha : a ∈ as) : ∃ b ∈ bs, R a b := by
  induction h with
  | nil => exact absurd ha List.not_mem_nil
  | @cons a' b as bs hab _ ih =>
    rcases List.mem_cons.mp ha with rfl | ha
    · exact ⟨b, List.mem_cons_self, hab⟩
    · obtain ⟨c, hc, hac⟩ := ih ha
      exact ⟨c, List.mem_cons_of_mem b hc, hac⟩

section Generators
universe w
variable {σ : Type v} {ε : Type w} [DecidableEq ε]

/-- The states of a generator until it signals `stop`: `none` when `k` steps are too few
or it fails in another way. -/
def exhaust (next : σ → Except ε σ) (stop : ε) : Nat → σ → Option (List σ)
  | 0, _ => none
  | k + 1, s =>
    match next s with
    | .ok s' => (exhaust next stop k s').map (s :: ·)
    | .error e => if e = stop then some [s] else none

theorem exhaust_head {next : σ → Except ε σ} {stop : ε} {k : Nat} {s : σ} {out : List σ}
    (hout : exhaust next stop k s = some out) : ∃ rest, out = s :: rest := by
  cases k with
  | zero => cases hout
  | succ k =>
    rw [exhaust] at hout
    split at hout
    · obtain ⟨rest, _, rfl⟩ := Option.map_eq_some_iff.mp hout
      exact ⟨rest, rfl⟩
    · split at hout
      · obtain rfl := Option.some.inj hout
        exact ⟨[], rfl⟩
      · cases hout

theorem exhaust_mono {next : σ → Except ε σ} {stop : ε} {k k' : Nat} (hk : k ≤ k') {s : σ}
    {out : List σ} (h : exhaust next stop k s = some out) : exhaust next stop k' s = some out := by
  induction k generalizing k' s out with
  | zero => simp [exhaust] at h
  | succ k ih =>
    obtain ⟨k', rfl⟩ := Nat.exists_eq_succ_of_ne_zero (Nat.ne_zero_of_lt hk)
    rw [exhaust] at h ⊢
    cases hs : next s with
    | ok s' =>
      rw [hs] at h
      obtain ⟨rest, hrest, rfl⟩ := Option.map_eq_some_iff.mp h
      simp only [ih (Nat.le_of_succ_le_succ hk) hrest, Option.map_some]
    | error e =>
      rw [hs] at h
      exact h

theorem exhaust_of_agrees {next next' : σ → Except ε σ} {stop : ε}
    (hok : ∀ s s', next s = .ok s' → next' s = .ok s')
    (hstop : ∀ s, next s = .error stop → next' s = .error stop) {k : Nat} {s : σ} {out : List σ}
    (h : exhaust next stop k s = some out) : exhaust next' stop k s = some out := by
  induction k generalizing s out with
  | zero => simp [exhaust] at h
  | succ k ih =>
    rw [exhaust] at h ⊢
    cases hs : next s with
    | ok s' =>
      rw [hs] at h
      obtain ⟨rest, hrest, rfl⟩ := Option.map_eq_some_iff.mp h
      simp only [hok s s' hs, ih hrest, Option.map_some]
    | error e =>
      rw [hs] at h
      by_cases he : e = stop
      · subst he
        rw [hstop s hs]
        exact h
      · simp [he] at h

/-- A generator that simulates a walk is exhausted after the walk and has passed a state
for each of its elements. -/
theorem exhaust_follows {R : α → σ → Prop} {step : α → Option α} {next : σ → Except ε σ}
    {stop : ε} {a : α} {l : List α} {s : σ} (hw : WalksTo step (a :: l) none)
    (hstep : ∀ b ∈ a :: l, ∀ b' s, R b s → step b = some b' → ∃ s', next s = .ok s' ∧ R b' s')
    (hstop : ∀ b ∈ a :: l, ∀ s, R b s → step b = none → next s = .error stop)
    (h0 : R a s) {k : Nat} (hk : l.length < k) :
    ∃ out, exhaust next stop k s = some out ∧ List.Forall₂ R (a :: l) out := by
  induction l generalizing a s k with
  | nil =>
    obtain ⟨k, rfl⟩ := Nat.exists_eq_succ_of_ne_zero (Nat.ne_of_gt hk)
    refine ⟨[s], ?_, List.Forall₂.cons h0 List.Forall₂.nil⟩
    rw [exhaust, hstop a List.mem_cons_self s h0 hw.1]
    exact if_pos rfl
  | cons b l ih =>
    obtain ⟨k, rfl⟩ := Nat.exists_eq_succ_of_ne_zero (Nat.ne_zero_of_lt hk)
    obtain ⟨s', hs, hR⟩ := hstep a List.mem_cons_self b s h0 hw.1
    obtain ⟨out, hout, hall⟩ := ih hw.2 (fun c hc => hstep c (List.mem_cons_of_mem a hc))
      (fun c hc => hstop c (List.mem_cons_of_mem a hc)) hR (Nat.lt_of_succ_lt_succ hk)
    refine ⟨s :: out, ?_, List.Forall₂.cons h0 hall⟩
    rw [exhaust, hs]
    simp only [hout, Option.map_some]

section Rising
variable {κ : Type w} [LinearOrder κ] {next : σ → Except ε σ} {stop : ε} {I : σ → Prop} {key : σ → κ}

theorem exhaust_of_rising {l : List κ} (hkey : ∀ s, I s → key s ∈ l)
    (hnext : ∀ s, I s → next s = .error stop ∨ ∃ s', next s = .ok s' ∧ I s' ∧ key s < key s') {k : Nat}
    {s : σ} (hs : I s) (hk : l.countP (key s < ·) < k) : ∃ out, exhaust next stop k s = some out ∧
      (∀ t ∈ out, I t ∧ key s ≤ key t) ∧ (out.map key).Pairwise (· < ·) := by
  induction k generalizing s with
  | zero => exact absurd hk (Nat.not_lt_zero _)
  | succ k ih =>
    rw [exhaust]
    rcases hnext s hs with hstop | ⟨s', hs', hI, hlt⟩
    · rw [hstop]
      refine ⟨[s], if_pos rfl, fun t ht => ?_, List.pairwise_singleton _ _⟩
      rw [List.mem_singleton.mp ht]
      exact ⟨hs, le_refl _⟩
    · have hfewer : l.countP (key s' < ·) < l.countP (key s < ·) := by
        obtain ⟨pre, post, rfl⟩ := List.append_of_mem (hkey s' hI)
        have hmono : ∀ l : List κ, l.countP (key s' < ·) ≤ l.countP (key s < ·) := by
          intro l
          apply List.countP_mono_left
          intro c _ hc
          exact decide_eq_true (hlt.trans (of_decide_eq_true hc))
        have hpre := hmono pre
        have hpost := hmono post
        have hcount : (key s' :: post).countP (key s < ·) = post.countP (key s < ·) + 1 :=
          List.countP_cons_of_pos (decide_eq_true hlt)
        rw [List.countP_append, List.countP_append, List.countP_cons_of_neg (by simp), hcount]
        omega
      obtain ⟨out, hout, hall, hrising⟩ := ih hI (Nat.lt_of_lt_of_le hfewer (Nat.le_of_lt_succ hk))
      rw [hs']
      refine ⟨s :: out, congrArg (Option.map (s :: ·)) hout, fun t ht => ?_, ?_⟩
      · rcases List.mem_cons.mp ht with rfl | ht
        · exact ⟨hs, le_refl _⟩
        · exact ⟨(hall t ht).1, le_of_lt (lt_of_lt_of_le hlt (hall t ht).2)⟩
      · rw [List.map_cons, List.pairwise_cons]
        refine ⟨fun c hc => ?_, hrising⟩
        obtain ⟨t, ht, rfl⟩ := List.mem_map.mp hc
        exact lt_of_lt_of_le hlt (hall t ht).2

theorem mem_exhaust_of_least {c : κ} (hnext : ∀ s, I s → key s < c →
      ∃ s', next s = .ok s' ∧ I s' ∧ key s' ≤ c) {k : Nat} {s : σ} {out : List σ}
    (hout : exhaust next stop k s = some out) (hs : I s) (hle : key s ≤ c) : c ∈ out.map key := by
  induction k generalizing s out with
  | zero => cases hout
  | succ k ih =>
    rcases lt_or_eq_of_le hle with hlt | rfl
    · obtain ⟨s', hs', hI, hle'⟩ := hnext s hs hlt
      rw [exhaust, hs'] at hout
      obtain ⟨rest, hrest, rfl⟩ := Option.map_eq_some_iff.mp hout
      exact List.mem_cons_of_mem _ (ih hrest hI hle')
    · obtain ⟨rest, rfl⟩ := exhaust_head hout
      exact List.mem_cons_self

end Rising

/-- The states of a generator that stops are those it reaches. -/
theorem mem_exhaust_iff {next : σ → Except ε σ} {stop : ε} {k : Nat} {s : σ} {out : List σ}
    (h : exhaust next stop k s = some out) (t : σ) :
    t ∈ out ↔ Relation.ReflTransGen (fun a b => next a = .ok b) s t := by
  induction k generalizing s out with
  | zero => simp [exhaust] at h
  | succ k ih =>
    rw [exhaust] at h
    rw [Relation.ReflTransGen.cases_head_iff]
    cases hs : next s with
    | ok s' =>
      rw [hs] at h
      obtain ⟨rest, hrest, rfl⟩ := Option.map_eq_some_iff.mp h
      rw [List.mem_cons, ih hrest]
      simp [eq_comm]
    | error e =>
      rw [hs] at h
      simp only [Option.ite_none_right_eq_some, Option.some.injEq] at h
      obtain ⟨_, rfl⟩ := h
      simp [eq_comm]

end Generators

end Period.Enumeration
