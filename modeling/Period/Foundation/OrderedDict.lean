import Mathlib.Data.List.Nodup

/-!
# Dictionaries in insertion order

A key that is set again keeps its place; `popFirst` takes the oldest entry.
-/

namespace Period

set_option autoImplicit false

universe u v

structure OrderedDict (κ : Type u) (ν : Type v) where
  entries : List (κ × ν)
  nodup : (entries.map Prod.fst).Nodup

namespace OrderedDict
variable {κ : Type u} {ν : Type v}

def empty : OrderedDict κ ν := ⟨[], List.nodup_nil⟩

def keys (d : OrderedDict κ ν) : List κ := d.entries.map Prod.fst

def popFirst (d : OrderedDict κ ν) : Option ((κ × ν) × OrderedDict κ ν) :=
  match d with
  | ⟨[], _⟩ => none
  | ⟨x :: rest, h⟩ => some (x, ⟨rest, (List.nodup_cons.mp h).2⟩)

section Set
variable [DecidableEq κ]

def get? (d : OrderedDict κ ν) (k : κ) : Option ν := (d.entries.find? fun x => x.1 = k).map Prod.snd

theorem map_fst_replace (l : List (κ × ν)) (k : κ) (x : ν) :
    (l.map fun y => if y.1 = k then (k, x) else y).map Prod.fst = l.map Prod.fst := by
  rw [List.map_map]
  apply List.map_congr_left
  intro y _
  by_cases h : y.1 = k <;> simp [h]

def set (d : OrderedDict κ ν) (k : κ) (x : ν) : OrderedDict κ ν :=
  if h : k ∈ d.keys then
    ⟨d.entries.map fun y => if y.1 = k then (k, x) else y, by
      rw [map_fst_replace]
      exact d.nodup⟩
  else
    ⟨d.entries ++ [(k, x)], by
      rw [List.map_append, List.nodup_append]
      refine ⟨d.nodup, List.nodup_singleton k, fun a ha b hb hab => h ?_⟩
      obtain rfl : b = k := List.mem_singleton.mp hb
      rw [← hab]
      exact ha⟩

theorem mem_keys_set {d : OrderedDict κ ν} {k a : κ} {x : ν} :
    a ∈ (d.set k x).keys ↔ a = k ∨ a ∈ d.keys := by
  unfold set
  split
  · next h =>
    unfold keys
    rw [map_fst_replace]
    constructor
    · exact Or.inr
    · intro ha
      rcases ha with rfl | ha
      · exact h
      · exact ha
  · unfold keys
    rw [List.map_append, List.mem_append, or_comm]
    exact or_congr_left List.mem_singleton

theorem mem_entries_of_set {d : OrderedDict κ ν} {k : κ} {x : ν} {y : κ × ν}
    (h : y ∈ (d.set k x).entries) : y = (k, x) ∨ y ∈ d.entries := by
  unfold set at h
  split at h
  · obtain ⟨z, hz, rfl⟩ := List.mem_map.mp h
    split
    · exact Or.inl rfl
    · exact Or.inr hz
  · rcases List.mem_append.mp h with h | h
    · exact Or.inr h
    · exact Or.inl (List.mem_singleton.mp h)

theorem get?_eq_none {d : OrderedDict κ ν} {k : κ} : d.get? k = none ↔ k ∉ d.keys := by
  unfold get? keys
  rw [Option.map_eq_none_iff, List.find?_eq_none]
  simp only [decide_eq_true_eq, List.mem_map, not_exists, not_and]

theorem mem_entries_set {d : OrderedDict κ ν} {k : κ} {x : ν} {y : κ × ν} :
    y ∈ (d.set k x).entries ↔ y = (k, x) ∨ y ∈ d.entries ∧ y.1 ≠ k := by
  unfold set
  split
  · next h =>
    constructor
    · intro hy
      obtain ⟨z, hz, rfl⟩ := List.mem_map.mp hy
      by_cases hzk : z.1 = k
      · rw [if_pos hzk]
        exact Or.inl rfl
      · rw [if_neg hzk]
        exact Or.inr ⟨hz, hzk⟩
    · rintro (rfl | ⟨hy, hyk⟩)
      · obtain ⟨z, hz, hzk⟩ := List.mem_map.mp h
        exact List.mem_map.mpr ⟨z, hz, if_pos hzk⟩
      · exact List.mem_map.mpr ⟨y, hy, if_neg hyk⟩
  · next h =>
    rw [List.mem_append, List.mem_singleton, or_comm, or_congr_right]
    refine ⟨fun hy => ⟨hy, fun hyk => h ?_⟩, And.left⟩
    rw [← hyk]
    exact List.mem_map_of_mem hy

theorem get?_eq_some {d : OrderedDict κ ν} {k : κ} {x : ν} :
    d.get? k = some x ↔ (k, x) ∈ d.entries := by
  unfold get?
  rw [Option.map_eq_some_iff]
  constructor
  · rintro ⟨y, hfind, rfl⟩
    obtain rfl : y.1 = k := by simpa using List.find?_some hfind
    exact List.mem_of_find?_eq_some hfind
  · intro hin
    obtain ⟨y, hfind⟩ : ∃ y, d.entries.find? (fun y => y.1 = k) = some y :=
      Option.isSome_iff_exists.mp (List.find?_isSome.mpr ⟨_, hin, decide_eq_true rfl⟩)
    have hy : y.1 = k := by simpa using List.find?_some hfind
    have heq : y = (k, x) :=
      List.inj_on_of_nodup_map d.nodup (List.mem_of_find?_eq_some hfind) hin hy
    exact ⟨y, hfind, congrArg Prod.snd heq⟩

def setAll (d : OrderedDict κ ν) (l : List (κ × ν)) : OrderedDict κ ν :=
  l.foldl (fun d y => d.set y.1 y.2) d

theorem mem_keys_setAll {d : OrderedDict κ ν} {l : List (κ × ν)} {a : κ} :
    a ∈ (d.setAll l).keys ↔ a ∈ d.keys ∨ a ∈ l.map Prod.fst := by
  induction l generalizing d with
  | nil => simp [setAll]
  | cons y l ih =>
    rw [setAll, List.foldl_cons, ← setAll, ih, mem_keys_set, List.map_cons, List.mem_cons,
      ← or_assoc, @or_comm (a = y.1)]

theorem mem_entries_of_setAll {d : OrderedDict κ ν} {l : List (κ × ν)} {y : κ × ν}
    (h : y ∈ (d.setAll l).entries) : y ∈ d.entries ∨ y ∈ l := by
  induction l generalizing d with
  | nil => exact Or.inl h
  | cons z l ih =>
    rw [setAll, List.foldl_cons, ← setAll] at h
    rcases ih h with h | h
    · rcases mem_entries_of_set h with rfl | h
      · exact Or.inr List.mem_cons_self
      · exact Or.inl h
    · exact Or.inr (List.mem_cons_of_mem z h)

end Set

theorem entries_of_popFirst {d d' : OrderedDict κ ν} {x : κ × ν} (h : d.popFirst = some (x, d')) :
    d.entries = x :: d'.entries := by
  obtain ⟨entries, hnodup⟩ := d
  cases entries with
  | nil => cases h
  | cons y rest =>
    obtain ⟨rfl, rfl⟩ := Prod.mk.inj (Option.some.inj h)
    rfl

theorem keys_of_popFirst {d d' : OrderedDict κ ν} {x : κ × ν} (h : d.popFirst = some (x, d')) :
    d.keys = x.1 :: d'.keys := by
  rw [keys, entries_of_popFirst h]
  rfl

end OrderedDict

end Period
