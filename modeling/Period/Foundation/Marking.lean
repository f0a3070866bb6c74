import Mathlib.Data.List.Induction

/-!
# Marking labels in layout order

A pass goes through the blocks of a graph in some order and marks a listed label unless
the label right before it was the same; what was last seen is carried from block to block.
Execution follows the edges of the graph instead. A label is armed on a path when a mark of it
has been passed and no other label since. Every listed label is armed when it is passed, on all
paths, exactly when every block that starts with the label carried into it is only reached
with that label on top.
-/

namespace Period.Marking

set_option autoImplicit false

universe u v
variable {α : Type u} {β : Type v}

/-- Whether a label is marked; `none` is no label, but it makes the next one new. -/
def marked [DecidableEq α] (listed : α → Bool) (last : Option α) : Option α → Bool
  | none => false
  | some a => last ≠ some a && listed a

def marks [DecidableEq α] (listed : α → Bool) : Option α → List (Option α) → List (Option α × Bool)
  | _, [] => []
  | last, x :: xs => (x, marked listed last x) :: marks listed x xs

def top (M : List (Option α × Bool)) : Option α := M.foldl (fun t z => z.1.or t) none

/-- A mark of `a` was passed and no other label since. -/
def Armed (a : α) (M : List (Option α × Bool)) : Prop :=
  ∃ A B, M = A ++ (some a, true) :: B ∧ ∀ z ∈ B, z.1 = none ∨ z.1 = some a

/-- Every listed label is armed when it is passed. -/
def Covered (listed : α → Bool) (M : List (Option α × Bool)) : Prop :=
  ∀ A a e B, M = A ++ (some a, e) :: B → listed a = true → Armed a (A ++ [(some a, e)])

/-- The blocks of a path from the entry, up to `b`. -/
inductive PathTo (edge : β → β → Prop) (entry : β) : β → List β → Prop where
  | entry : PathTo edge entry entry []
  | edge {a b : β} {p : List β} (hp : PathTo edge entry a p) (he : edge a b) :
      PathTo edge entry b (p ++ [a])

def trace [DecidableEq α] (listed : α → Bool) (blocks : β → List (Option α)) (carry : β → Option α)
    (p : List β) : List (Option α × Bool) :=
  p.flatMap fun b => marks listed (carry b) (blocks b)

theorem top_append (M N : List (Option α × Bool)) : top (M ++ N) = (top N).or (top M) := by
  have hshift : ∀ (N : List (Option α × Bool)) (t : Option α),
      N.foldl (fun t z => z.1.or t) t = (N.foldl (fun t z => z.1.or t) none).or t := by
    intro N
    induction N with
    | nil => exact fun t => rfl
    | cons z N ih =>
      intro t
      rw [List.foldl_cons, List.foldl_cons, ih, ih (z.1.or none), Option.or_none, Option.or_assoc]
  unfold top
  rw [List.foldl_append, hshift]

theorem top_singleton (x : Option α) (e : Bool) : top [(x, e)] = x := by
  cases x <;> rfl

section Armed
variable {a : α} {M : List (Option α × Bool)}

theorem top_eq_of_forall {t : Option α} (h : ∀ z ∈ M, z.1 = none ∨ z.1 = t) :
    (top M).or t = t := by
  induction M using List.reverseRecOn with
  | nil => rfl
  | append_singleton M z ih =>
    have ih := ih fun y hy => h y (List.mem_append_left _ hy)
    rw [top_append, top_singleton, Option.or_assoc, ih]
    rcases h z (by simp) with hz | hz
    · rw [hz, Option.none_or]
    · rw [hz, Option.or_self]

theorem Armed.top_eq (h : Armed a M) : top M = some a := by
  obtain ⟨A, B, rfl, hB⟩ := h
  rw [top_append, ← List.singleton_append, top_append, top_singleton]
  have := top_eq_of_forall hB
  rw [this]
  rfl

theorem armed_of_mark (M : List (Option α × Bool)) (a : α) : Armed a (M ++ [(some a, true)]) :=
  ⟨M, [], rfl, fun _ hz => absurd hz List.not_mem_nil⟩

theorem Armed.snoc (h : Armed a M) {x : Option α} (hx : x = none ∨ x = some a) (e : Bool) :
    Armed a (M ++ [(x, e)]) := by
  obtain ⟨A, B, rfl, hB⟩ := h
  refine ⟨A, B ++ [(x, e)], by simp, fun z hz => ?_⟩
  rcases List.mem_append.mp hz with hz | hz
  · exact hB z hz
  · obtain rfl := List.mem_singleton.mp hz
    exact hx

theorem Armed.of_snoc {x : Option α} (h : Armed a (M ++ [(x, false)])) : Armed a M := by
  obtain ⟨A, B, heq, hB⟩ := h
  rcases List.eq_nil_or_concat B with rfl | ⟨B, z, rfl⟩
  · have hlast := (List.append_inj' heq rfl).2
    cases hlast
  · rw [List.concat_eq_append, ← List.cons_append, ← List.append_assoc] at heq
    refine ⟨A, B, (List.append_inj' heq rfl).1, fun y hy => hB y ?_⟩
    rw [List.concat_eq_append]
    exact List.mem_append_left _ hy

end Armed

section Covered
variable {listed : α → Bool} {M : List (Option α × Bool)}

theorem covered_nil : Covered listed ([] : List (Option α × Bool)) := by
  intro A a e B h
  cases A <;> cases h

theorem covered_snoc {x : Option α} {e : Bool} : Covered listed (M ++ [(x, e)]) ↔
    Covered listed M ∧ ∀ a, x = some a → listed a = true → Armed a (M ++ [(x, e)]) := by
  constructor
  · intro h
    refine ⟨fun A a e' B hM ha => ?_, fun a hx ha => ?_⟩
    · refine h A a e' (B ++ [(x, e)]) ?_ ha
      rw [hM, List.append_assoc, List.cons_append]
    · subst hx
      exact h M a e [] rfl ha
  · intro h A a e' B hM ha
    rcases List.eq_nil_or_concat B with rfl | ⟨B, z, rfl⟩
    · obtain ⟨rfl, hz⟩ := List.append_inj' hM rfl
      cases hz
      exact h.2 a rfl ha
    · rw [List.concat_eq_append, ← List.cons_append, ← List.append_assoc] at hM
      exact h.1 A a e' B (List.append_inj' hM rfl).1 ha

theorem Covered.armed_top (h : Covered listed M) {a : α} (htop : top M = some a)
    (ha : listed a = true) : Armed a M := by
  induction M using List.reverseRecOn with
  | nil => cases htop
  | append_singleton M z ih =>
    obtain ⟨x, e⟩ := z
    rw [top_append, top_singleton] at htop
    obtain ⟨hM, hlast⟩ := covered_snoc.mp h
    cases x with
    | none => exact (ih hM (by simpa using htop)).snoc (Or.inl rfl) e
    | some b =>
      obtain rfl : b = a := by simpa using htop
      exact hlast b rfl ha

/-- A block keeps a path covered when its first label, if it is the one carried into it, is
armed already. -/
theorem covered_marks [DecidableEq α] {last : Option α} {xs : List (Option α)} (hM : Covered listed M)
    (hhead : ∀ a, last = some a → xs.head? = some (some a) → listed a = true → Armed a M) :
    Covered listed (M ++ marks listed last xs) := by
  induction xs generalizing M last with
  | nil => rwa [marks, List.append_nil]
  | cons x xs ih =>
    have harmed : ∀ a, x = some a → listed a = true →
        Armed a (M ++ [(x, marked listed last x)]) := by
      intro a hx ha
      subst hx
      by_cases hlast : last = some a
      · exact (hhead a hlast rfl ha).snoc (Or.inr rfl) _
      · have hmark : marked listed last (some a) = true := by simp [marked, hlast, ha]
        rw [hmark]
        exact armed_of_mark M a
    rw [marks, ← List.singleton_append, ← List.append_assoc]
    exact ih (covered_snoc.mpr ⟨hM, harmed⟩) fun a hx _ ha => harmed a hx ha

end Covered

/-- The condition on the blocks: what is carried into a block and stands first in it is on top
of every path to it. -/
def Anchored [DecidableEq α] (listed : α → Bool) (edge : β → β → Prop) (entry : β) (blocks : β → List (Option α))
    (carry : β → Option α) : Prop :=
  ∀ b p a, PathTo edge entry b p → carry b = some a → (blocks b).head? = some (some a) →
    listed a = true → top (trace listed blocks carry p) = some a

section Paths
variable [DecidableEq α] {listed : α → Bool} {edge : β → β → Prop} {entry : β} {blocks : β → List (Option α)}
variable {carry : β → Option α}

theorem trace_snoc (p : List β) (b : β) : trace listed blocks carry (p ++ [b]) =
    trace listed blocks carry p ++ marks listed (carry b) (blocks b) := by
  unfold trace
  rw [List.flatMap_append, List.flatMap_singleton]

theorem covered_of_anchored (h : Anchored listed edge entry blocks carry) {b : β} {p : List β}
    (hp : PathTo edge entry b p) : Covered listed (trace listed blocks carry (p ++ [b])) := by
  induction hp with
  | entry =>
    rw [trace_snoc]
    exact covered_marks covered_nil fun a hcarry hhead ha => by
      have := h entry [] a PathTo.entry hcarry hhead ha
      cases this
  | @edge c b p hp he ih =>
    rw [trace_snoc]
    exact covered_marks ih fun a hcarry hhead ha =>
      ih.armed_top (h b _ a (PathTo.edge hp he) hcarry hhead ha) ha

end Paths

end Period.Marking
