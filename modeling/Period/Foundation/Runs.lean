import Mathlib.Data.List.Basic
import Mathlib.Order.MinMax

/-!
# Runs of a step function

A run is a list of labels; each label makes one step. An invariant that a step keeps
under a condition on the label and the state before it holds throughout every run
whose steps meet the condition.
-/

namespace Period.Runs

set_option autoImplicit false

universe u v
variable {α : Type u} {σ : Type v} (step : α → σ → σ)

def run : List α → σ → σ
  | [], s => s
  | a :: as, s => run as (step a s)

/-- Every step of the run meets `C` in the state before it. -/
def Meets (C : α → σ → Prop) : List α → σ → Prop
  | [], _ => True
  | a :: as, s => C a s ∧ Meets C as (step a s)

/-- Every state of the run, the first and the last included, has `P`. -/
def Throughout (P : σ → Prop) : List α → σ → Prop
  | [], s => P s
  | a :: as, s => P s ∧ Throughout P as (step a s)

variable {step} {C D : α → σ → Prop} {I P : σ → Prop}

instance Meets.decidable [∀ a s, Decidable (C a s)] :
    ∀ (as : List α) (s : σ), Decidable (Meets step C as s)
  | [], _ => inferInstanceAs (Decidable True)
  | _ :: as, _ =>
    have := fun s => Meets.decidable as s
    inferInstanceAs (Decidable (_ ∧ _))

theorem run_append (as bs : List α) (s : σ) : run step (as ++ bs) s = run step bs (run step as s) := by
  induction as generalizing s with
  | nil => rfl
  | cons a as ih => exact ih (step a s)

theorem meets_append {as bs : List α} {s : σ} :
    Meets step C (as ++ bs) s ↔ Meets step C as s ∧ Meets step C bs (run step as s) := by
  induction as generalizing s with
  | nil => exact ⟨fun h => ⟨trivial, h⟩, fun h => h.2⟩
  | cons a as ih => exact (and_congr_right fun _ => ih).trans and_assoc.symm

theorem Meets.and {as : List α} {s : σ} (hC : Meets step C as s) (hD : Meets step D as s) :
    Meets step (fun a s => C a s ∧ D a s) as s := by
  induction as generalizing s with
  | nil => trivial
  | cons a as ih => exact ⟨⟨hC.1, hD.1⟩, ih hC.2 hD.2⟩

theorem meets_true (as : List α) (s : σ) : Meets step (fun _ _ => True) as s := by
  induction as generalizing s with
  | nil => trivial
  | cons a as ih => exact ⟨trivial, ih (step a s)⟩

theorem meets_of_forall {A : α → Prop} {as : List α} (h : ∀ a ∈ as, A a) (s : σ) :
    Meets step (fun a _ => A a) as s := by
  induction as generalizing s with
  | nil => trivial
  | cons a as ih =>
    exact ⟨h a List.mem_cons_self, ih (fun b hb => h b (List.mem_cons_of_mem a hb)) (step a s)⟩

theorem throughout_of_inv (hP : ∀ s, I s → P s) (hstep : ∀ a s, I s → C a s → I (step a s))
    {as : List α} {s : σ} (hs : I s) (has : Meets step C as s) : Throughout step P as s := by
  induction as generalizing s with
  | nil => exact hP s hs
  | cons a as ih => exact ⟨hP s hs, ih (hstep a s hs has.1) has.2⟩

theorem Throughout.last {as : List α} {s : σ} (h : Throughout step P as s) : P (run step as s) := by
  induction as generalizing s with
  | nil => exact h
  | cons a as ih => exact ih h.2

theorem run_of_inv (hstep : ∀ a s, I s → C a s → I (step a s)) {as : List α} {s : σ} (hs : I s)
    (has : Meets step C as s) : I (run step as s) :=
  (throughout_of_inv (fun _ h => h) hstep hs has).last

/-- A condition that an invariant gives may be assumed. -/
theorem meets_of_inv (hC : ∀ a s, I s → D a s → C a s) (hstep : ∀ a s, I s → D a s → I (step a s))
    {as : List α} {s : σ} (hs : I s) (has : Meets step D as s) : Meets step C as s := by
  induction as generalizing s with
  | nil => trivial
  | cons a as ih => exact ⟨hC a s hs has.1, ih (hstep a s hs has.1) has.2⟩

/-- A run is done once it has as many steps as the rank of its start. -/
theorem run_ends {Done : σ → Prop} {rank : σ → Nat} (hstep : ∀ a s, I s → C a s → I (step a s))
    (hdone : ∀ a s, Done s → Done (step a s)) (hzero : ∀ s, I s → rank s = 0 → Done s)
    (hrank : ∀ a s, I s → C a s → Done s ∨ rank (step a s) < rank s) {as : List α} {s : σ} (hs : I s)
    (has : Meets step C as s) (hlen : rank s ≤ as.length) : Done (run step as s) := by
  induction as generalizing s with
  | nil => exact hzero s hs (Nat.le_zero.mp hlen)
  | cons a as ih =>
    rcases hrank a s hs has.1 with h | hlt
    · exact run_of_inv (I := Done) (fun a s h _ => hdone a s h) h (meets_true (a :: as) s)
    · exact ih (hstep a s hs has.1) has.2 (Nat.le_of_lt_succ (Nat.lt_of_lt_of_le hlt hlen))

/-- What a run has in its last state was there at the start or came in with a label. -/
theorem origin_of_run {ρ : Type v} {mem : ρ → σ → Prop} {born : α → ρ → Prop}
    (hstep : ∀ a s p, mem p (step a s) → born a p ∨ mem p s) {as : List α} {s : σ} {p : ρ}
    (h : mem p (run step as s)) : (∃ a ∈ as, born a p) ∨ mem p s := by
  induction as generalizing s with
  | nil => exact Or.inr h
  | cons a as ih =>
    rcases ih h with ⟨b, hb, hborn⟩ | hmem
    · exact Or.inl ⟨b, List.mem_cons_of_mem a hb, hborn⟩
    · rcases hstep a s p hmem with hborn | hmem
      · exact Or.inl ⟨a, List.mem_cons_self, hborn⟩
      · exact Or.inr hmem

/-- A run that only adds has in its last state what was there and what came in. -/
theorem mem_run_iff {ρ : Type v} {mem : ρ → σ → Prop} {born : α → ρ → Prop}
    (hstep : ∀ a s p, mem p (step a s) ↔ mem p s ∨ born a p) {as : List α} {s : σ} {p : ρ} :
    mem p (run step as s) ↔ mem p s ∨ ∃ a ∈ as, born a p := by
  induction as generalizing s with
  | nil =>
    have hnone : ¬ ∃ a ∈ ([] : List α), born a p := by simp
    exact (or_iff_left hnone).symm
  | cons a as ih =>
    refine (@ih (step a s)).trans ?_
    rw [hstep, or_assoc, List.exists_mem_cons_iff]

/-- The largest of a list and a first value bounds them all and is one of them. -/
theorem foldl_max_spec [LinearOrder α] (l : List α) (a : α) :
    (∀ t ∈ a :: l, t ≤ l.foldl max a) ∧ l.foldl max a ∈ a :: l := by
  induction l generalizing a with
  | nil => simp
  | cons b l ih =>
    obtain ⟨hle, hmem⟩ := ih (max a b)
    have hmax := hle _ List.mem_cons_self
    rw [List.foldl_cons]
    refine ⟨fun t ht => ?_, ?_⟩
    · rcases List.mem_cons.mp ht with rfl | ht
      · exact le_trans (le_max_left t b) hmax
      · rcases List.mem_cons.mp ht with rfl | ht
        · exact le_trans (le_max_right a t) hmax
        · exact hle t (List.mem_cons_of_mem _ ht)
    · rcases List.mem_cons.mp hmem with heq | hmem
      · rw [heq]
        rcases max_choice a b with hab | hab <;> simp [hab]
      · exact List.mem_cons_of_mem a (List.mem_cons_of_mem b hmem)

end Period.Runs
