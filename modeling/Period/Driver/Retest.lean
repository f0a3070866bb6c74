import Period.Driver.Reproduction
import Period.Runtime.Overrun

/-!
# Retests

When a target leaves a larger `N` or `M` than the driver has, it is started again without
a word in between: it takes its shape from what its predecessor has left, and its counts
from the pattern as it was laid out for the old shape. A child with a key point more than that
shape has finds the count of the next row's first one.
-/

namespace Period.Driver

open Bytes RowMajor
open Period.Runtime
set_option autoImplicit false

/-- What the targets of the retest loop find in the segment, one after the other, when the driver
has `N` and `M`. -/
def Retests : Nat → Nat → Mem → List Mem → Prop
  | _, _, _, [] => True
  | N, M, m, left :: lefts =>
    KeepsKp m left ∧ (N < (getInfoFromShareMemory left).A ∨ M < (getInfoFromShareMemory left).B) ∧
      Retests (max N (getInfoFromShareMemory left).A) (max M (getInfoFromShareMemory left).B) left lefts

/-- The count of the pattern for key point `k` of row `t`, and `0` beyond it. -/
def patternCount (pattern : List (List Nat)) (t k : Nat) : Nat := (pattern.getD t []).getD k 0

/-- A target with `n` threads and `m` key points runs a pattern with rows of length `M`; `kp` is
what the segment held before the pattern was written. -/
structure RunsPattern (n m M : Nat) (pattern : List (List Nat)) (kp : Nat → Nat) : Prop where
  fits : ∀ x y, pattern.flatten[x]? = some y → y ≠ 0 → x < shareMemoryArraySize ∧ y < 65536
  kept : ∀ x y, pattern.flatten[x]? = some y → Misread n m pattern.length M x → y = 0
  leftovers : ∀ x, pattern.length * M ≤ x → x < n * m → x < shareMemoryArraySize → kp x = 0

theorem retests_slots {N M : Nat} {m left : Mem} {lefts : List Mem} (h : Retests N M m lefts)
    (hleft : left ∈ lefts) : slots (schedInfo left).kp = slots (schedInfo m).kp := by
  induction lefts generalizing N M m with
  | nil => exact absurd hleft List.not_mem_nil
  | cons next lefts ih =>
    obtain ⟨hkeep, _, hrest⟩ := h
    rcases List.mem_cons.mp hleft with rfl | hleft
    · exact slots_congr hkeep
    · rw [ih hrest hleft, slots_congr hkeep]

section Shape
variable {n m M : Nat} {pattern : List (List Nat)} {kp : Nat → Nat}

theorem patternCount_eq_view (hrows : Uniform M pattern) (t k : Nat) :
    patternCount pattern t k = view pattern.length M (fun x => pattern.flatten.getD x 0) t k := by
  unfold view
  by_cases hin : t < pattern.length ∧ k < M
  · have hlen : k < pattern[t].length := by rw [hrows _ (List.getElem_mem hin.1)]; exact hin.2
    rw [if_pos hin, patternCount, List.getD_eq_getElem _ _ hin.1]
    show _ = pattern.flatten.getD (t * M + k) 0
    rw [List.getD_eq_getElem?_getD, List.getD_eq_getElem?_getD, flatten_getElem? hrows t hin.2,
      List.getElem?_eq_getElem hin.1, Option.bind_some]
  · rw [if_neg hin, patternCount]
    rcases Nat.lt_or_ge t pattern.length with ht | ht
    · have hk : M ≤ k := Nat.le_of_not_lt fun hk => hin ⟨ht, hk⟩
      rw [List.getD_eq_getElem _ _ ht, List.getD_eq_default]
      rw [hrows _ (List.getElem_mem ht)]
      exact hk
    · rw [List.getD_eq_default _ _ ht]
      rfl

theorem slots_overlay_lt (hkp : ∀ x, kp x < 65536) (x : Nat) :
    slots (overlay pattern.flatten kp) x < 65536 := by
  unfold slots overlay
  split
  · split
    · exact Nat.mod_lt _ (by decide)
    · exact hkp x
  · decide

theorem slots_overlay_eq {x : Nat} (hx : x < pattern.flatten.length)
    (hfits : ∀ y, pattern.flatten[x]? = some y → y ≠ 0 → x < shareMemoryArraySize ∧ y < 65536) :
    slots (overlay pattern.flatten kp) x = pattern.flatten.getD x 0 := by
  rw [slots_overlay_of_lt _ hx, List.getD_eq_getElem _ _ hx]
  have hfit := hfits _ (List.getElem?_eq_getElem hx)
  by_cases hzero : pattern.flatten[x] = 0
  · rw [hzero]
    split <;> rfl
  · rw [if_pos (hfit hzero).1, Nat.mod_eq_of_lt (hfit hzero).2]

/-- A target that runs the pattern has found all its counts, small enough and in the first slots. -/
theorem fits_of_views_eq (hrows : Uniform M pattern) (hkp : ∀ x, kp x < 65536)
    (h : ∀ t k, view n m (slots (overlay pattern.flatten kp)) t k =
      view pattern.length M (fun x => pattern.flatten.getD x 0) t k) {x y : Nat}
    (hy : pattern.flatten[x]? = some y) (hpos : y ≠ 0) : x < shareMemoryArraySize ∧ y < 65536 := by
  have hlen := flatten_length hrows
  obtain ⟨hx, hxy⟩ := List.getElem?_eq_some_iff.mp hy
  have hsmall : ∀ x, x < pattern.flatten.length → pattern.flatten.getD x 0 < 65536 := by
    intro x hx
    obtain ⟨t, k, ht, hk, rfl⟩ := exists_place (hlen ▸ hx)
    have hview : _ = pattern.flatten.getD (t * M + k) 0 := (h t k).trans (if_pos ⟨ht, hk⟩)
    rw [← hview, view]
    split
    · exact slots_overlay_lt hkp _
    · decide
  have hget : pattern.flatten.getD x 0 = y := by rw [List.getD_eq_getElem _ _ hx, hxy]
  refine ⟨?_, hget ▸ hsmall x hx⟩
  by_contra hfar
  -- a count behind the array would have to come from a slot inside it
  have hagree : ∀ z, z < min pattern.flatten.length shareMemoryArraySize →
      pattern.flatten.getD z 0 = slots (overlay pattern.flatten kp) z := by
    intro z hz
    have hz' : z < pattern.flatten.length := by omega
    have hlt := hsmall z hz'
    rw [List.getD_eq_getElem _ _ hz'] at hlt ⊢
    rw [slots_overlay_of_lt _ hz', if_pos (by omega), Nat.mod_eq_of_lt hlt]
  obtain ⟨t, k, ht, hk, hplace⟩ := exists_place (hlen ▸ hx)
  have hview : _ = pattern.flatten.getD (t * M + k) 0 := (h t k).trans (if_pos ⟨ht, hk⟩)
  rw [← hplace, hget, view] at hview
  by_cases hin : t < n ∧ k < m
  · rw [if_pos hin] at hview
    by_cases hslot : t * m + k < shareMemoryArraySize
    · have hlt : t * m + k < t * M + k := by omega
      have hmM : m ≤ M := by
        by_contra hgt
        have := Nat.mul_le_mul_left t (Nat.le_of_lt (Nat.lt_of_not_le hgt))
        omega
      have hmis : Misread pattern.length M n m (t * m + k) := misread_of_ne hin (Nat.ne_of_lt hlt)
      have hsource : t * m + k < min pattern.flatten.length shareMemoryArraySize := by omega
      have hzero := zero_of_views_eq hagree hmM (fun t k => (h t k).symm) hsource hmis
      rw [hagree _ hsource, hview] at hzero
      exact hpos hzero
    · rw [slots, if_neg hslot] at hview
      exact hpos hview.symm
  · rw [if_neg hin] at hview
    exact hpos hview.symm

theorem runsPattern_iff (hrows : Uniform M pattern) (hkp : ∀ x, kp x < 65536) :
    (∀ t k, view n m (slots (overlay pattern.flatten kp)) t k = patternCount pattern t k) ↔
      RunsPattern n m M pattern kp := by
  have hlen := flatten_length hrows
  have hrest : ∀ x, pattern.length * M ≤ x → slots (overlay pattern.flatten kp) x =
      if x < shareMemoryArraySize then kp x else 0 := by
    intro x hx
    have hpast : pattern.flatten[x]? = none := List.getElem?_eq_none (by omega)
    rw [slots, overlay, hpast]
  simp only [patternCount_eq_view hrows]
  constructor
  · intro h
    have hfits := fun x y => @fits_of_views_eq n m M pattern kp hrows hkp h x y
    have hfg : ∀ x, x < pattern.length * M →
        slots (overlay pattern.flatten kp) x = pattern.flatten.getD x 0 :=
      fun x hx => slots_overlay_eq (by omega) (hfits x)
    obtain ⟨hzero, hstale⟩ := (views_eq_iff_of_shape hfg).mp h
    refine ⟨hfits, fun x y hy hmis => ?_, fun x hlo hhi hx => ?_⟩
    · obtain ⟨hx, rfl⟩ := List.getElem?_eq_some_iff.mp hy
      have := hzero x (by omega) hmis
      rwa [hfg x (by omega), List.getD_eq_getElem _ _ hx] at this
    · have := hstale x hlo hhi
      rwa [hrest x hlo, if_pos hx] at this
  · intro h
    have hfg : ∀ x, x < pattern.length * M →
        slots (overlay pattern.flatten kp) x = pattern.flatten.getD x 0 :=
      fun x hx => slots_overlay_eq (by omega) (h.fits x)
    apply (views_eq_iff_of_shape hfg).mpr
    refine ⟨fun x hx hmis => ?_, fun x hlo hhi => ?_⟩
    · have hx' : x < pattern.flatten.length := by omega
      rw [hfg x hx, List.getD_eq_getElem _ _ hx']
      exact h.kept x _ (List.getElem?_eq_getElem hx') hmis
    · rw [hrest x hlo]
      split
      · next hx => exact h.leftovers x hlo hhi hx
      · rfl

end Shape

theorem schedInfo_kp_lt (m : Mem) (x : Nat) : (schedInfo m).kp x < 65536 := by
  rw [schedInfo_kp]
  exact read_lt m _ 2

theorem loadedCount_eq (loopUnwindedNum : Nat) (m : Mem) (t k : Nat) :
    loadedCount (launch loopUnwindedNum m) t k =
      if k < toInt (schedInfo m).M then
        loadYield (toInt (schedInfo m).N) (toInt (schedInfo m).M) (schedInfo m).kp
          (t * toInt (schedInfo m).M + k)
      else 0 := by
  show (if t < toInt (schedInfo m).N ∧ k < toInt (schedInfo m).M then _ else 0) = _
  by_cases hk : k < toInt (schedInfo m).M
  · rw [if_pos hk]
    by_cases ht : t < toInt (schedInfo m).N
    · rw [if_pos ⟨ht, hk⟩]
      rfl
    · rw [if_neg (fun h => ht h.1), loadYield_behind]
      have hmul := Nat.mul_le_mul_right (toInt (schedInfo m).M) (Nat.le_of_not_lt ht)
      omega
  · rw [if_neg hk, if_neg (fun h => hk h.2)]

/-- Each child yields in every run as the pattern says exactly when that is what its row holds and
the rows behind the first one begin with an empty slot. -/
theorem yieldsAlways_launch_iff {loopUnwindedNum : Nat} (hloop : 0 < loopUnwindedNum) (m : Mem)
    (pattern : List (List Nat)) :
    YieldsAlways (launch loopUnwindedNum m) (patternCount pattern) ↔
      (∀ t k, loadedCount (launch loopUnwindedNum m) t k = patternCount pattern t k) ∧
        ∀ t, t ≠ 0 → patternCount pattern t 0 = 0 := by
  simp only [loadedCount_eq]
  rw [launch, yieldsAlways_iff hloop]
  constructor
  · rintro ⟨hcount, hapart⟩
    refine ⟨fun t k => (hcount t k).symm, fun t ht => ?_⟩
    rw [hcount, Nat.add_zero, hapart t ht, ite_self]
  · rintro ⟨hcount, hfirst⟩
    refine ⟨fun t k => (hcount t k).symm, fun t ht => ?_⟩
    rcases Nat.eq_zero_or_pos (toInt (schedInfo m).M) with hM | hM
    · exact loadYield_behind (by rw [hM]; exact Nat.zero_le _)
    · rw [← hfirst t ht, ← hcount, if_pos hM, Nat.add_zero]

/-- What a target leaves on which a child has hit a third key point. -/
def grownMem : Mem := setNumber 12 4 3 (writeTest 2 2 [[0, 1], [1, 0]] fun _ => 0)

theorem grownMem_retests : Retests 2 2 (writeTest 2 2 [[0, 1], [1, 0]] fun _ => 0) [grownMem] := by
  refine ⟨fun i _ => ?_, Or.inr (by decide), trivial⟩
  have hkpAddr : kpAddr = 220 := rfl
  rw [schedInfo_kp, schedInfo_kp, grownMem]
  exact read_setNumber_frame _ _ _ _ (Or.inr (by omega))

end Period.Driver
