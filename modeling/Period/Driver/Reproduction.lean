import Period.Driver.Launch

/-!
# Reproducing a saved test

A saved pattern is written back with its number of rows as `N` and the length of its first
row as `M`. The target whose outcome was saved ran with the `N` and `M` of the driver, or,
in a retest, with those its predecessor had left. The counts arrive at the same key points
when the two shapes read the pattern alike.
-/

namespace Period.Driver

open Bytes RowMajor
open Period.Runtime
set_option autoImplicit false

def getMaxNuminPattern (pattern : List (List Nat)) : Nat :=
  pattern.foldl (fun max each => if max < each.sum then each.sum else max) 0

/-- What the reproduction branch writes for the list in the saved file; `none` is the
`IndexError` of `pattern_list[0]`. -/
def reproduce (period : Nat) (pattern : List (List Nat)) (m : Mem) : Option Mem :=
  match pattern with
  | [] => none
  | row :: _ =>
    let threadNum := pattern.length
    let KPNum := row.length
    let maxYieldNum := getMaxNuminPattern pattern
    some (memmovePatternList pattern
      (setNumber (8 + 4 * 2) 4 maxYieldNum
        (setNumber (8 + 4) 4 KPNum (setNumber 8 4 threadNum (setNumber 0 8 (period * 3 / 2) m)))))

/-- The target writes every field but `kp`. -/
def KeepsKp (m m' : Mem) : Prop :=
  ∀ i, i < shareMemoryArraySize → (schedInfo m').kp i = (schedInfo m).kp i

/-- The launches of a test, from the first one on `m`: as long as the target has left an `N` or
`M` above those of the driver, it is started again on what it has left. -/
inductive Relaunched : Nat → Nat → Mem → Mem → Prop where
  | last (N M : Nat) (m : Mem) : Relaunched N M m m
  | retest {N M : Nat} {m left saved : Mem} (hleft : KeepsKp m left)
      (hgrown : N < (getInfoFromShareMemory left).A ∨ M < (getInfoFromShareMemory left).B)
      (hrest : Relaunched (max N (getInfoFromShareMemory left).A)
        (max M (getInfoFromShareMemory left).B) left saved) : Relaunched N M m saved

/-- The count that a target has loaded into the row of the child with index `t` for its key point
`k`. What a key point behind the row finds is not asked here. -/
def loadedCount (s : Target) (t k : Nat) : Nat :=
  if t < s.numTd ∧ k < s.numKp then s.kpYield (t * s.numKp + k) else 0

def slots (kp : Nat → Nat) (i : Nat) : Nat := if i < shareMemoryArraySize then kp i else 0

def stride (pattern : List (List Nat)) : Nat := (pattern.head?.getD []).length

/-- A test that ran with `n` threads and `m` key points can be reproduced: `kp` and `kp'` are
what the segment held before the pattern was written for the test and for the reproduction. -/
structure Reproducible (n m : Nat) (pattern : List (List Nat)) (kp kp' : Nat → Nat) : Prop where
  ne_nil : pattern ≠ []
  misread : ∀ x, x < shareMemoryArraySize →
    Misread n m (toInt (pattern.length % 2 ^ 32)) (toInt (stride pattern % 2 ^ 32)) x →
      ∀ y, pattern.flatten[x]? = some y → y % 65536 = 0
  leftovers : ∀ t k,
    Beyond pattern.flatten.length n m (toInt (pattern.length % 2 ^ 32))
      (toInt (stride pattern % 2 ^ 32)) t k →
    view n m (slots (overlay pattern.flatten kp)) t k =
      view (toInt (pattern.length % 2 ^ 32)) (toInt (stride pattern % 2 ^ 32))
        (slots (overlay pattern.flatten kp')) t k

theorem loadedCount_launch (loopUnwindedNum : Nat) (m : Mem) (t k : Nat) :
    loadedCount (launch loopUnwindedNum m) t k =
      view (toInt (schedInfo m).N) (toInt (schedInfo m).M) (slots (schedInfo m).kp) t k := by
  unfold loadedCount launch traceBegin view
  split
  · next hin =>
    have hslot := (index_lt hin.2).mpr hin.1
    simp only [loadYield, slots, hslot, true_and]
  · rfl

theorem slots_congr {kp kp' : Nat → Nat} (h : ∀ i, i < shareMemoryArraySize → kp i = kp' i) :
    slots kp = slots kp' := by
  funext i
  unfold slots
  split
  · next hi => exact h i hi
  · rfl

theorem Relaunched.kp_eq {N M : Nat} {m saved : Mem} (h : Relaunched N M m saved) :
    slots (schedInfo saved).kp = slots (schedInfo m).kp := by
  induction h with
  | last => rfl
  | retest hleft _ _ ih => rw [ih, slots_congr hleft]

theorem reproduce_spec {period : Nat} {pattern : List (List Nat)} {m m' : Mem}
    (h : reproduce period pattern m = some m') :
    (schedInfo m').N = pattern.length % 2 ^ 32 ∧ (schedInfo m').M = stride pattern % 2 ^ 32 ∧
      (schedInfo m').kp = overlay pattern.flatten (schedInfo m).kp := by
  have hkpAddr : kpAddr = 220 := rfl
  cases pattern with
  | nil => cases h
  | cons row rows =>
    obtain rfl := Option.some.inj h
    refine ⟨?_, ?_, ?_⟩
    · show read _ 8 4 = _ % 256 ^ 4
      rw [read_unwritten _ _ (Or.inl (by omega)), read_setNumber_frame _ _ _ _ (Or.inl (by omega)),
        read_setNumber_frame _ _ _ _ (Or.inl (by omega)), read_setNumber]
    · show read _ 12 4 = row.length % 256 ^ 4
      rw [read_unwritten _ _ (Or.inl (by omega)), read_setNumber_frame _ _ _ _ (Or.inl (by omega)),
        read_setNumber]
    · funext i
      rw [kp_memmovePatternList]
      congr 1
      funext j
      rw [schedInfo_kp, read_setNumber_frame _ _ _ _ (Or.inr (by omega)),
        read_setNumber_frame _ _ _ _ (Or.inr (by omega)),
        read_setNumber_frame _ _ _ _ (Or.inr (by omega)),
        read_setNumber_frame _ _ _ _ (Or.inr (by omega)), schedInfo_kp]

theorem slots_overlay_of_lt {tmp : List Nat} (kp : Nat → Nat) {x : Nat} (hx : x < tmp.length) :
    slots (overlay tmp kp) x = if x < shareMemoryArraySize then tmp[x] % 65536 else 0 := by
  unfold slots overlay
  rw [List.getElem?_eq_getElem hx]

theorem views_eq_iff_reproducible {n m : Nat} {pattern : List (List Nat)} {kp kp' : Nat → Nat}
    (hne : pattern ≠ []) :
    (∀ t k, view n m (slots (overlay pattern.flatten kp)) t k =
      view (toInt (pattern.length % 2 ^ 32)) (toInt (stride pattern % 2 ^ 32))
        (slots (overlay pattern.flatten kp')) t k) ↔ Reproducible n m pattern kp kp' := by
  have hagree : ∀ x, x < pattern.flatten.length →
      slots (overlay pattern.flatten kp) x = slots (overlay pattern.flatten kp') x := by
    intro x hx
    rw [slots_overlay_of_lt _ hx, slots_overlay_of_lt _ hx]
  rw [views_eq_iff hagree]
  constructor
  · intro h
    refine ⟨hne, fun x hx hmis y hy => ?_, h.2⟩
    obtain ⟨hlt, rfl⟩ := List.getElem?_eq_some_iff.mp hy
    have hzero := h.1 x hlt hmis
    rwa [slots_overlay_of_lt _ hlt, if_pos hx] at hzero
  · intro h
    refine ⟨fun x hx hmis => ?_, h.leftovers⟩
    rw [slots_overlay_of_lt _ hx]
    split
    · next hsize => exact h.misread x hsize hmis _ (List.getElem?_eq_getElem hx)
    · rfl

/-- For rows of one length only the leftovers that the test has loaded can do harm. -/
theorem reproducible_iff_of_uniform {n m w : Nat} {pattern : List (List Nat)} {kp kp' : Nat → Nat}
    (hne : pattern ≠ []) (hrows : Uniform w pattern) (hlen : pattern.length < 2 ^ 31)
    (hw : w < 2 ^ 31) :
    Reproducible n m pattern kp kp' ↔
      (∀ x, x < shareMemoryArraySize → Misread n m pattern.length w x →
        ∀ y, pattern.flatten[x]? = some y → y % 65536 = 0) ∧
      ∀ x, x < shareMemoryArraySize → pattern.length * w ≤ x → x < n * m → kp x = 0 := by
  have hflat : pattern.flatten.length = pattern.length * w := flatten_length hrows
  have hstride : stride pattern = w := by
    cases pattern with
    | nil => exact absurd rfl hne
    | cons row rows => exact hrows row List.mem_cons_self
  have hl : toInt (stride pattern % 2 ^ 32) = w := by
    rw [hstride, Nat.mod_eq_of_lt (by omega), toInt_of_lt hw]
  have hr : toInt (pattern.length % 2 ^ 32) = pattern.length := by
    rw [Nat.mod_eq_of_lt (by omega), toInt_of_lt hlen]
  constructor
  · intro h
    refine ⟨fun x hx hmis y hy => h.misread x hx (by rwa [hr, hl]) y hy, fun x hx hlo hhi => ?_⟩
    obtain ⟨t, k, ht, hk, rfl⟩ := exists_place hhi
    have hstale := h.leftovers t k (Or.inl ⟨ht, hk, by rwa [hflat]⟩)
    have hpast : pattern.flatten[t * m + k]? = none := List.getElem?_eq_none (by rwa [hflat])
    unfold view at hstale
    rw [hr, hl, if_pos ⟨ht, hk⟩, slots, if_pos hx, overlay, hpast] at hstale
    refine hstale.trans ?_
    split
    · next hin =>
      have hslot : t * w + k < pattern.length * w := (index_lt hin.2).mpr hin.1
      rw [slots_overlay_of_lt _ (by rwa [hflat]), if_pos (by omega)]
      have hmis : Misread n m pattern.length w (t * w + k) := misread_of_ne hin (by omega)
      exact h.misread _ (by omega) (by rwa [hr, hl]) _ (List.getElem?_eq_getElem _)
    · rfl
  · intro h
    refine ⟨hne, fun x hx hmis y hy => h.1 x hx (by rwa [hr, hl] at hmis) y hy, fun t k hbeyond => ?_⟩
    rw [hr, hl] at hbeyond ⊢
    obtain ⟨ht, hk, hle⟩ | ⟨ht, hk, hle⟩ := hbeyond
    · have hslot : t * m + k < n * m := (index_lt hk).mpr ht
      have hpast : pattern.flatten[t * m + k]? = none := List.getElem?_eq_none hle
      have hzero : slots (overlay pattern.flatten kp) (t * m + k) = 0 := by
        unfold slots overlay
        rw [hpast]
        split
        · next hx => exact h.2 _ hx (by rwa [hflat] at hle) hslot
        · rfl
      unfold view
      rw [if_pos ⟨ht, hk⟩, hzero]
      split
      · next hin =>
        have hslot' : t * w + k < pattern.length * w := (index_lt hin.2).mpr hin.1
        rw [slots_overlay_of_lt _ (by rwa [hflat])]
        split
        · next hx =>
          have hmis : Misread n m pattern.length w (t * w + k) := misread_of_ne hin (by omega)
          exact (h.1 _ hx hmis _ (List.getElem?_eq_getElem _)).symm
        · rfl
      · rfl
    · have hslot := (index_lt hk).mpr ht
      omega

/-- A saved test is reproduced exactly when the counts that the two shapes read differently are
all zero, and what lies behind the pattern does no harm. -/
theorem reproduction_iff {N M : Nat} {pattern : List (List Nat)} {old saved : Mem}
    (h : Relaunched N M (writeTest N M pattern old) saved) (loopUnwindedNum period : Nat) (m : Mem) :
    (∃ m', reproduce period pattern m = some m' ∧ ∀ t k,
      loadedCount (launch loopUnwindedNum saved) t k =
        loadedCount (launch loopUnwindedNum m') t k) ↔
      Reproducible (toInt (schedInfo saved).N) (toInt (schedInfo saved).M) pattern
        (schedInfo old).kp (schedInfo m).kp := by
  have hsaved : slots (schedInfo saved).kp = slots (overlay pattern.flatten (schedInfo old).kp) := by
    rw [h.kp_eq]
    exact slots_congr fun i _ => writeTest_kp N M pattern old i
  simp only [loadedCount_launch, hsaved]
  constructor
  · intro hrun
    obtain ⟨m', hm', heq⟩ := hrun
    obtain ⟨hN, hM, hkp⟩ := reproduce_spec hm'
    have hne : pattern ≠ [] := by
      intro hnil
      rw [hnil] at hm'
      cases hm'
    rw [hN, hM, hkp] at heq
    exact (views_eq_iff_reproducible hne).mp heq
  · intro hrep
    obtain ⟨m', hm'⟩ : ∃ m', reproduce period pattern m = some m' := by
      cases pattern with
      | nil => exact absurd rfl hrep.ne_nil
      | cons row rows => exact ⟨_, rfl⟩
    obtain ⟨hN, hM, hkp⟩ := reproduce_spec hm'
    refine ⟨m', hm', ?_⟩
    rw [hN, hM, hkp]
    exact (views_eq_iff_reproducible hrep.ne_nil).mpr hrep

theorem reproduction_iff_two :
    (∃ m', reproduce 1000 [[0, 1], [1, 0]] (fun _ => 0) = some m' ∧ ∀ t k,
      loadedCount (launch 4 (writeTest 2 2 [[0, 1], [1, 0]] fun _ => 0)) t k =
        loadedCount (launch 4 m') t k) ↔
      Reproducible (toInt (schedInfo (writeTest 2 2 [[0, 1], [1, 0]] fun _ => 0)).N)
        (toInt (schedInfo (writeTest 2 2 [[0, 1], [1, 0]] fun _ => 0)).M) [[0, 1], [1, 0]]
        (schedInfo fun _ => 0).kp (schedInfo fun _ => 0).kp :=
  reproduction_iff (Relaunched.last 2 2 _) 4 1000 fun _ => 0

/-- Two of three children hit key points: the test loads two rows, the reproduction three. -/
theorem reproduction_fails :
    Relaunched 2 1 (writeTest 2 1 [[0], [0], [1]] fun _ => 0)
      (writeTest 2 1 [[0], [0], [1]] fun _ => 0) ∧
    ¬ ∃ m', reproduce 1000 [[0], [0], [1]] (fun _ => 0) = some m' ∧ ∀ t k,
      loadedCount (launch 4 (writeTest 2 1 [[0], [0], [1]] fun _ => 0)) t k =
        loadedCount (launch 4 m') t k := by
  refine ⟨Relaunched.last 2 1 _, fun hrun => ?_⟩
  obtain ⟨m', hm', heq⟩ := hrun
  obtain rfl := Option.some.inj hm'
  exact absurd (heq 2 0) (by decide)

end Period.Driver
