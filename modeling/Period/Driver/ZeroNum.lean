import Period.Scheduler.Sched

/-!
# Threads without key points

`zero_num` looks for the number of zeros among the entries up to the last thread that has
key points. It starts with as many entries as there are such threads and goes on, three
times, by the zeros it has seen.
-/

namespace Period.Driver

open Period.Scheduler
set_option autoImplicit false

/-- The loop that prevents all 0. -/
def anyNonZero (kpNumArray : List Nat) : List Nat → Except Halt Bool
  | [] => .ok false
  | i :: is => do
    let v ← kpNumArray[i]?.elim (throw .indexError) pure
    if v = 0 then anyNonZero kpNumArray is else return true

def countZeros (kpNumArray kpMaxNumArray : List Nat) (n : Nat) : Except Halt (Nat × Nat) :=
  (List.range n).foldlM
    (fun c i => do
      let v ← kpNumArray[i]?.elim (throw .indexError) pure
      let m ← kpMaxNumArray[i]?.elim (throw .indexError) pure
      return (if v = 0 then c.1 + 1 else c.1, if m = 0 then c.2 + 1 else c.2))
    (0, 0)

/-- The loop over `limit`, with the rounds it has left. -/
def zeroRounds (kpNumArray kpMaxNumArray : List Nat) (N : Nat) : Nat → Int → Nat → Except Halt Nat
  | 0, _, zeroNum => .ok zeroNum
  | limit + 1, zeroNumSave, zeroNum =>
    if zeroNumSave = zeroNum then .ok zeroNum
    else do
      let c ← countZeros kpNumArray kpMaxNumArray (N + zeroNum)
      zeroRounds kpNumArray kpMaxNumArray N limit zeroNum (if c.1 ≤ c.2 then c.1 else c.2)

def zeroNum (kpNumArray kpMaxNumArray : List Nat) (N : Nat) : Except Halt Nat := do
  if ← anyNonZero kpNumArray (List.range N) then zeroRounds kpNumArray kpMaxNumArray N 3 (-1) 0
  else return 0

def nonZeros (kp : List Nat) : Nat := kp.countP (· ≠ 0)

/-- The entries behind the threads with key points are zero, and `z` counts the zeros before. -/
def FindsAll (kp : List Nat) (z : Nat) : Prop :=
  (∀ v ∈ kp.drop (nonZeros kp + z), v = 0) ∧ z = (kp.take (nonZeros kp + z)).count 0

/-- How many entries are looked at in round `j`: the window grows by the non-zero entries that
it has missed. -/
def scanned (kp : List Nat) : Nat → Nat
  | 0 => nonZeros kp
  | j + 1 => scanned kp j + nonZeros (kp.drop (scanned kp j))

/-- Some entry in the first window is not zero, and behind the third window no zero comes
before another entry. -/
structure GapsClose (kp : List Nat) : Prop where
  front : ∃ v ∈ kp.take (nonZeros kp), v ≠ 0
  rear : (kp.drop (scanned kp 2)).Pairwise fun a b => b ≠ 0 → a ≠ 0

section Lists
variable {kp : List Nat} {m : Nat}

theorem nonZeros_eq_zero_iff : nonZeros kp = 0 ↔ ∀ v ∈ kp, v = 0 := by
  rw [nonZeros, List.countP_eq_zero]
  simp

theorem nonZeros_le_length (kp : List Nat) : nonZeros kp ≤ kp.length := List.countP_le_length

theorem length_eq_zeros_add (kp : List Nat) : kp.length = kp.count 0 + nonZeros kp := by
  rw [nonZeros, List.count, List.length_eq_countP_add_countP (· == 0)]
  simp

theorem nonZeros_split (kp : List Nat) (m : Nat) :
    nonZeros kp = nonZeros (kp.take m) + nonZeros (kp.drop m) := by
  rw [nonZeros, nonZeros, nonZeros, ← List.countP_append, List.take_append_drop]

theorem nonZeros_add_zeros (h : m ≤ kp.length) :
    nonZeros kp + (kp.take m).count 0 = m + nonZeros (kp.drop m) := by
  have hsplit := nonZeros_split kp m
  have hlen := length_eq_zeros_add (kp.take m)
  rw [List.length_take_of_le h] at hlen
  omega

theorem scanned_le (kp : List Nat) (j : Nat) : scanned kp j ≤ kp.length := by
  induction j with
  | zero => exact nonZeros_le_length kp
  | succ j ih =>
    have hrest := nonZeros_le_length (kp.drop (scanned kp j))
    rw [List.length_drop] at hrest
    rw [scanned]
    omega

theorem scanned_stop {j : Nat} (h : nonZeros (kp.drop (scanned kp j)) = 0) (d : Nat) :
    scanned kp (j + d) = scanned kp j := by
  induction d with
  | zero => rfl
  | succ d ih => rw [← Nat.add_assoc, scanned, ih, h, Nat.add_zero]

/-- As many entries as are not zero hold all of them exactly when these come first. -/
theorem nonZeros_drop_eq_zero_iff (kp : List Nat) : nonZeros (kp.drop (nonZeros kp)) = 0 ↔
    kp.Pairwise fun a b => b ≠ 0 → a ≠ 0 := by
  induction kp with
  | nil => exact iff_of_true rfl List.Pairwise.nil
  | cons v kp ih =>
    rw [List.pairwise_cons]
    by_cases hv : v = 0
    · have hcons : nonZeros (v :: kp) = nonZeros kp := by
        rw [nonZeros, List.countP_cons_of_neg (by simpa using hv)]
        rfl
      have hzero : ((∀ b ∈ kp, b ≠ 0 → v ≠ 0) ∧ kp.Pairwise fun a b => b ≠ 0 → a ≠ 0) ↔
          nonZeros kp = 0 := by
        rw [nonZeros_eq_zero_iff]
        constructor
        · intro hfirst b hb
          by_contra hne
          exact hfirst.1 b hb hne hv
        · intro hall
          refine ⟨fun b hb hne => absurd (hall b hb) hne, ?_⟩
          apply List.pairwise_of_forall_mem_list
          exact fun a _ b hb hne => absurd (hall b hb) hne
      rw [hcons, hzero]
      cases hnum : nonZeros kp with
      | zero =>
        rw [List.drop_zero, hcons, hnum]
      | succ c =>
        have hsplit := nonZeros_split kp c
        have htake := nonZeros_le_length (kp.take c)
        rw [List.length_take] at htake
        rw [List.drop_succ_cons]
        omega
    · have hcons : nonZeros (v :: kp) = nonZeros kp + 1 := by
        rw [nonZeros, List.countP_cons_of_pos (by simpa using hv)]
        rfl
      rw [hcons, List.drop_succ_cons, ih]
      exact (and_iff_right fun _ _ _ => hv).symm

end Lists

/-! ## The rounds -/

section Rounds
variable {kp : List Nat}

theorem anyNonZero_eq {is : List Nat} (h : ∀ i ∈ is, i < kp.length) :
    anyNonZero kp is = .ok (is.any fun i => kp.getD i 0 ≠ 0) := by
  induction is with
  | nil => rfl
  | cons i is ih =>
    have hi := h i List.mem_cons_self
    rw [anyNonZero, List.getElem?_eq_getElem hi, List.any_cons, List.getD_eq_getElem?_getD,
      List.getElem?_eq_getElem hi, ih fun i' hi' => h i' (List.mem_cons_of_mem i hi')]
    by_cases hv : kp[i] = 0
    · simp [hv, bind, Except.bind, pure, Except.pure]
    · simp [hv, bind, Except.bind, pure, Except.pure]

theorem any_range_iff {n : Nat} (h : n ≤ kp.length) :
    ((List.range n).any fun i => kp.getD i 0 ≠ 0) = true ↔ ∃ v ∈ kp.take n, v ≠ 0 := by
  rw [List.any_eq_true]
  constructor
  · intro ⟨i, hi, hv⟩
    have hi := List.mem_range.mp hi
    have hlt : i < kp.length := by omega
    rw [List.getD_eq_getElem?_getD, List.getElem?_eq_getElem hlt] at hv
    exact ⟨kp[i], List.mem_take_iff_getElem.mpr ⟨i, by omega, rfl⟩, of_decide_eq_true hv⟩
  · intro ⟨v, hv, hne⟩
    obtain ⟨i, hi, rfl⟩ := List.mem_take_iff_getElem.mp hv
    have hlt : i < kp.length := by omega
    refine ⟨i, List.mem_range.mpr (by omega), ?_⟩
    rw [List.getD_eq_getElem?_getD, List.getElem?_eq_getElem hlt]
    exact decide_eq_true hne

theorem countZeros_eq {kpMax : List Nat} {n : Nat} (h : n ≤ kp.length) (hMax : n ≤ kpMax.length) :
    countZeros kp kpMax n = .ok ((kp.take n).count 0, (kpMax.take n).count 0) := by
  induction n with
  | zero => rfl
  | succ n ih =>
    have hstep := ih (Nat.le_of_succ_le h) (Nat.le_of_succ_le hMax)
    rw [countZeros] at hstep ⊢
    rw [List.range_succ, List.foldlM_append, hstep, List.take_succ_eq_append_getElem h,
      List.take_succ_eq_append_getElem hMax, List.count_append, List.count_append,
      List.count_singleton, List.count_singleton]
    simp only [bind, Except.bind, pure, Except.pure, List.foldlM_cons, List.foldlM_nil,
      List.getElem?_eq_getElem h, List.getElem?_eq_getElem hMax, Option.elim_some, beq_iff_eq,
      Except.ok.injEq, Prod.mk.injEq]
    constructor
    · split <;> rfl
    · split <;> rfl

theorem zeroRounds_eq {limit j : Nat} {save : Int} {z : Nat} (hlen : kp.length = 100)
    (hz : nonZeros kp + z = scanned kp j)
    (hsave : save = z → nonZeros (kp.drop (scanned kp j)) = 0) :
    ∃ z', zeroRounds kp (List.replicate 100 0) (nonZeros kp) limit save z = .ok z' ∧
      nonZeros kp + z' = scanned kp (j + limit) := by
  induction limit generalizing j save z with
  | zero => exact ⟨z, rfl, hz⟩
  | succ limit ih =>
    rw [zeroRounds]
    by_cases hstop : save = z
    · rw [if_pos hstop, scanned_stop (hsave hstop)]
      exact ⟨z, rfl, hz⟩
    · have hle := scanned_le kp j
      have hzeros := nonZeros_add_zeros hle
      have hMax : scanned kp j ≤ (List.replicate 100 0).length := by
        rwa [List.length_replicate, ← hlen]
      have hcount : (kp.take (scanned kp j)).count 0 ≤
          ((List.replicate 100 0).take (scanned kp j)).count 0 := by
        rw [List.take_replicate, List.count_replicate_self, ← hlen]
        exact List.count_le_length.trans_eq List.length_take
      rw [if_neg hstop, hz, countZeros_eq hle hMax]
      have hstill : (z : Int) = (kp.take (scanned kp j)).count 0 →
          nonZeros (kp.drop (scanned kp (j + 1))) = 0 := by
        intro hsame
        have hsame := Int.ofNat_inj.mp hsame
        have hnone : nonZeros (kp.drop (scanned kp j)) = 0 := by omega
        rwa [scanned_stop hnone 1]
      obtain ⟨z', hrounds, hz'⟩ := @ih (j + 1) z _ hzeros hstill
      refine ⟨z', ?_, by rw [hz']; congr 1; omega⟩
      rw [← hrounds]
      simp only [bind, Except.bind, if_pos hcount]

end Rounds

theorem findsAll_iff {kp : List Nat} {z m : Nat} (hm : nonZeros kp + z = m) (hle : m ≤ kp.length) :
    FindsAll kp z ↔ nonZeros (kp.drop m) = 0 := by
  have hzeros := nonZeros_add_zeros hle
  rw [FindsAll, hm, ← nonZeros_eq_zero_iff]
  constructor
  · exact fun h => h.1
  · exact fun h => ⟨h, by omega⟩

/-- `zero_num` finds all threads exactly when the gaps close in three rounds. -/
theorem zeroNum_findsAll_iff {kp : List Nat} (hlen : kp.length = 100) (hpos : 1 ≤ nonZeros kp) :
    (∃ z, zeroNum kp (List.replicate 100 0) (nonZeros kp) = .ok z ∧ FindsAll kp z) ↔ GapsClose kp := by
  have hle := nonZeros_le_length kp
  have hguard := @anyNonZero_eq kp (List.range (nonZeros kp)) (fun i hi => by
    have := List.mem_range.mp hi
    omega)
  have hfront : ((List.range (nonZeros kp)).any fun i => kp.getD i 0 ≠ 0) = true ↔
      ∃ v ∈ kp.take (nonZeros kp), v ≠ 0 := any_range_iff hle
  by_cases hany : ∃ v ∈ kp.take (nonZeros kp), v ≠ 0
  · rw [hfront.mpr hany] at hguard
    obtain ⟨z, hz, hreach⟩ := @zeroRounds_eq kp 3 0 (-1) 0 hlen rfl fun h => absurd h (by decide)
    have hcode : zeroNum kp (List.replicate 100 0) (nonZeros kp) = .ok z := by
      rw [zeroNum, hguard]
      exact hz
    rw [hcode]
    have hfinds := findsAll_iff hreach (scanned_le kp (0 + 3))
    have hlast : nonZeros (kp.drop (scanned kp (0 + 3))) = 0 ↔
        (kp.drop (scanned kp 2)).Pairwise fun a b => b ≠ 0 → a ≠ 0 := by
      rw [← nonZeros_drop_eq_zero_iff, List.drop_drop]
      rfl
    constructor
    · rintro ⟨z', hz', hall⟩
      cases hz'
      exact ⟨hany, hlast.mp (hfinds.mp hall)⟩
    · exact fun h => ⟨z, rfl, hfinds.mpr (hlast.mpr h.rear)⟩
  · rw [Bool.eq_false_iff.mpr (mt hfront.mp hany)] at hguard
    have hcode : zeroNum kp (List.replicate 100 0) (nonZeros kp) = .ok 0 := by
      rw [zeroNum, hguard]
      rfl
    rw [hcode]
    constructor
    · rintro ⟨z', hz', hall⟩
      cases hz'
      have hrear := (findsAll_iff (Nat.add_zero (nonZeros kp)) hle).mp hall
      have hnone : nonZeros (kp.take (nonZeros kp)) = 0 := by
        rw [nonZeros_eq_zero_iff]
        intro v hv
        by_contra hne
        exact hany ⟨v, hv, hne⟩
      have hsplit := nonZeros_split kp (nonZeros kp)
      omega
    · exact fun h => absurd h.front hany

theorem zeroNum_findsAll_iff_gap :
    (∃ z, zeroNum ([3, 0, 5] ++ List.replicate 97 0) (List.replicate 100 0)
        (nonZeros ([3, 0, 5] ++ List.replicate 97 0)) = .ok z ∧
      FindsAll ([3, 0, 5] ++ List.replicate 97 0) z) ↔
      GapsClose ([3, 0, 5] ++ List.replicate 97 0) :=
  zeroNum_findsAll_iff (by decide) (by decide)

/-- One thread with key points behind a silent one, and two threads with four silent ones
between them. -/
theorem zeroNum_misses :
    nonZeros ([0, 5] ++ List.replicate 98 0) = 1 ∧
    zeroNum ([0, 5] ++ List.replicate 98 0) (List.replicate 100 0) 1 = .ok 0 ∧
    ¬ FindsAll ([0, 5] ++ List.replicate 98 0) 0 ∧
    nonZeros ([1, 0, 0, 0, 0, 1] ++ List.replicate 94 0) = 2 ∧
    zeroNum ([1, 0, 0, 0, 0, 1] ++ List.replicate 94 0) (List.replicate 100 0) 2 = .ok 3 ∧
    ¬ FindsAll ([1, 0, 0, 0, 0, 1] ++ List.replicate 94 0) 3 := by
  refine ⟨by decide, by decide, fun h => ?_, by decide, by decide, fun h => ?_⟩
  · exact absurd (h.1 5 (by decide)) (by decide)
  · exact absurd (h.1 1 (by decide)) (by decide)

end Period.Driver
