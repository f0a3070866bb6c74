import Period.Scheduler.YieldPattern

/-!
# Yield patterns and interleavings

`yield_pattern_gen` encodes an interleaving as a yield pattern, `yp_to_inter` plays a yield
pattern period by period. A key point is passed in the period whose number is the sum of
its row up to the key point.
-/

namespace Period.Interleaving

open Period.Scheduler
set_option autoImplicit false

structure Encoder where
  pattern : List (List Nat)
  tdPeriod : List Nat
  lastT : Nat
  lastP : Nat
  deriving DecidableEq, Repr

/-- The body of the loop for a thread that exists. No thread is ahead of `lastP`. -/
def Encoder.next (s : Encoder) (i : Nat) : Encoder :=
  if i ≠ s.lastT then
    { pattern := s.pattern.modify i (· ++ [s.lastP + 1 - s.tdPeriod.getD i 0])
      tdPeriod := s.tdPeriod.set i (s.lastP + 1)
      lastT := i
      lastP := s.lastP + 1 }
  else { s with pattern := s.pattern.modify i (· ++ [0]) }

def encodeLoop : List Nat → Encoder → Except Halt Encoder
  | [], s => .ok s
  | i :: inter, s =>
    if i < s.pattern.length then encodeLoop inter (s.next i) else .error .indexError

def yieldPatternGen (n : Nat) : List Nat → Except Halt (List (List Nat))
  | [] => .error .indexError
  | i :: inter => do
    let s ← encodeLoop (i :: inter)
      { pattern := List.replicate n [], tdPeriod := List.replicate n 0, lastT := i, lastP := 0 }
    return s.pattern

def padPattern (n : Nat) (M : List Nat) (YP : List (List Nat)) : List (List Nat) :=
  (YP ++ List.replicate (n - YP.length) [0]).mapIdx fun i (row : List Nat) =>
    if i < n then row ++ List.replicate (kpsOf M i - row.length) 0 else row

structure Decoder where
  YP : List (List Nat)
  sched : List Nat
  inter : List Nat
  deriving DecidableEq, Repr

/-- The loop `while sched[t] < M[t]`, with the rounds it has left: the row of the thread,
`sched[t]` and `inter`. -/
def passLoop (t : Nat) : Nat → List Nat × Nat × List Nat → List Nat × Nat × List Nat
  | 0, r => r
  | left + 1, (row, k, inter) =>
    if 0 < row.getD k 0 then (row.modify k (· - 1), k, inter)
    else passLoop t left (row, k + 1, inter ++ [t])

def decodeThread (M : List Nat) (r : Decoder × Bool) (t : Nat) : Decoder × Bool :=
  let s := r.1
  let k := s.sched.getD t 0
  if k < kpsOf M t then
    let passed := passLoop t (kpsOf M t - k) (s.YP.getD t [], k, s.inter)
    ({ YP := s.YP.set t passed.1, sched := s.sched.set t passed.2.1, inter := passed.2.2 }, true)
  else r

def decodeRound (n : Nat) (M : List Nat) (s : Decoder) : Decoder × Bool :=
  (List.range n).foldl (decodeThread M) (s, false)

def decodeLoop (n : Nat) (M : List Nat) : Nat → Decoder → Except Halt (List Nat)
  | 0, _ => .error .outOfFuel
  | fuel + 1, s =>
    let r := decodeRound n M s
    if r.2 then decodeLoop n M fuel r.1 else .ok r.1.inter

def ypToInter (fuel n : Nat) (M : List Nat) (YP : List (List Nat)) : Except Halt (List Nat) := do
  let M ← padKps n M
  decodeLoop n M fuel { YP := padPattern n M YP, sched := List.replicate n 0, inter := [] }

/-! ## The encoder -/

structure Encoded (n : Nat) (done : Schedule) (pattern : List (List Nat)) (tdPeriod : List Nat) :
    Prop where
  pattern_length : pattern.length = n
  tdPeriod_length : tdPeriod.length = n
  row_length : ∀ t, t < n → (pattern.getD t []).length = done.flatten.count t
  row_sum : ∀ t, t < n → (pattern.getD t []).sum = tdPeriod.getD t 0
  sum_le : ∀ t, t < n → tdPeriod.getD t 0 ≤ done.length
  sums : ∀ t, t < n → ∀ k, k < done.flatten.count t →
    ((pattern.getD t []).take (k + 1)).sum = periodOf done t k

section Encoding
variable {n : Nat} {done : Schedule} {pattern : List (List Nat)} {tdPeriod : List Nat}

theorem encoded_start (n : Nat) : Encoded n [] (List.replicate n []) (List.replicate n 0) := by
  have hrow : ∀ t, (List.replicate n ([] : List Nat)).getD t [] = [] := by
    intro t
    rw [List.getD_eq_getElem?_getD, List.getElem?_replicate]
    split <;> rfl
  have htd : ∀ t, (List.replicate n 0).getD t 0 = 0 := by
    intro t
    rw [List.getD_eq_getElem?_getD, List.getElem?_replicate]
    split <;> rfl
  refine ⟨List.length_replicate, List.length_replicate, ?_, ?_, ?_, ?_⟩
  · intro t _
    rw [hrow]
    rfl
  · intro t _
    rw [hrow, htd]
    rfl
  · intro t _
    rw [htd]
    exact Nat.zero_le _
  · intro t _ k hk
    cases hk

theorem count_period (done : Schedule) (x m t : Nat) :
    (done ++ [List.replicate (m + 1) x]).flatten.count t =
      done.flatten.count t + if x = t then m + 1 else 0 := by
  rw [List.flatten_append, List.flatten_singleton, List.count_append, List.count_replicate]
  simp only [beq_iff_eq]

theorem Encoded.row_period (h : Encoded n done pattern tdPeriod) (x : Nat) (row : List Nat) (t : Nat)
    (ht : t < n) : (pattern.modify x (· ++ row)).getD t [] =
      if x = t then pattern.getD t [] ++ row else pattern.getD t [] := by
  have hlen : t < pattern.length := h.pattern_length.symm ▸ ht
  rw [List.getD_eq_getElem?_getD, List.getElem?_modify, List.getElem?_eq_getElem hlen,
    List.getD_eq_getElem _ _ hlen]
  by_cases hxt : x = t
  · simp [hxt]
  · simp [hxt]

theorem Encoded.tdPeriod_period (h : Encoded n done pattern tdPeriod) (x : Nat) (t : Nat)
    (ht : t < n) : (tdPeriod.set x done.length).getD t 0 =
      if x = t then done.length else tdPeriod.getD t 0 := by
  have hlen : t < tdPeriod.length := h.tdPeriod_length.symm ▸ ht
  rw [List.getD_eq_getElem?_getD, List.getElem?_set]
  by_cases hxt : x = t
  · rw [if_pos hxt, if_pos hxt, if_pos (hxt ▸ hlen)]
    rfl
  · rw [if_neg hxt, if_neg hxt, List.getD_eq_getElem?_getD]

/-- One period of one thread: its first key point waits for the periods since the last one
of the thread, the others do not wait. -/
theorem encoded_period (h : Encoded n done pattern tdPeriod) (x m : Nat) :
    Encoded n (done ++ [List.replicate (m + 1) x])
      (pattern.modify x (· ++ (done.length - tdPeriod.getD x 0) :: List.replicate m 0))
      (tdPeriod.set x done.length) := by
  have hcount := count_period done x m
  have hrow := h.row_period x ((done.length - tdPeriod.getD x 0) :: List.replicate m 0)
  have htd := h.tdPeriod_period x
  have hlength : (done ++ [List.replicate (m + 1) x]).length = done.length + 1 := List.length_append
  refine ⟨?_, ?_, ?_, ?_, ?_, ?_⟩
  · rw [List.length_modify, h.pattern_length]
  · rw [List.length_set, h.tdPeriod_length]
  · intro t ht
    rw [hrow t ht, hcount]
    split
    · rw [List.length_append, h.row_length t ht, List.length_cons, List.length_replicate]
    · exact h.row_length t ht
  · intro t ht
    rw [hrow t ht, htd t ht]
    split
    · next hxt =>
      have hle := h.sum_le t ht
      rw [List.sum_append, h.row_sum t ht, List.sum_cons, List.sum_replicate_nat, hxt]
      omega
    · exact h.row_sum t ht
  · intro t ht
    rw [htd t ht, hlength]
    have hle := h.sum_le t ht
    split <;> omega
  · intro t ht k hk
    rw [periodOf_concat, if_neg (Nat.not_le.mpr hk), Nat.add_zero (periodOf done t k), hrow t ht]
    rw [hcount] at hk
    rcases Nat.lt_or_ge k (done.flatten.count t) with hold | hnew
    · rw [← h.sums t ht k hold]
      split
      · rw [List.take_append_of_le_length (by rw [h.row_length t ht]; exact hold)]
      · rfl
    · -- a new key point: the whole old row, then the new wait and zeros
      have hxt : x = t := by
        by_contra hne
        rw [if_neg hne] at hk
        omega
      obtain ⟨d, rfl⟩ := Nat.exists_eq_add_of_le hnew
      have hle := h.sum_le t ht
      have hdrop : done.flatten.count t + d + 1 = (pattern.getD t []).length + (d + 1) := by
        rw [h.row_length t ht]
        rfl
      rw [if_pos hxt, periodOf_of_count_le hnew, hdrop, List.take_length_add_append, List.take_succ_cons,
        List.sum_append, h.row_sum t ht, List.sum_cons, List.take_replicate, List.sum_replicate_nat, hxt]
      omega

theorem encodeLoop_same {x : Nat} {tdPeriod : List Nat} {lastP : Nat} (hx : x < pattern.length)
    (m : Nat) (rest : List Nat) :
    encodeLoop (List.replicate m x ++ rest) ⟨pattern, tdPeriod, x, lastP⟩ =
      encodeLoop rest ⟨pattern.modify x (· ++ List.replicate m 0), tdPeriod, x, lastP⟩ := by
  induction m generalizing pattern with
  | zero =>
    have hid : pattern.modify x (· ++ List.replicate 0 0) = pattern := by
      apply List.ext_getElem?
      intro j
      rw [List.getElem?_modify]
      cases pattern[j]? <;> simp
    rw [hid]
    rfl
  | succ m ih =>
    have hnext : (Encoder.mk pattern tdPeriod x lastP).next x =
        ⟨pattern.modify x (· ++ [0]), tdPeriod, x, lastP⟩ := if_neg (not_not.mpr rfl)
    rw [List.replicate_succ, List.cons_append, encodeLoop, if_pos hx, hnext,
      ih (by rwa [List.length_modify])]
    congr 2
    apply List.ext_getElem?
    intro j
    rw [List.getElem?_modify, List.getElem?_modify, List.getElem?_modify]
    by_cases hj : x = j
    · simp [hj, List.append_assoc, List.replicate_succ, Function.comp_def]
    · simp [hj]

/-- The first key point of another thread opens a period. -/
theorem encodeLoop_other {s : Encoder} {x : Nat} (hx : x < s.pattern.length) (hne : x ≠ s.lastT)
    (m : Nat) (rest : List Nat) :
    encodeLoop (List.replicate (m + 1) x ++ rest) s =
      encodeLoop rest ⟨s.pattern.modify x
        (· ++ (s.lastP + 1 - s.tdPeriod.getD x 0) :: List.replicate m 0),
        s.tdPeriod.set x (s.lastP + 1), x, s.lastP + 1⟩ := by
  have hnext : s.next x = ⟨s.pattern.modify x (· ++ [s.lastP + 1 - s.tdPeriod.getD x 0]),
      s.tdPeriod.set x (s.lastP + 1), x, s.lastP + 1⟩ := if_pos hne
  rw [List.replicate_succ, List.cons_append, encodeLoop, if_pos hx, hnext,
    encodeLoop_same (by rwa [List.length_modify])]
  congr 2
  apply List.ext_getElem?
  intro j
  rw [List.getElem?_modify, List.getElem?_modify, List.getElem?_modify]
  by_cases hj : x = j
  · simp [hj, List.append_assoc, Function.comp_def]
  · simp [hj]

/-- The periods that follow, adjacent ones of different threads. -/
theorem encodeLoop_periods {rest : Schedule} {s : Encoder} (h : Encoded n done s.pattern s.tdPeriod)
    (hlast : s.lastP + 1 = done.length)
    (hsingle : ∀ period ∈ rest, ∃ x m, period = List.replicate (m + 1) x)
    (hlt : ∀ period ∈ rest, ∀ t ∈ period, t < n)
    (hadj : ([s.lastT] :: rest).IsChain fun a b => a.head? ≠ b.head?) :
    ∃ s', encodeLoop rest.flatten s = .ok s' ∧ Encoded n (done ++ rest) s'.pattern s'.tdPeriod := by
  induction rest generalizing done s with
  | nil => exact ⟨s, rfl, by rwa [List.append_nil]⟩
  | cons period rest ih =>
    obtain ⟨x, m, rfl⟩ := hsingle period List.mem_cons_self
    have hxn : x < n := hlt _ List.mem_cons_self x (by simp)
    obtain ⟨hne, hrest⟩ := List.isChain_cons_cons.mp hadj
    have hne : x ≠ s.lastT := by
      intro heq
      exact hne (by rw [heq]; rfl)
    rw [List.flatten_cons, encodeLoop_other (by rwa [h.pattern_length]) hne]
    have hstep := encoded_period h x m
    rw [← hlast] at hstep
    have hdone : done ++ List.replicate (m + 1) x :: rest =
        (done ++ [List.replicate (m + 1) x]) ++ rest := by simp
    rw [hdone]
    apply ih hstep
    · rw [List.length_append, ← hlast]
      rfl
    · exact fun q hq => hsingle q (List.mem_cons_of_mem _ hq)
    · exact fun q hq => hlt q (List.mem_cons_of_mem _ hq)
    · cases rest with
      | nil => exact List.IsChain.singleton _
      | cons q rest =>
        obtain ⟨hq, hrest⟩ := List.isChain_cons_cons.mp hrest
        exact List.isChain_cons_cons.mpr ⟨hq, hrest⟩

theorem yieldPatternGen_encoded {sched : Schedule} (hne : sched ≠ [])
    (hsingle : ∀ period ∈ sched, ∃ x m, period = List.replicate (m + 1) x)
    (hlt : ∀ period ∈ sched, ∀ t ∈ period, t < n)
    (hadj : sched.IsChain fun a b => a.head? ≠ b.head?) :
    ∃ pattern tdPeriod, yieldPatternGen n sched.flatten = .ok pattern ∧
      Encoded n sched pattern tdPeriod := by
  cases sched with
  | nil => exact absurd rfl hne
  | cons period rest =>
    obtain ⟨x, m, rfl⟩ := hsingle period List.mem_cons_self
    have hxn : x < n := hlt _ List.mem_cons_self x (by simp)
    have hzero : (List.replicate n 0).getD x 0 = 0 := by
      rw [List.getD_eq_getElem?_getD, List.getElem?_replicate, if_pos hxn]
      rfl
    have hset : (List.replicate n 0).set x 0 = List.replicate n 0 := by
      rw [List.set_replicate_self]
    have hfirst := encoded_period (encoded_start n) x m
    rw [List.length_nil, hzero, hset, List.nil_append, Nat.sub_zero] at hfirst
    have hadj' : ([x] :: rest).IsChain fun a b => a.head? ≠ b.head? := by
      cases rest with
      | nil => exact List.IsChain.singleton _
      | cons q rest =>
        obtain ⟨hq, hrest⟩ := List.isChain_cons_cons.mp hadj
        exact List.isChain_cons_cons.mpr ⟨hq, hrest⟩
    have hlen : x < (List.replicate n ([] : List Nat)).length := by rwa [List.length_replicate]
    have hstart := @encodeLoop_same _ x (List.replicate n 0) 0 hlen (m + 1) rest.flatten
    rw [List.replicate_succ, List.replicate_succ (n := m) (a := 0)] at hstart
    generalize (List.replicate n []).modify x (· ++ 0 :: List.replicate m 0) = pattern at hfirst hstart
    obtain ⟨s, hloop, hs⟩ := @encodeLoop_periods n [List.replicate (m + 1) x] rest
      ⟨pattern, List.replicate n 0, x, 0⟩ hfirst rfl (fun q hq => hsingle q (List.mem_cons_of_mem _ hq))
      (fun q hq => hlt q (List.mem_cons_of_mem _ hq)) hadj'
    refine ⟨s.pattern, s.tdPeriod, ?_, hs⟩
    rw [List.flatten_cons, List.replicate_succ, List.cons_append, yieldPatternGen]
    rw [List.cons_append, hloop] at hstart
    rw [hstart]
    rfl

end Encoding

/-! ## The decoder -/

/-- The sum of a row up to a key point: the number of the period in which it is passed. -/
def sumTo (row : List Nat) (k : Nat) : Nat := (row.take (k + 1)).sum

/-- How many of the first `m` key points are passed in period `j`. -/
def passedIn (row : List Nat) (m j : Nat) : Nat := (List.range m).countP fun k => sumTo row k = j

theorem countP_range_between {q : Nat → Bool} {m k k' : Nat} (hk : k ≤ k') (hm : k' ≤ m)
    (hlo : ∀ i, i < k → q i = false) (hmid : ∀ i, k ≤ i → i < k' → q i = true)
    (hhi : ∀ i, k' ≤ i → i < m → q i = false) : (List.range m).countP q = k' - k := by
  obtain ⟨a, rfl⟩ := Nat.exists_eq_add_of_le hk
  obtain ⟨b, rfl⟩ := Nat.exists_eq_add_of_le hm
  rw [List.range_add, List.range_add, List.countP_append, List.countP_append, List.countP_map,
    List.countP_map, List.countP_eq_zero.mpr, List.countP_eq_length.mpr, List.countP_eq_zero.mpr,
    List.length_range]
  · omega
  · intro i hi
    have hi := List.mem_range.mp hi
    rw [Function.comp_apply, hhi _ (by omega) (by omega)]
    exact Bool.false_ne_true
  · intro i hi
    have hi := List.mem_range.mp hi
    exact hmid (k + i) (Nat.le_add_right k i) (Nat.add_lt_add_left hi k)
  · intro i hi
    rw [hlo i (List.mem_range.mp hi)]
    exact Bool.false_ne_true

/-- A thread with `m` key points after `r` periods: `k` of them are passed, and what is left
of the row says when the others will be. -/
structure Waiting (row₀ : List Nat) (m r : Nat) (row : List Nat) (k : Nat) : Prop where
  k_le : k ≤ m
  le_length : m ≤ row.length
  passed : ∀ i, i < k → sumTo row₀ i < r
  left : ∀ i, k ≤ i → i < m → r + ((row.drop k).take (i + 1 - k)).sum = sumTo row₀ i

theorem sum_take_drop {row : List Nat} {k i : Nat} (hk : k < row.length) (hi : k ≤ i) :
    ((row.drop k).take (i + 1 - k)).sum = row[k] + ((row.drop (k + 1)).take (i - k)).sum := by
  have hidx : i + 1 - k = (i - k) + 1 := by omega
  rw [List.drop_eq_getElem_cons hk, hidx, List.take_succ_cons, List.sum_cons]

theorem sum_take_drop_modify {row : List Nat} {k i : Nat} (hk : k < row.length) (hi : k ≤ i) :
    (((row.modify k (· - 1)).drop k).take (i + 1 - k)).sum =
      row[k] - 1 + ((row.drop (k + 1)).take (i - k)).sum := by
  have hidx : i + 1 - k = (i - k) + 1 := by omega
  have hlen : (row.take k).length = k := List.length_take_of_le (Nat.le_of_lt hk)
  rw [List.modify_eq_take_cons_drop hk, List.drop_left' hlen, hidx, List.take_succ_cons, List.sum_cons]

theorem passLoop_spec {row₀ row : List Nat} {m r k : Nat} (t : Nat) (inter : List Nat)
    (hk : k ≤ m) (hlen : m ≤ row.length)
    (hleft : ∀ i, k ≤ i → i < m → r + ((row.drop k).take (i + 1 - k)).sum = sumTo row₀ i) :
    ∃ row' k', passLoop t (m - k) (row, k, inter) = (row', k', inter ++ List.replicate (k' - k) t) ∧
      k ≤ k' ∧ k' ≤ m ∧ m ≤ row'.length ∧ (∀ i, k ≤ i → i < k' → sumTo row₀ i = r) ∧
      ∀ i, k' ≤ i → i < m → r + 1 + ((row'.drop k').take (i + 1 - k')).sum = sumTo row₀ i := by
  generalize hn : m - k = left
  induction left generalizing k inter with
  | zero =>
    refine ⟨row, k, ?_, Nat.le_refl k, hk, hlen, fun i hlo hhi => by omega, fun i hlo hhi => by omega⟩
    rw [passLoop, Nat.sub_self, List.replicate_zero, List.append_nil]
  | succ left ih =>
    have hkm : k < m := by omega
    have hkl : k < row.length := Nat.lt_of_lt_of_le hkm hlen
    have hget : row.getD k 0 = row[k] := List.getD_eq_getElem _ _ hkl
    rw [passLoop, hget]
    by_cases hwait : 0 < row[k]
    · -- the thread waits for this period
      refine ⟨row.modify k (· - 1), k, ?_, Nat.le_refl k, hk, by rwa [List.length_modify],
        fun i hlo hhi => by omega, fun i hlo hhi => ?_⟩
      · rw [if_pos hwait, Nat.sub_self, List.replicate_zero, List.append_nil]
      · have hsum := hleft i hlo hhi
        rw [sum_take_drop hkl hlo] at hsum
        rw [sum_take_drop_modify hkl hlo]
        omega
    · have hzero : row[k] = 0 := by omega
      have hnow : sumTo row₀ k = r := by
        have hsum := hleft k (Nat.le_refl k) hkm
        rw [sum_take_drop hkl (Nat.le_refl k), hzero, Nat.sub_self] at hsum
        exact hsum.symm
      have hleft' : ∀ i, k + 1 ≤ i → i < m →
          r + ((row.drop (k + 1)).take (i + 1 - (k + 1))).sum = sumTo row₀ i := by
        intro i hlo hhi
        have hki := Nat.le_of_succ_le hlo
        have hsum := hleft i hki hhi
        rw [sum_take_drop hkl hki, hzero, Nat.zero_add] at hsum
        rwa [Nat.add_sub_add_right]
      obtain ⟨row', k', hloop, hkk, hkm', hlen', hpassed, hrest⟩ :=
        ih (inter ++ [t]) (by omega) hleft' (by omega)
      refine ⟨row', k', ?_, by omega, hkm', hlen', fun i hlo hhi => ?_, hrest⟩
      · have hcount : k' - k = 1 + (k' - (k + 1)) := by omega
        rw [if_neg hwait, hloop, hcount, List.replicate_add, List.append_assoc]
        rfl
      · rcases Nat.eq_or_lt_of_le hlo with rfl | hlt
        · exact hnow
        · exact hpassed i hlt hhi

section Decoding
variable {n : Nat} {M : List Nat} {YP : List (List Nat)}

/-- After `r t` periods of thread `t`. -/
structure Decoding (n : Nat) (M : List Nat) (YP : List (List Nat)) (r : Nat → Nat) (s : Decoder) :
    Prop where
  YP_length : n ≤ s.YP.length
  sched_length : n ≤ s.sched.length
  waiting : ∀ t, t < n → Waiting (YP.getD t []) (kpsOf M t) (r t) (s.YP.getD t []) (s.sched.getD t 0)

/-- What thread `t` passes in period `j`. -/
def emitted (M : List Nat) (YP : List (List Nat)) (j t : Nat) : List Nat :=
  List.replicate (passedIn (YP.getD t []) (kpsOf M t) j) t

theorem waiting_passedIn {row₀ row : List Nat} {m r k k' : Nat} (h : Waiting row₀ m r row k)
    (hk : k ≤ k') (hm : k' ≤ m) (hnow : ∀ i, k ≤ i → i < k' → sumTo row₀ i = r)
    (hlater : ∀ i, k' ≤ i → i < m → r < sumTo row₀ i) : passedIn row₀ m r = k' - k := by
  apply countP_range_between hk hm
  · intro i hi
    exact decide_eq_false (Nat.ne_of_lt (h.passed i hi))
  · intro i hlo hhi
    exact decide_eq_true (hnow i hlo hhi)
  · intro i hlo hhi
    exact decide_eq_false (Nat.ne_of_gt (hlater i hlo hhi))

theorem decodeThread_spec {r : Nat → Nat} {s : Decoder} (h : Decoding n M YP r s) {t : Nat}
    (ht : t < n) (cont : Bool) :
    ∃ s', decodeThread M (s, cont) t = (s', cont || decide (s.sched.getD t 0 < kpsOf M t)) ∧
      Decoding n M YP (Function.update r t (r t + 1)) s' ∧
      s'.inter = s.inter ++ emitted M YP (r t) t ∧
      ∀ u, u ≠ t → s'.sched.getD u 0 = s.sched.getD u 0 := by
  have hw := h.waiting t ht
  unfold decodeThread
  by_cases hk : s.sched.getD t 0 < kpsOf M t
  · obtain ⟨row', k', hloop, hkk, hkm, hlen, hnow, hleft⟩ :=
      passLoop_spec t s.inter hw.k_le hw.le_length hw.left
    have hlater : ∀ i, k' ≤ i → i < kpsOf M t → r t < sumTo (YP.getD t []) i := by
      intro i hlo hhi
      have := hleft i hlo hhi
      omega
    simp only [if_pos hk, hloop]
    refine ⟨⟨s.YP.set t row', s.sched.set t k', s.inter ++ List.replicate (k' - s.sched.getD t 0) t⟩,
      ?_, ⟨?_, ?_, ?_⟩, ?_, ?_⟩
    · rw [decide_eq_true hk, Bool.or_true]
    · rw [List.length_set]
      exact h.YP_length
    · rw [List.length_set]
      exact h.sched_length
    · intro u hu
      have hlenY : t < s.YP.length := Nat.lt_of_lt_of_le ht h.YP_length
      have hlenS : t < s.sched.length := Nat.lt_of_lt_of_le ht h.sched_length
      simp only [List.getD_eq_getElem?_getD, List.getElem?_set]
      by_cases hut : u = t
      · subst hut
        rw [if_pos rfl, if_pos hlenY, if_pos rfl, if_pos hlenS, Function.update_self]
        refine ⟨hkm, hlen, fun i hi => ?_, hleft⟩
        rcases Nat.lt_or_ge i (s.sched.getD u 0) with hold | hnew
        · exact Nat.lt_succ_of_lt (hw.passed i hold)
        · exact Nat.lt_succ_of_le (Nat.le_of_eq (hnow i hnew hi))
      · rw [if_neg (Ne.symm hut), if_neg (Ne.symm hut), Function.update_of_ne hut]
        exact h.waiting u hu
    · rw [emitted, waiting_passedIn hw hkk hkm hnow hlater]
    · intro u hu
      rw [List.getD_eq_getElem?_getD, List.getElem?_set, if_neg (Ne.symm hu),
        ← List.getD_eq_getElem?_getD]
  · simp only [if_neg hk]
    have hdone : s.sched.getD t 0 = kpsOf M t := Nat.le_antisymm hw.k_le (Nat.le_of_not_lt hk)
    refine ⟨s, ?_, ⟨h.YP_length, h.sched_length, fun u hu => ?_⟩, ?_, fun u _ => rfl⟩
    · rw [decide_eq_false hk, Bool.or_false]
    · by_cases hut : u = t
      · subst hut
        rw [Function.update_self]
        refine ⟨hw.k_le, hw.le_length, fun i hi => Nat.lt_succ_of_lt (hw.passed i hi), ?_⟩
        intro i hlo hhi
        omega
      · rw [Function.update_of_ne hut]
        exact h.waiting u hu
    · have hnone := waiting_passedIn hw (Nat.le_refl _) hw.k_le (fun i hlo hhi => by omega)
        (fun i hlo hhi => by omega)
      rw [emitted, hnone, Nat.sub_self, List.replicate_zero, List.append_nil]

theorem decodeRound_spec {j : Nat} {s : Decoder} (h : Decoding n M YP (fun _ => j) s) :
    ∃ s', decodeRound n M s = (s', (List.range n).any fun t => s.sched.getD t 0 < kpsOf M t) ∧
      Decoding n M YP (fun _ => j + 1) s' ∧
      s'.inter = s.inter ++ (List.range n).flatMap (emitted M YP j) := by
  have hturns : ∀ u, u ≤ n → ∃ s', (List.range u).foldl (decodeThread M) (s, false) =
      (s', (List.range u).any fun t => s.sched.getD t 0 < kpsOf M t) ∧
      Decoding n M YP (fun t => if t < u then j + 1 else j) s' ∧
      s'.inter = s.inter ++ (List.range u).flatMap (emitted M YP j) ∧
      ∀ t, u ≤ t → s'.sched.getD t 0 = s.sched.getD t 0 := by
    intro u hu
    induction u with
    | zero =>
      refine ⟨s, rfl, by simpa using h, ?_, fun t _ => rfl⟩
      rw [List.range_zero, List.flatMap_nil, List.append_nil]
    | succ u ih =>
      obtain ⟨s₁, hfold, hdec, hinter, hframe⟩ := ih (Nat.le_of_succ_le hu)
      obtain ⟨s₂, hthread, hdec₂, hinter₂, hframe₂⟩ := decodeThread_spec hdec hu
        ((List.range u).any fun t => s.sched.getD t 0 < kpsOf M t)
      have hrounds : Function.update (fun t => if t < u then j + 1 else j) u
          ((if u < u then j + 1 else j) + 1) = fun t => if t < u + 1 then j + 1 else j := by
        funext t
        by_cases htu : t = u
        · subst htu
          rw [Function.update_self, if_neg (Nat.lt_irrefl t), if_pos (Nat.lt_succ_self t)]
        · rw [Function.update_of_ne htu]
          by_cases hlt : t < u
          · rw [if_pos hlt, if_pos (by omega)]
          · rw [if_neg hlt, if_neg (by omega)]
      refine ⟨s₂, ?_, hrounds ▸ hdec₂, ?_, fun t ht => ?_⟩
      · rw [List.range_succ, List.foldl_append, hfold, List.foldl_cons, List.foldl_nil, hthread,
          hframe u (Nat.le_refl u), List.any_append, List.any_cons, List.any_nil, Bool.or_false]
      · rw [hinter₂, hinter, if_neg (Nat.lt_irrefl u), List.range_succ, List.flatMap_append,
          List.flatMap_singleton, List.append_assoc]
      · rw [hframe₂ t (by omega), hframe t (by omega)]
  obtain ⟨s', hfold, hdec, hinter, _⟩ := hturns n (Nat.le_refl n)
  refine ⟨s', hfold, ⟨hdec.YP_length, hdec.sched_length, fun t ht => ?_⟩, hinter⟩
  have hw := hdec.waiting t ht
  rwa [if_pos ht] at hw

def interUpTo (n : Nat) (M : List Nat) (YP : List (List Nat)) (R : Nat) : List Nat :=
  (List.range R).flatMap fun j => (List.range n).flatMap (emitted M YP j)

theorem emitted_eq_nil {t j : Nat} (h : ∀ k, k < kpsOf M t → sumTo (YP.getD t []) k ≠ j) :
    emitted M YP j t = [] := by
  have hzero : passedIn (YP.getD t []) (kpsOf M t) j = 0 := by
    rw [passedIn, List.countP_eq_zero]
    intro k hk
    simpa using h k (List.mem_range.mp hk)
  rw [emitted, hzero, List.replicate_zero]

theorem decodeLoop_eq {R j fuel : Nat} {s : Decoder} (h : Decoding n M YP (fun _ => j) s)
    (hinter : s.inter = interUpTo n M YP j) (hj : j ≤ R) (hfuel : R - j < fuel)
    (hR : ∀ t, t < n → ∀ k, k < kpsOf M t → sumTo (YP.getD t []) k < R) :
    decodeLoop n M fuel s = .ok (interUpTo n M YP R) := by
  induction fuel generalizing j s with
  | zero => omega
  | succ fuel ih =>
    obtain ⟨s', hround, hdec, hinter'⟩ := decodeRound_spec h
    rw [decodeLoop]
    simp only [hround]
    by_cases hcont : ((List.range n).any fun t => s.sched.getD t 0 < kpsOf M t) = true
    · obtain ⟨t, ht, hk⟩ := List.any_eq_true.mp hcont
      have ht := List.mem_range.mp ht
      have hk := of_decide_eq_true hk
      have hleft := (h.waiting t ht).left _ (Nat.le_refl _) hk
      have := hR t ht _ hk
      rw [if_pos hcont]
      apply ih hdec _ (by omega) (by omega)
      rw [hinter', hinter, interUpTo, interUpTo, List.range_succ, List.flatMap_append,
        List.flatMap_singleton]
    · have hdone : ∀ t, t < n → ∀ k, k < kpsOf M t → sumTo (YP.getD t []) k < j := by
        intro t ht k hk
        have hw := h.waiting t ht
        apply hw.passed k
        have hnot : ¬ s.sched.getD t 0 < kpsOf M t := fun hlt =>
          hcont (List.any_eq_true.mpr ⟨t, List.mem_range.mpr ht, decide_eq_true hlt⟩)
        omega
      have hnone : ∀ i, j ≤ i → (List.range n).flatMap (emitted M YP i) = [] := by
        intro i hi
        rw [List.flatMap_eq_nil_iff]
        intro t ht
        apply emitted_eq_nil
        intro k hk
        have := hdone t (List.mem_range.mp ht) k hk
        omega
      obtain ⟨d, rfl⟩ := Nat.exists_eq_add_of_le hj
      have hrest : interUpTo n M YP (j + d) = interUpTo n M YP j := by
        rw [interUpTo, List.range_add, List.flatMap_append, List.flatMap_map]
        have hnil : ((List.range d).flatMap fun i => (List.range n).flatMap (emitted M YP (j + i))) = [] :=
          List.flatMap_eq_nil_iff.mpr fun i _ => hnone (j + i) (Nat.le_add_right j i)
        rw [hnil, List.append_nil]
        rfl
      rw [if_neg hcont, hinter', hinter, hnone j (Nat.le_refl j), List.append_nil, hrest]

theorem padPattern_length (n : Nat) (M : List Nat) (YP : List (List Nat)) :
    n ≤ (padPattern n M YP).length := by
  rw [padPattern, List.length_mapIdx, List.length_append, List.length_replicate]
  omega

theorem padPattern_row {t : Nat} (ht : t < n) :
    kpsOf M t ≤ ((padPattern n M YP).getD t []).length := by
  have hlen : t < (YP ++ List.replicate (n - YP.length) [0]).length := by
    rw [List.length_append, List.length_replicate]
    omega
  rw [padPattern, List.getD_eq_getElem?_getD, List.getElem?_mapIdx, List.getElem?_eq_getElem hlen,
    Option.map_some, Option.getD_some, if_pos ht, List.length_append, List.length_replicate]
  omega

theorem ypToInter_eq {M' : List Nat} {R fuel : Nat} (hpad : padKps n M = .ok M') (hfuel : R < fuel)
    (hR : ∀ t, t < n → ∀ k, k < kpsOf M' t → sumTo ((padPattern n M' YP).getD t []) k < R) :
    ypToInter fuel n M YP = .ok (interUpTo n M' (padPattern n M' YP) R) := by
  have hstart : Decoding n M' (padPattern n M' YP) (fun _ => 0)
      ⟨padPattern n M' YP, List.replicate n 0, []⟩ := by
    refine ⟨padPattern_length n M' YP, Nat.le_of_eq List.length_replicate.symm, fun t ht => ?_⟩
    have hzero : (List.replicate n 0).getD t 0 = 0 := by
      rw [List.getD_eq_getElem?_getD, List.getElem?_replicate]
      split <;> rfl
    rw [hzero]
    refine ⟨Nat.zero_le _, padPattern_row ht, nofun, fun i _ _ => ?_⟩
    rw [Nat.zero_add]
    rfl
  rw [ypToInter, hpad]
  exact decodeLoop_eq hstart rfl (Nat.zero_le R) (by omega) hR

end Decoding

end Period.Interleaving
