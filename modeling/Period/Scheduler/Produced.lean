import Mathlib.Logic.Relation
import Period.Scheduler.MixedEnd

/-!
# What the mixed-end scheduler produces

Whatever the key points per thread are, every schedule holds each key point of a thread
that has any exactly once. A chosen thread without key points gets a period all the same.
-/

namespace Period.Scheduler

open Parts Search
set_option autoImplicit false

/-- The state is one of the iteration over `SBPMESched(n, kps, p)`. -/
def SBPMESched.Produced (n : Nat) (kps : List Nat) (p : Nat) (s : SBPMESched) : Prop :=
  ∃ fuel start, SBPMESched.init fuel n kps p [] false = .ok start ∧
    Relation.ReflTransGen (fun a b => SBPMESched.nextIter fuel a = .ok b) start s

/-- The word uses up no thread too often; a thread of `mustDo` may always be used once. -/
structure Spends (n : Nat) (kps : List Nat) (mustDo : Finset Nat) (w : List Nat) : Prop where
  lt : ∀ t ∈ w, t < n
  count_le : ∀ t, w.count t ≤ if t ∈ mustDo then max 1 (kpsOf kps t) else kpsOf kps t

structure Usable (n : Nat) (kps : List Nat) (mustDo : Finset Nat) (w : List Nat) : Prop
    extends Spends n kps mustDo w where
  must : ∀ t ∈ mustDo, t ∈ w

section Words
variable {n : Nat} {kps : List Nat} {mustDo : Finset Nat} {last : Option Nat} {x : Nat}
  {w : List Nat}

theorem spends_tail (h : Spends n kps mustDo (x :: w)) :
    x < n ∧ (x ∈ mustDo ∨ 0 < kpsOf kps x) ∧ Spends n (useUp kps x) (mustDo.erase x) w := by
  have hx := h.count_le x
  rw [List.count_cons_self] at hx
  refine ⟨h.lt x List.mem_cons_self, ?_, fun t ht => h.lt t (List.mem_cons_of_mem x ht), ?_⟩
  · by_cases hmem : x ∈ mustDo
    · exact Or.inl hmem
    · rw [if_neg hmem] at hx
      exact Or.inr (by omega)
  · intro t
    rw [kpsOf_useUp]
    by_cases ht : x = t
    · subst ht
      rw [if_neg (Finset.notMem_erase x mustDo), if_pos rfl]
      split at hx <;> omega
    · have hcount := h.count_le t
      rw [List.count_cons_of_ne ht] at hcount
      simpa [ht, Ne.symm ht] using hcount

theorem usable_cons (hx : x < n) (hcan : x ∈ mustDo ∨ 0 < kpsOf kps x)
    (h : Usable n (useUp kps x) (mustDo.erase x) w) : Usable n kps mustDo (x :: w) := by
  refine ⟨⟨?_, ?_⟩, ?_⟩
  · intro t ht
    rcases List.mem_cons.mp ht with rfl | ht
    · exact hx
    · exact h.lt t ht
  · intro t
    have hcount := h.count_le t
    rw [kpsOf_useUp] at hcount
    by_cases ht : x = t
    · subst ht
      rw [if_neg (Finset.notMem_erase x mustDo), if_pos rfl] at hcount
      rw [List.count_cons_self]
      split
      · omega
      · next hmem =>
        have := hcan.resolve_left hmem
        omega
    · rw [List.count_cons_of_ne ht]
      simpa [ht, Ne.symm ht] using hcount
  · exact forall_mem_erase_iff.mp h.must

theorem usable_nil (h : mustDo = ∅) : Usable n kps mustDo [] := by
  subst h
  exact ⟨⟨nofun, fun _ => Nat.zero_le _⟩, nofun⟩

theorem usable_only (hmust : ∀ t ∈ mustDo, t < n) (hcard : mustDo.card = 1)
    (hx : mustDo.sort.head? = some x) : Usable n kps mustDo [x] := by
  have hmem : x ∈ mustDo := (Finset.mem_sort (· ≤ ·)).mp (List.mem_of_head? hx)
  apply usable_cons (hmust x hmem) (Or.inl hmem)
  apply usable_nil
  obtain ⟨y, rfl⟩ := Finset.card_eq_one.mp hcard
  rw [Finset.mem_singleton.mp hmem]
  exact Finset.erase_singleton y

theorem usable_all (hmust : ∀ t ∈ mustDo, t < n) (hx : x ∈ mustDo.sort) :
    Usable n kps mustDo (x :: mustDo.sort.erase x) := by
  have hperm : List.Perm mustDo.sort (x :: mustDo.sort.erase x) := List.perm_cons_erase hx
  have hmem : ∀ t, t ∈ x :: mustDo.sort.erase x ↔ t ∈ mustDo := fun t =>
    hperm.mem_iff.symm.trans (Finset.mem_sort (· ≤ ·))
  refine ⟨⟨fun t ht => hmust t ((hmem t).mp ht), ?_⟩, fun t ht => (hmem t).mpr ht⟩
  intro t
  by_cases ht : t ∈ mustDo
  · rw [if_pos ht, ← hperm.count_eq]
    exact Nat.le_trans (List.nodup_iff_count_le_one.mp (mustDo.sort_nodup (· ≤ ·)) t)
      (Nat.le_max_left _ _)
  · rw [if_neg ht, List.count_eq_zero.mpr fun h => ht ((hmem t).mp h)]
    exact Nat.zero_le _

theorem exists_of_search {l : List Nat} {f : Nat → Option (List Nat)}
    (h : (l.findSome? fun i =>
      if some i = last then none else if kpsOf kps i ≤ 0 then none else f i) = some w) :
    ∃ i ∈ l, 0 < kpsOf kps i ∧ f i = some w := by
  obtain ⟨i, hi, hsome⟩ := List.exists_of_findSome?_eq_some h
  split at hsome
  · cases hsome
  · split at hsome
    · cases hsome
    · next hpos => exact ⟨i, hi, Nat.lt_of_not_le hpos, hsome⟩

theorem initPattern_usable {p : Nat} (hmust : ∀ t ∈ mustDo, t < n)
    (h : initPattern n p kps mustDo last = some w) : w.length = p ∧ Usable n kps mustDo w := by
  induction p generalizing kps mustDo last w with
  | zero => cases h
  | succ p ih =>
    unfold initPattern at h
    split at h
    · cases h
    · next hcard =>
      split at h
      · next hp =>
        subst hp
        split at h
        · next hone =>
          obtain ⟨x, hx, hsome⟩ := Option.bind_eq_some_iff.mp h
          split at hsome
          · cases hsome
          · cases hsome
            exact ⟨rfl, usable_only hmust hone hx⟩
        · next hone =>
          have hempty : mustDo = ∅ := Finset.card_eq_zero.mp (by omega)
          obtain ⟨x, hx, hpos, hsome⟩ := exists_of_search h
          cases hsome
          refine ⟨rfl, usable_cons (List.mem_range.mp hx) (Or.inr hpos) ?_⟩
          apply usable_nil
          rw [hempty]
          rfl
      · split at h
        · next hall =>
          obtain ⟨x, hx, hsome⟩ := List.exists_of_findSome?_eq_some h
          split at hsome
          · cases hsome
          · cases hsome
            refine ⟨?_, usable_all hmust hx⟩
            rw [← (List.perm_cons_erase hx).length_eq, Finset.length_sort, hall]
        · obtain ⟨x, hx, hpos, hsome⟩ := exists_of_search h
          obtain ⟨sub, hsub, rfl⟩ := Option.map_eq_some_iff.mp hsome
          obtain ⟨hlen, husable⟩ := ih (fun t ht => hmust t (Finset.mem_of_mem_erase ht)) hsub
          exact ⟨congrArg (· + 1) hlen,
            usable_cons (List.mem_range.mp hx) (Or.inr hpos) husable⟩

theorem nextPattern_usable {p : Nat} {pattern : List Nat} (hmust : ∀ t ∈ mustDo, t < n)
    (hpattern : Spends n kps mustDo pattern)
    (h : nextPattern n p kps pattern mustDo last = some w) :
    w.length = p ∧ Usable n kps mustDo w := by
  have hrange : ∀ {y i : Nat}, i ∈ List.range' (y + 1) (n - (y + 1)) → i < n := by
    intro y i hi
    have := List.mem_range'_1.mp hi
    omega
  induction p generalizing kps pattern mustDo last w with
  | zero => cases h
  | succ p ih =>
    cases pattern with
    | nil => cases p <;> cases h
    | cons y rest =>
      cases p with
      | zero =>
        unfold nextPattern at h
        split at h
        · cases h
        · split at h
          · next hone =>
            obtain ⟨x, hx, hsome⟩ := Option.bind_eq_some_iff.mp h
            split at hsome
            · cases hsome
            · cases hsome
              exact ⟨rfl, usable_only hmust hone hx⟩
          · have hempty : mustDo = ∅ := Finset.card_eq_zero.mp (by omega)
            obtain ⟨x, hx, hpos, hsome⟩ := exists_of_search h
            cases hsome
            refine ⟨rfl, usable_cons (hrange hx) (Or.inr hpos) ?_⟩
            apply usable_nil
            rw [hempty]
            rfl
      | succ p =>
        obtain ⟨hy, hcan, htail⟩ := spends_tail hpattern
        rw [nextPattern] at h
        split at h
        · next sub hsub =>
          cases h
          obtain ⟨hlen, husable⟩ := ih (fun t ht => hmust t (Finset.mem_of_mem_erase ht)) htail hsub
          exact ⟨congrArg (· + 1) hlen, usable_cons hy hcan husable⟩
        · obtain ⟨x, hx, hpos, hsome⟩ := exists_of_search h
          obtain ⟨sub, hsub, rfl⟩ := Option.map_eq_some_iff.mp hsome
          obtain ⟨hlen, husable⟩ :=
            initPattern_usable (fun t ht => hmust t (Finset.mem_of_mem_erase ht)) hsub
          exact ⟨congrArg (· + 1) hlen, usable_cons (hrange hx) (Or.inr hpos) husable⟩

end Words

/-! ## Parts -/

/-- Parts of a word that use up all key points of its threads. -/
structure Filled (n : Nat) (kps w : List Nat) (parts : List (List Nat)) : Prop
    extends Parted n w parts where
  sum_eq : ∀ i, i < n → (parts.getD i []).sum = (firstParts (w.count i) (kpsOf kps i)).sum

theorem firstParts_sum (m total : Nat) :
    (firstParts m total).sum = if m = 0 then 0 else max m total := by
  cases m with
  | zero => rfl
  | succ m =>
    rw [if_neg (Nat.succ_ne_zero m), firstParts, List.sum_append, List.sum_replicate_nat,
      List.sum_singleton]
    omega

theorem firstParts_length (m total : Nat) : (firstParts m total).length = m := by
  cases m with
  | zero => rfl
  | succ m => rw [firstParts, List.length_append, List.length_replicate, List.length_singleton]

section Layouts
variable {n : Nat} {kps w : List Nat} {parts : List (List Nat)}

theorem filled_start (n : Nat) (kps w : List Nat) : Filled n kps w (startParts n kps w) := by
  refine ⟨⟨?_, ?_⟩, ?_⟩
  · rw [startParts, List.length_map, List.length_range]
  · intro i hi
    rw [startParts_getD kps w hi, firstParts_length]
  · intro i hi
    rw [startParts_getD kps w hi]

theorem filled_stepped (h : Filled n kps w parts) {i : Nat} (hi : i < n) {part : List Nat}
    (hlen : part.length = (parts.getD i []).length) (hsum : part.sum = (parts.getD i []).sum) :
    Filled n kps w (stepped n kps w parts i part) := by
  have hstart := filled_start n kps w
  have hilen : i < parts.length := h.length_eq ▸ hi
  have hget := @stepped_getD n kps w parts i hilen part
  refine ⟨⟨?_, ?_⟩, ?_⟩
  · rw [stepped, List.length_append, List.length_take, List.length_cons, List.length_drop,
      hstart.length_eq, h.length_eq]
    omega
  · intro x hx
    rw [hget]
    split
    · exact h.part_length x hx
    · split
      · next hxi =>
        rw [hlen, h.part_length i hi, hxi]
      · exact hstart.part_length x hx
  · intro x hx
    rw [hget]
    split
    · exact h.sum_eq x hx
    · split
      · next hxi =>
        rw [hsum, h.sum_eq i hi, hxi]
      · exact hstart.sum_eq x hx

/-- `_next_sched` moves key points between the periods of a thread. -/
theorem filled_next (hw : ∀ x ∈ w, x < n) (h : Filled n kps w parts) {sched : Schedule}
    (hnext : nextSched n kps w.length (layout w parts) w = some sched) :
    ∃ parts', sched = layout w parts' ∧ Filled n kps w parts' := by
  obtain ⟨i, hi, hat⟩ := List.exists_of_findSome?_eq_some hnext
  have hi : i < n := List.mem_range.mp (List.mem_reverse.mp hi)
  rcases shift_cases (parts.getD i []) with ⟨_, htail⟩ | ⟨pre, a, b, post, hsplit, hb, hpost⟩
  · rw [nextSchedAt_none htail] at hat
    cases hat
  · rw [nextSchedAt_some hw h.toParted hi hsplit hb hpost] at hat
    cases hat
    refine ⟨_, rfl, filled_stepped h hi ?_ ?_⟩
    · rw [hsplit, List.length_append, List.length_append]
      rfl
    · rw [hsplit]
      simp only [List.sum_append, List.sum_cons]
      omega

theorem filled_count (h : Filled n kps w parts) {t : Nat} (ht : t < n) :
    (layout w parts).flatten.count t = if w.count t = 0 then 0 else max (w.count t) (kpsOf kps t) := by
  rw [layout_flatten_count h.toParted ht, h.sum_eq t ht, firstParts_sum]

end Layouts

/-- The chosen threads with their key points and a word for them. -/
structure ChosenWord (n p : Nat) (kps chosen ckps pattern : List Nat) : Prop where
  chosen_lt : ∀ t ∈ chosen, t < n
  ckps_eq : ∀ t, kpsOf ckps t = if t ∈ chosen ∧ t < n then kpsOf kps t else 0
  length_eq : pattern.length = p
  usable : Usable n ckps chosen.toFinset pattern

section Words
variable {n p fuel : Nat} {kps chosen ckps pattern : List Nat} {last : Option Nat}

theorem nextChosen_lt (hchosen : ∀ t ∈ chosen, t < n) {next : List Nat}
    (h : nextChosen n p chosen = some next) : ∀ t ∈ next, t < n := by
  unfold nextChosen at h
  split at h
  · next bumped hbump =>
    cases h
    obtain ⟨i, hi, hsome⟩ := List.exists_of_findSome?_eq_some hbump
    have hi : i < chosen.length := List.mem_range.mp (List.mem_reverse.mp hi)
    dsimp only at hsome
    split at hsome
    · next hfit =>
      cases hsome
      intro t ht
      rcases List.mem_append.mp ht with ht | ht
      · exact hchosen t (List.mem_of_mem_take ht)
      · have := List.mem_range'_1.mp ht
        omega
    · cases hsome
  · dsimp only at h
    split at h
    · cases h
    · next hfit =>
      cases h
      intro t ht
      have := List.mem_range.mp ht
      omega

theorem mustDo_lt (hchosen : ∀ t ∈ chosen, t < n) : ∀ t ∈ chosen.toFinset, t < n :=
  fun t ht => hchosen t (List.mem_toFinset.mp ht)

theorem skipLoop_usable (hchosen : ∀ t ∈ chosen, t < n) {first : Option (List Nat)}
    (hfirst : ∀ w, first = some w → w.length = p ∧ Usable n ckps chosen.toFinset w)
    (h : skipLoop n p kps ckps chosen last fuel first = .ok (some pattern)) :
    pattern.length = p ∧ Usable n ckps chosen.toFinset pattern := by
  induction fuel generalizing first with
  | zero =>
    cases first with
    | none => cases h
    | some w => cases h
  | succ fuel ih =>
    cases first with
    | none => cases h
    | some w =>
      rw [skipLoop] at h
      split at h
      · apply ih _ h
        intro w' hw'
        exact nextPattern_usable (mustDo_lt hchosen) (hfirst w rfl).2.toSpends hw'
      · cases h
        exact hfirst _ rfl

theorem chosenWord_of_init {next : List Nat} (hnext : ∀ t ∈ next, t < n)
    (h : pattern.length = p ∧ Usable n (calCkps n kps next) next.toFinset pattern) :
    ChosenWord n p kps next (calCkps n kps next) pattern :=
  ⟨hnext, kpsOf_calCkps n kps next, h.1, h.2⟩

theorem chosenLoop_word (hchosen : ∀ t ∈ chosen, t < n) {rounds : Nat}
    {v : List Nat × List Nat × List Nat}
    (h : chosenLoop fuel n p kps last rounds chosen = .ok v) :
    ChosenWord n p kps v.1 v.2.1 v.2.2 := by
  induction rounds generalizing chosen with
  | zero => cases h
  | succ rounds ih =>
    rw [chosenLoop] at h
    cases hnext : nextChosen n p chosen with
    | none =>
      rw [hnext] at h
      cases h
    | some next =>
      have hlt := nextChosen_lt hchosen hnext
      rw [hnext] at h
      simp only [Bind.bind, Except.bind] at h
      cases hskip : skipLoop n p kps (calCkps n kps next) next last fuel
          (initPattern n p (calCkps n kps next) next.toFinset last) with
      | error e =>
        rw [hskip] at h
        cases h
      | ok found =>
        rw [hskip] at h
        cases found with
        | none => exact ih hlt h
        | some w =>
          cases h
          exact chosenWord_of_init hlt (skipLoop_usable hlt
            (fun w hw => initPattern_usable (mustDo_lt hlt) hw) hskip)

theorem nextWord_word (hword : ChosenWord n p kps chosen ckps pattern)
    {v : List Nat × List Nat × List Nat}
    (h : nextWord fuel n p kps last chosen ckps pattern = .ok v) :
    ChosenWord n p kps v.1 v.2.1 v.2.2 := by
  unfold nextWord at h
  simp only [Bind.bind, Except.bind] at h
  cases hskip : skipLoop n p kps ckps chosen last fuel
      (nextPattern n p ckps pattern chosen.toFinset last) with
  | error e =>
    rw [hskip] at h
    cases h
  | ok found =>
    rw [hskip] at h
    cases found with
    | none => exact chosenLoop_word hword.chosen_lt h
    | some w =>
      cases h
      obtain ⟨hlen, husable⟩ := skipLoop_usable hword.chosen_lt
        (fun w hw => nextPattern_usable (mustDo_lt hword.chosen_lt) hword.usable.toSpends hw) hskip
      exact ⟨hword.chosen_lt, hword.ckps_eq, hlen, husable⟩

theorem initLoop_word (hchosen : ∀ t ∈ chosen, t < n) {v : List Nat × List Nat}
    (h : initLoop n p kps last fuel chosen = .ok v) :
    ChosenWord n p kps v.1 (calCkps n kps v.1) v.2 := by
  induction fuel generalizing chosen with
  | zero => cases h
  | succ fuel ih =>
    rw [initLoop] at h
    cases hnext : nextChosen n p chosen with
    | none =>
      rw [hnext] at h
      cases h
    | some next =>
      have hlt := nextChosen_lt hchosen hnext
      simp only [hnext] at h
      cases hinit : initPattern n p (calCkps n kps next) next.toFinset last with
      | none =>
        rw [hinit] at h
        exact ih hlt h
      | some w =>
        rw [hinit] at h
        cases h
        exact chosenWord_of_init hlt (initPattern_usable (mustDo_lt hlt) hinit)

end Words

/-! ## The states -/

structure SBPMESched.Sound (n p : Nat) (kps : List Nat) (s : SBPMESched) : Prop where
  n_eq : s.n = n
  p_eq : s.p = p
  kps_eq : s.kps = kps
  kpPool_eq : s.kpPool = kps
  start_eq : s.start = 0
  word : ChosenWord n p kps s.chosen s.ckps s.pattern
  filled : ∃ parts, s.schedChosen = layout s.pattern parts ∧ Filled n s.ckps s.pattern parts
  schedOther_eq : s.schedOther = otherKps n kps s.ckps
  sched_perm : List.Forall₂ List.Perm s.sched (extendLast s.schedChosen s.schedOther)

section States
variable {n p fuel : Nat} {kps : List Nat} {s s' : SBPMESched}

theorem SBPMESched.sound_finish {sched : Schedule} (hn : s.n = n) (hp : s.p = p)
    (hkps : s.kps = kps) (hpool : s.kpPool = kps) (hstart : s.start = 0)
    (hword : ChosenWord n p kps s.chosen s.ckps s.pattern)
    (hfilled : ∃ parts, sched = layout s.pattern parts ∧ Filled n s.ckps s.pattern parts)
    (hother : s.schedOther = otherKps n kps s.ckps) :
    SBPMESched.Sound n p kps (s.finish sched) := by
  have hchosen : (s.finish sched).schedChosen = sched := by
    rw [SBPMESched.finish, hstart]
    rfl
  refine ⟨hn, hp, hkps, hpool, hstart, hword, ?_, hother, ?_⟩
  · rw [hchosen]
    exact hfilled
  · rw [hchosen]
    have hsched : (s.finish sched).sched = normSched (extendLast sched s.schedOther) := by
      rw [SBPMESched.finish, hstart]
      rfl
    rw [hsched]
    exact normSched_perm _

theorem filled_initSched {w ckps : List Nat} (hw : ∀ t ∈ w, t < n) (hlen : w.length = p) :
    ∃ parts, initSched n ckps p w = layout w parts ∧ Filled n ckps w parts := by
  refine ⟨startParts n ckps w, ?_, filled_start n ckps w⟩
  rw [← hlen]
  exact initSched_eq hw

theorem SBPMESched.sound_nextIter (h : SBPMESched.Sound n p kps s)
    (hnext : s.nextIter fuel = .ok s') : SBPMESched.Sound n p kps s' := by
  rw [SBPMESched.nextIter_eq h.start_eq] at hnext
  obtain ⟨parts, hlayout, hfilled⟩ := h.filled
  split at hnext
  · next sched hsched =>
    cases hnext
    rw [h.n_eq, h.p_eq, hlayout, ← h.word.length_eq] at hsched
    exact SBPMESched.sound_finish h.n_eq h.p_eq h.kps_eq h.kpPool_eq h.start_eq h.word
      (filled_next h.word.usable.lt hfilled hsched) h.schedOther_eq
  · simp only [Bind.bind, Except.bind, Pure.pure, Except.pure] at hnext
    cases hv : nextWord fuel s.n s.p s.kpPool none s.chosen s.ckps s.pattern with
    | error e =>
      rw [hv] at hnext
      cases hnext
    | ok v =>
      obtain ⟨chosen, ckps, pattern⟩ := v
      rw [hv] at hnext
      cases hnext
      rw [h.n_eq, h.p_eq, h.kpPool_eq] at hv
      have hword := nextWord_word h.word hv
      rw [h.n_eq, h.p_eq]
      apply @SBPMESched.sound_finish n p kps (s.withWord chosen ckps pattern) _ h.n_eq h.p_eq
        h.kps_eq h.kpPool_eq h.start_eq hword (filled_initSched hword.usable.lt hword.length_eq)
      show otherKps s.n s.kpPool ckps = otherKps n kps ckps
      rw [h.n_eq, h.kpPool_eq]

theorem SBPMESched.init_accepts {kps : List Nat} (h : SBPMESched.init fuel n kps p [] false = .ok s) :
    0 < p ∧ ∃ kps', padKps (max n kps.length) kps = .ok kps' := by
  cases hpad : padKps (max n kps.length) kps with
  | error e =>
    have hbase : Sched.initHelper n kps p [] = .error e := by
      unfold Sched.initHelper
      simp only [List.isEmpty_nil, if_true, hpad, Bind.bind, Except.bind]
    unfold SBPMESched.init at h
    rw [hbase] at h
    cases h
  | ok kps' =>
    refine ⟨?_, kps', rfl⟩
    by_contra hp
    obtain rfl : p = 0 := by omega
    unfold SBPMESched.init at h
    rw [initHelper_nil 0 hpad] at h
    cases h

theorem SBPMESched.sound_init {kps kps' : List Nat}
    (hpad : padKps (max n kps.length) kps = .ok kps')
    (h : SBPMESched.init fuel n kps p [] false = .ok s) :
    SBPMESched.Sound (max n kps.length) p kps' s := by
  rw [SBPMESched.init_nil (SBPMESched.init_accepts h).1 hpad] at h
  generalize max n kps.length = N at *
  cases hloop : initLoop N p kps' none fuel [] with
  | error e =>
    rw [hloop] at h
    cases h
  | ok v =>
    rw [hloop] at h
    cases h
    have hword := initLoop_word (fun t ht => absurd ht List.not_mem_nil) hloop
    have hmem : ∀ t, t ∈ v.1.mergeSort (· ≤ ·) ↔ t ∈ v.1 := fun t => List.mem_mergeSort
    have hset : (v.1.mergeSort (· ≤ ·)).toFinset = v.1.toFinset := by
      ext t
      rw [List.mem_toFinset, List.mem_toFinset, hmem]
    refine ⟨rfl, rfl, rfl, rfl, rfl, ⟨?_, ?_, hword.length_eq, ?_⟩,
      filled_initSched hword.usable.lt hword.length_eq, rfl, ?_⟩
    · intro t ht
      exact hword.chosen_lt t ((hmem t).mp ht)
    · intro t
      show kpsOf (calCkps N kps' v.1) t = if t ∈ v.1.mergeSort (· ≤ ·) ∧ t < N then _ else _
      rw [hword.ckps_eq]
      simp only [hmem]
    · show Usable N (calCkps N kps' v.1) (v.1.mergeSort (· ≤ ·)).toFinset v.2
      rw [hset]
      exact hword.usable
    · exact List.forall₂_same.mpr fun period _ => List.Perm.refl period

theorem SBPMESched.Produced.sound {kps : List Nat} (h : SBPMESched.Produced n kps p s) :
    ∃ kps', padKps (max n kps.length) kps = .ok kps' ∧
      SBPMESched.Sound (max n kps.length) p kps' s := by
  obtain ⟨fuel, start, hinit, hrun⟩ := h
  obtain ⟨_, kps', hpad⟩ := SBPMESched.init_accepts hinit
  refine ⟨kps', hpad, ?_⟩
  induction hrun with
  | refl => exact SBPMESched.sound_init hpad hinit
  | tail _ hnext ih => exact SBPMESched.sound_nextIter ih hnext

/-- Every key point of a thread that has any is in the schedule. -/
theorem SBPMESched.Sound.count (h : SBPMESched.Sound n p kps s) (hp : 0 < p) {t : Nat} (ht : t < n)
    (hpos : 0 < kpsOf kps t) : s.sched.flatten.count t = kpsOf kps t := by
  obtain ⟨parts, hlayout, hfilled⟩ := h.filled
  have hne : s.schedChosen ≠ [] := by
    intro hnil
    have hlen := congrArg List.length hlayout
    rw [hnil, layout_length, h.word.length_eq, List.length_nil] at hlen
    omega
  rw [(List.Perm.flatten_congr h.sched_perm).count_eq t, extendLast_count hne, h.schedOther_eq,
    otherKps_count, hlayout, filled_count hfilled ht]
  have hcount := h.word.usable.count_le t
  by_cases hmem : t ∈ s.chosen
  · have hckps : kpsOf s.ckps t = kpsOf kps t := by rw [h.word.ckps_eq, if_pos ⟨hmem, ht⟩]
    have hused : 0 < s.pattern.count t :=
      List.count_pos_iff.mpr (h.word.usable.must t (List.mem_toFinset.mpr hmem))
    rw [if_pos (List.mem_toFinset.mpr hmem), hckps] at hcount
    rw [hckps, if_neg (by omega), if_neg (by omega)]
    omega
  · have hckps : kpsOf s.ckps t = 0 := by rw [h.word.ckps_eq, if_neg fun hin => hmem hin.1]
    rw [if_neg (fun hin => hmem (List.mem_toFinset.mp hin)), hckps] at hcount
    rw [hckps, if_pos (by omega), if_pos ⟨ht, rfl⟩]
    exact Nat.zero_add _

theorem kpsOf_padKps {N i : Nat} {kps kps' : List Nat} (hpad : padKps N kps = .ok kps')
    (hi : i < kps.length) : kpsOf kps' i = kpsOf kps i := by
  unfold padKps at hpad
  split at hpad
  · split at hpad
    · cases hpad
    · cases hpad
      unfold kpsOf
      rw [List.getD_eq_getElem?_getD, List.getD_eq_getElem?_getD, List.getElem?_append_left hi]
  · cases hpad
    rfl

/-- The threads keep their key points, and the schedule holds all of them. -/
theorem SBPMESched.Produced.count {kps : List Nat} (h : SBPMESched.Produced n kps p s) {t : Nat}
    (ht : t < kps.length) :
    t < s.n ∧ kpsOf s.kps t = kpsOf kps t ∧
      (0 < kpsOf kps t → s.sched.flatten.count t = kpsOf kps t) := by
  obtain ⟨kps', hpad, hsound⟩ := h.sound
  obtain ⟨fuel, start, hinit, _⟩ := h
  have hkps := kpsOf_padKps hpad ht
  have htn : t < max n kps.length := Nat.lt_of_lt_of_le ht (Nat.le_max_right _ _)
  refine ⟨hsound.n_eq ▸ htn, hsound.kps_eq ▸ hkps, ?_⟩
  intro hpos
  rw [← hkps] at hpos ⊢
  exact hsound.count (SBPMESched.init_accepts hinit).1 htn hpos

end States

end Period.Scheduler
