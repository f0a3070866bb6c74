import Period.Scheduler.Kept

/-!
# Which prefixes are refused

A prefix that can be continued leaves room for a word of the remaining periods. The word
needs a last letter that differs from the one before it, so a continuation whose last
period goes on with the thread of the period before it is not found.
-/

namespace Period.Scheduler

open Enumeration Search
set_option autoImplicit false

/-- The prefix is continued to a schedule with the key points `kps`. -/
structure Extends (kps : List Nat) (p : Nat) (sched sched' : Schedule) : Prop
    extends MixedEndSched kps p sched' where
  kept : Keeps sched sched'

/-- The last period hosts a thread other than the one of the period in front of it. -/
def TurnsAtEnd (sched : Schedule) : Prop :=
  ∃ x ∈ sched.getLast?.getD [], some x ≠ (wordOf sched.dropLast).getLast?

theorem wordOf_count_le {sched : Schedule} (hsingle : ∀ period ∈ sched, SingleThread period)
    (i : Nat) : (wordOf sched).count i ≤ sched.flatten.count i := by
  induction sched with
  | nil => exact Nat.le_refl 0
  | cons period sched ih =>
    obtain ⟨t, m, rfl⟩ := hsingle period List.mem_cons_self
    have ih := ih fun q hq => hsingle q (List.mem_cons_of_mem _ hq)
    rw [List.flatten_cons, List.count_append, List.count_replicate, wordOf, List.map_cons,
      List.count_cons]
    rw [wordOf] at ih
    have hhead : (List.replicate (m + 1) t).headD 0 = t := rfl
    rw [hhead]
    split <;> omega

section Extends
variable {kps : List Nat} {p t m : Nat} {sched sched' : Schedule}

/-- What a continuation adds: single-thread periods and a last one. -/
theorem Extends.leaves (h : Extends kps p sched sched') (hroom : sched.length < p)
    (hsingle : ∀ period ∈ sched, SingleThread period)
    (hlast : sched.getLast? = some (List.replicate m t)) : ∃ u final,
      wordOf sched'.dropLast = wordOf sched ++ u ∧ sched'.getLast? = some final ∧ final ≠ [] ∧
      ∀ i, sched.flatten.count i + (u.count i + final.count i) ≤ kpsOf kps i := by
  obtain ⟨given, hgiven⟩ : ∃ given, sched = given ++ [List.replicate m t] :=
    List.getLast?_eq_some_iff.mp hlast
  obtain ⟨periods, final, hsched'⟩ := (List.eq_nil_or_concat' sched').resolve_left (by
    rintro rfl
    exact absurd h.length_eq (Nat.ne_of_lt (Nat.zero_lt_of_lt hroom)))
  have hsingles := h.single
  have hkept := h.kept
  have hlen := h.length_eq
  rw [hgiven, List.length_append, List.length_singleton] at hroom
  rw [hsched', List.dropLast_concat] at hsingles
  rw [hsched', List.length_append, List.length_singleton] at hlen
  obtain ⟨k, hle, hk⟩ := hkept.grown t m hlast
  have hfront := hkept.front
  have hindex : sched.length - 1 = given.length := by
    rw [hgiven, List.length_append, List.length_singleton, Nat.add_sub_cancel]
  rw [hindex, hsched', List.getElem?_append_left (by omega)] at hk
  rw [hindex, hsched', List.take_append_of_le_length (by omega), hgiven,
    List.dropLast_concat] at hfront
  obtain ⟨rest, rfl⟩ : ∃ rest, periods = given ++ List.replicate k t :: rest := by
    obtain ⟨hlt, hget⟩ := List.getElem?_eq_some_iff.mp hk
    refine ⟨periods.drop (given.length + 1), ?_⟩
    rw [← hget, ← List.drop_eq_getElem_cons hlt]
    exact (List.take_append_drop given.length periods).symm.trans (by rw [hfront])
  obtain ⟨m, rfl⟩ : ∃ l, m = l + 1 := by
    obtain ⟨x, l, hperiod⟩ := hsingle _ (List.mem_of_getLast? hlast)
    exact ⟨l, (List.replicate_inj.mp hperiod).1⟩
  obtain ⟨k, rfl⟩ := Nat.exists_eq_add_of_le hle
  have hfinal : sched'.getLast? = some final := by
    rw [hsched']
    exact List.getLast?_concat
  refine ⟨wordOf rest, final, ?_, hfinal, h.ne_nil final (List.mem_of_getLast? hfinal), ?_⟩
  · rw [hsched', List.dropLast_concat, wordOf_append, hgiven, wordOf_append, List.append_assoc]
    rw [Nat.add_right_comm]
    rfl
  · intro i
    have hcount := h.count_eq i
    have hrest : (wordOf rest).count i ≤ rest.flatten.count i :=
      wordOf_count_le (fun period hmem => hsingles period (by simp [hmem])) i
    rw [hsched'] at hcount
    rw [hgiven]
    simp only [List.flatten_append, List.flatten_cons, List.flatten_nil, List.append_nil,
      List.count_append, List.count_replicate] at hcount ⊢
    by_cases hti : (t == i) = true
    · rw [if_pos hti] at hcount ⊢
      omega
    · rw [if_neg hti] at hcount ⊢
      omega

end Extends

theorem keeps_append {sched : Schedule} {m t : Nat}
    (hlast : sched.getLast? = some (List.replicate m t)) (rest : Schedule) :
    Keeps sched (sched ++ rest) := by
  have hne : sched ≠ [] := by
    rintro rfl
    cases hlast
  have hlt : sched.length - 1 < sched.length := by
    have := List.length_pos_iff.mpr hne
    omega
  refine ⟨?_, fun t' m' h => ⟨m', Nat.le_refl m', ?_⟩⟩
  · rw [List.take_append_of_le_length (Nat.le_of_lt hlt), List.dropLast_eq_take]
  · rw [List.getElem?_append_left hlt, ← List.getLast?_eq_getElem?, h]

section Accepted
variable {n p m t : Nat} {kps kps' : List Nat} {sched sched' : Schedule} {base : Sched}
  (hbase : Sched.initHelper n kps p sched = .ok base)
  (hpad : padKps (threadsOf n kps sched) kps = .ok kps')
  (hsingle : ∀ period ∈ sched, SingleThread period)
  (hlast : sched.getLast? = some (List.replicate m t)) (hroom : sched.length < p)
include hbase hpad hsingle hlast hroom

/-- The room a continuation leaves, in terms of what the constructor has. -/
theorem Extends.room (h : Extends kps' p sched sched') : ∃ u final,
    wordOf sched'.dropLast = wordOf sched ++ u ∧ u.length + 1 = base.frame.q ∧
      sched'.getLast? = some final ∧ final ≠ [] ∧ (∀ i, i ∈ u ∨ i ∈ final → i < base.n) ∧
      ∀ i, i < base.n → u.count i + final.count i ≤ kpsOf base.kpPool i := by
  obtain ⟨u, final, hword, hfinal, hne, hcount⟩ := h.leaves hroom hsingle hlast
  obtain ⟨hsame, hp⟩ := Sched.initHelper_sched hbase
  refine ⟨u, final, hword, ?_, hfinal, hne, fun i hi => ?_, fun i hi => ?_⟩
  · have hlen := congrArg List.length hword
    rw [List.length_append, wordOf_length, wordOf_length, List.length_dropLast, h.length_eq] at hlen
    rw [Sched.frame, hsame, hp]
    dsimp only
    omega
  · by_contra hge
    have hzero := kpsOf_padded_zero hbase hpad (Nat.le_of_not_lt hge)
    have hle := hcount i
    rcases hi with hi | hi
    · have := List.count_pos_iff.mpr hi
      omega
    · have := List.count_pos_iff.mpr hi
      omega
  · obtain ⟨kps'', hpad', _, hcounts⟩ := initHelper_counts hbase
    rw [hpad] at hpad'
    cases hpad'
    have hle := hcount i
    have heq := (hcounts i hi).1
    omega

/-- The word of a continuation, closed by another thread of its last period or by an idle one. -/
theorem Extends.exists_word (h : Extends kps' p sched sched') {x : Nat}
    (hx : x ∈ sched'.getLast?.getD [] ∨ x < base.n ∧ kpsOf base.kpPool x = 0)
    (hturn : some x ≠ (wordOf sched'.dropLast).getLast?) :
    ∃ w, w.length = base.frame.q ∧ SearchWord base.n base.kpPool base.frame.last w := by
  obtain ⟨u, final, hword, hlen, hfinal, hne, hlt, hcount⟩ :=
    h.room hbase hpad hsingle hlast hroom
  have hchain := h.adjacent
  rw [hword] at hturn hchain
  rw [hfinal] at hx
  have hxn : x < base.n := hx.elim (fun hmem => hlt x (Or.inr hmem)) And.left
  have hall : (wordOf sched ++ (u ++ [x])).IsChain (· ≠ ·) := by
    rw [← List.append_assoc]
    apply List.isChain_append.mpr
    refine ⟨hchain, List.isChain_singleton x, fun y hy z hz => ?_⟩
    obtain rfl : x = z := Option.some.inj hz
    rintro rfl
    exact hturn hy.symm
  obtain ⟨_, hadj', hfirst⟩ := List.isChain_append.mp hall
  refine ⟨u ++ [x], by rw [List.length_append, List.length_singleton, hlen], ?_⟩
  apply searchWord_of_pos
  · intro y hy he
    rw [← wordOf_last, (Sched.initHelper_sched hbase).1] at he
    exact hfirst y he.symm y hy rfl
  · exact hadj'
  · intro i hi
    rcases List.mem_append.mp hi with hi | hi
    · exact hlt i (Or.inl hi)
    · rwa [List.mem_singleton.mp hi]
  · intro i hpos
    rcases Nat.lt_or_ge i base.n with hi | hi
    · have hle := hcount i hi
      rw [List.count_append, List.count_singleton]
      by_cases hix : i = x
      · subst hix
        have hmem : i ∈ final := hx.resolve_right fun hidle => absurd hpos (by omega)
        have := List.count_pos_iff.mpr hmem
        simp only [beq_self_eq_true, if_true]
        omega
      · rw [if_neg (by simpa using Ne.symm hix)]
        omega
    · rw [List.count_eq_zero.mpr]
      · exact Nat.zero_le _
      · intro hmem
        rcases List.mem_append.mp hmem with hmem | hmem
        · exact absurd (hlt i (Or.inl hmem)) (Nat.not_lt.mpr hi)
        · rw [List.mem_singleton.mp hmem] at hi
          omega
  · intro i hi
    rw [List.dropLast_concat] at hi
    have hle := hcount i (hlt i (Or.inl hi))
    have := List.count_pos_iff.mpr hi
    omega

/-- An idle thread always gives a word: only where one period is left and its thread is the one
of the prefix, another thread of the continuation takes its place. -/
theorem Extends.exists_word_of_idle (h : Extends kps' p sched sched') {i : Nat} (hi : i < base.n)
    (hidle : kpsOf base.kpPool i = 0) :
    ∃ w, w.length = base.frame.q ∧ SearchWord base.n base.kpPool base.frame.last w := by
  by_cases hturn : some i = (wordOf sched'.dropLast).getLast?
  · obtain ⟨u, final, hword, hlen, hfinal, hne, hlt, hcount⟩ :=
      h.room hbase hpad hsingle hlast hroom
    obtain ⟨y, hy⟩ := List.exists_mem_of_ne_nil final hne
    have hmem : y ∈ sched'.getLast?.getD [] := by
      rw [hfinal]
      exact hy
    apply h.exists_word hbase hpad hsingle hlast hroom (Or.inl hmem)
    rw [← hturn]
    intro he
    obtain rfl : y = i := Option.some.inj he
    have hle := hcount y hi
    have := List.count_pos_iff.mpr hy
    omega
  · exact h.exists_word hbase hpad hsingle hlast hroom (Or.inr ⟨hi, hidle⟩) hturn

/-- Where no thread is idle the first schedule is a continuation. -/
theorem exists_turning {fuel : Nat} {start : SBPMESched}
    (hwithin : ∀ i, sched.flatten.count i ≤ kpsOf kps' i)
    (hinit : SBPMESched.init fuel n kps p sched true = .ok start)
    (hbusy : ∀ i, i < base.n → 0 < kpsOf base.kpPool i) :
    ∃ sched', Extends kps' p sched sched' ∧ TurnsAtEnd sched' := by
  have hfix := fixed_of_last hlast
  obtain ⟨hpasses, v, hfirst, rfl, hat⟩ := SBPMESched.init_inFrame hbase hsingle hfix hinit
  have hled := Sched.frame_wellLed hbase hsingle
  obtain ⟨hsame, hp⟩ := Sched.initHelper_sched hbase
  have hguard : base.frame.q = 1 → ∀ x, base.frame.last = some x → kpsOf base.kpPool x = 0 := by
    intro hone
    have hq : base.p - base.sched.length = 1 := hone
    exact hpasses.last_done (by omega)
  have hv : v ∈ base.frame.pairs := List.mem_of_head? (Frame.pairs_head hfirst hguard)
  have ha := Frame.fresh_mem hled hv
  have hvisits := (Frame.mem_pairs_iff.mp hv).2.1
  obtain ⟨hlen, hne, hsingles, hadj⟩ := SBPMESched.inFrame_shape hbase hsingle hpasses ha hat
  obtain ⟨u, x, singles, k, final, hu, _, hsched, hfinal, hword, _⟩ :=
    SBPMESched.inFrame_split hbase hsingle hpasses ha hat
  dsimp only at hu
  refine ⟨(base.startAt v).sched, ⟨⟨?_, hne, hsingles, hadj, ?_⟩, ?_⟩, x, ?_, ?_⟩
  · rw [hlen, hp, Nat.max_eq_left (Nat.le_of_lt hroom)]
  · exact SBPMESched.inFrame_count hbase hpad hsingle hwithin hpasses ha hat
      fun i hi => hbusy i (hvisits.lt i hi)
  · have hnew : initSched base.n (base.frame.ckps v.1) base.frame.q v.2 ≠ [] := by
      intro hnil
      have hzero := congrArg List.length hnil
      rw [initSched_length, hu, List.length_append] at hzero
      exact absurd hzero (Nat.succ_ne_zero _)
    show Keeps sched (extendLast (base.sched ++ _) _)
    rw [hsame, extendLast_append hnew]
    exact keeps_append hlast _
  · rw [hsched, List.getLast?_concat]
    exact hfinal.symm.subset (by simp)
  · rw [hsched, List.dropLast_concat, hword]
    have hfirst' := hvisits.first
    have hchain := hvisits.adjacent
    rw [hu] at hfirst' hchain
    rcases List.eq_nil_or_concat' u with rfl | ⟨u, y, rfl⟩
    · rw [List.append_nil, ← hsame, wordOf_last]
      exact hfirst' x rfl
    · rw [← List.append_assoc, List.getLast?_concat]
      have hne := (List.isChain_append.mp hchain).2.2 y List.getLast?_concat x rfl
      exact fun he => hne (Option.some.inj he).symm

variable (hext : ∃ sched', Extends kps' p sched sched')
  (hdone : sched.length + 1 = p → kpsOf base.kpPool t = 0)
include hext hdone

/-- With a continuation, and unless one period is left and the thread of the prefix is not done,
the constructor accepts when a thread is idle or a continuation turns to another thread for its
last period. -/
theorem sbpmeSched_accepts_iff :
    (∃ fuel start, SBPMESched.init fuel n kps p sched true = .ok start) ↔
      (∃ i, i < base.n ∧ kpsOf base.kpPool i = 0) ∨
        ∃ sched', Extends kps' p sched sched' ∧ TurnsAtEnd sched' := by
  have hfix := fixed_of_last hlast
  obtain ⟨hsame, hp⟩ := Sched.initHelper_sched hbase
  obtain ⟨sched', h⟩ := hext
  obtain ⟨u, final, hword, hlen, hfinal, hne, hlt, hcount⟩ :=
    h.room hbase hpad hsingle hlast hroom
  rw [Nat.max_eq_left (Nat.le_of_lt hroom)] at hp
  constructor
  · rintro ⟨fuel, start, hinit⟩
    by_cases hidle : ∃ i, i < base.n ∧ kpsOf base.kpPool i = 0
    · exact Or.inl hidle
    · right
      apply exists_turning hbase hpad hsingle hlast hroom _ hinit
      · exact fun i hi => Nat.pos_of_ne_zero fun hzero => hidle ⟨i, hi, hzero⟩
      · obtain ⟨_, _, _, _, _, hle⟩ := h.leaves hroom hsingle hlast
        exact fun i => Nat.le_trans (Nat.le_add_right _ _) (hle i)
  · intro hcase
    apply (SBPMESched.init_accepts_iff hbase hsingle hfix).mpr
    refine ⟨⟨?_, ?_, by rw [hsame, hp]; exact hroom⟩, fun hnone => ?_⟩
    · have hchain := h.adjacent
      rw [hword] at hchain
      rw [hsame]
      exact (List.isChain_append.mp hchain).1
    · rw [hsame, hp, (Sched.frame_given hbase hsingle hlast).1]
      intro hone x hx
      obtain rfl := Option.some.inj hx
      exact hdone hone
    · have hexists : ∃ w, w.length = base.frame.q ∧
          SearchWord base.n base.kpPool base.frame.last w := by
        rcases hcase with ⟨i, hi, hidle⟩ | ⟨sched'', h', x, hx, hturn⟩
        · exact h.exists_word_of_idle hbase hpad hsingle hlast hroom hi hidle
        · exact h'.exists_word hbase hpad hsingle hlast hroom (Or.inl hx) hturn
      obtain ⟨w, hw, hsearch⟩ := hexists
      refine (Frame.firstPair_eq_none_iff ?_).mp hnone w hw hsearch
      omega

end Accepted

/-- Thread 0 can go on behind the prefix and thread 1 follows it. -/
theorem sbpmeSched_accepts_iff_around :
    (∃ fuel start, SBPMESched.init fuel 2 [3, 3] 4 [[1, 1]] true = .ok start) ↔
      (∃ i, i < 2 ∧ kpsOf [3, 1] i = 0) ∨
        ∃ sched', Extends [3, 3] 4 [[1, 1]] sched' ∧ TurnsAtEnd sched' := by
  have hsched : MixedEndSched [3, 3] 4 [[1, 1], [0], [1], [0, 0]] := by
    refine ⟨rfl, by simp, ?_, by simp [wordOf], fun i => ?_⟩
    · intro period hmem
      simp only [List.dropLast_cons_cons, List.dropLast_singleton, List.mem_cons, List.not_mem_nil,
        or_false] at hmem
      rcases hmem with rfl | rfl | rfl
      · exact ⟨1, 1, rfl⟩
      · exact ⟨0, 0, rfl⟩
      · exact ⟨1, 0, rfl⟩
    · rcases i with _ | _ | i
      · rfl
      · rfl
      · simp [kpsOf]
  have hlast : ([[1, 1]] : Schedule).getLast? = some (List.replicate 2 1) := rfl
  have hkept := keeps_append hlast [[0], [1], [0, 0]]
  have hsingle : ∀ period ∈ ([[1, 1]] : Schedule), SingleThread period :=
    fun period hmem => ⟨1, 1, List.mem_singleton.mp hmem⟩
  have hbase : Sched.initHelper 2 [3, 3] 4 [[1, 1]] = .ok ⟨2, [3, 3], 4, [[1, 1]], [3, 1]⟩ := rfl
  have hpad : padKps (threadsOf 2 [3, 3] [[1, 1]]) [3, 3] = .ok [3, 3] := rfl
  exact sbpmeSched_accepts_iff hbase hpad hsingle hlast (by simp) ⟨_, hsched, hkept⟩ (by simp)

/-- The last period of the only continuations goes on with thread 1. -/
theorem sbpmeSched_accepts_fails : (∃ sched', Extends [1, 3] 4 [[1]] sched') ∧
    ¬ ∃ fuel start, SBPMESched.init fuel 2 [1, 3] 4 [[1]] true = .ok start := by
  have hsingle : ∀ period ∈ ([[1]] : Schedule), SingleThread period :=
    fun period hmem => ⟨1, 0, List.mem_singleton.mp hmem⟩
  have hlast : ([[1]] : Schedule).getLast? = some (List.replicate 1 1) := rfl
  have hbase : Sched.initHelper 2 [1, 3] 4 [[1]] = .ok ⟨2, [1, 3], 4, [[1]], [1, 2]⟩ := rfl
  constructor
  · refine ⟨[[1]] ++ [[0], [1], [1]], ⟨rfl, by simp, ?_, by simp [wordOf], fun i => ?_⟩,
      keeps_append hlast _⟩
    · intro period hmem
      simp only [List.cons_append, List.nil_append, List.dropLast_cons_cons, List.dropLast_singleton,
        List.mem_cons, List.not_mem_nil, or_false] at hmem
      rcases hmem with rfl | rfl | rfl
      · exact ⟨1, 0, rfl⟩
      · exact ⟨0, 0, rfl⟩
      · exact ⟨1, 0, rfl⟩
    · rcases i with _ | _ | i
      · rfl
      · rfl
      · simp [kpsOf]
  -- the only word without equal neighbours uses thread 0 twice
  · intro haccepts
    apply ((SBPMESched.init_accepts_iff hbase hsingle rfl).mp haccepts).2
    apply (Frame.firstPair_eq_none_iff (Nat.zero_lt_succ 2)).mpr
    intro w hlen h
    obtain ⟨x, y, z, rfl⟩ := List.length_eq_three.mp hlen
    have hx : x < 2 := h.lt x (by simp)
    have hy : y < 2 := h.lt y (by simp)
    have hz : z < 2 := h.lt z (by simp)
    have hne : x ≠ 1 := fun he => h.first x rfl (congrArg some he)
    have hadj := h.adjacent
    simp only [List.isChain_cons_cons, List.isChain_singleton, and_true] at hadj
    obtain rfl : x = 0 := by omega
    obtain rfl : y = 1 := by omega
    obtain rfl : z = 0 := by omega
    have hcount := h.count_le 0 Nat.one_pos
    exact absurd hcount (by decide)

end Period.Scheduler
