import Period.Driver.Incremental

/-!
# What is tested between two pops

After a pop the loop tests the first interleaving with the prefix and then steps the whole list:
every later rearrangement within the period limit, those that have left the prefix included. The
search stays under the prefix just when no rearrangement that leaves it is within the limit.
-/

namespace Period.Driver.Incremental

open Blocks Enumeration Rearrangement Runs
open Period.Interleaving
open Period.Scheduler
set_option autoImplicit false

section Saved
variable (c : Options) (tempL : Interesting)

/-- What the counts leave for each thread after the prefix, in order. -/
def rest : List Nat := restOf tempL.N (tmpMList tempL) (getPrefix tempL.inter)

/-- The counts leave room for the prefix. -/
def Fits : Prop := ∀ i, (getPrefix tempL.inter).count i ≤ kpsOf (tmpMList tempL) i

/-- The first interleaving with the prefix and every later one within the period limit. -/
def steps : List (List Nat) :=
  (getPrefix tempL.inter ++ rest tempL) ::
    (later (getPrefix tempL.inter ++ rest tempL)).filter fun l => Respects c.periodLimit l

def roundsLeft (rounds : Nat) : Option Nat := if c.runsLimit = 0 then none else some (c.runsLimit - rounds)

def explored (rounds : Nat) : List (List Nat) :=
  if passedOver c (getPrefix tempL.inter) then []
  else (steps c tempL).take ((roundsLeft c rounds).getD (steps c tempL).length)

/-- Everything that is tested has the prefix and is within the period limit, and so is tested
everything with the prefix and the counts. -/
def UnderPrefix (tested : List (List Nat)) : Prop :=
  (∀ inter ∈ tested, getPrefix tempL.inter <+: inter ∧ Respects c.periodLimit inter) ∧
    ∀ inter, getPrefix tempL.inter <+: inter → (∀ i, inter.count i = kpsOf (tmpMList tempL) i) →
      Respects c.periodLimit inter → inter ∈ tested

/-- Some interleaving with the prefix and the counts is within the period limit. -/
def Extendable : Prop :=
  Fits tempL ∧ (c.periodLimit = 0 ∨ leastBlocks (getPrefix tempL.inter) (rest tempL) ≤ c.periodLimit)

/-- A greater thread can stand at some place of the prefix within the period limit. -/
def Leaves : Prop :=
  ∃ front y back, getPrefix tempL.inter = front ++ y :: back ∧ ∃ z ∈ back ++ rest tempL, y < z ∧
    (c.periodLimit = 0 ∨
      leastBlocks (front ++ [z]) ((y :: (back ++ rest tempL)).erase z) ≤ c.periodLimit)

/-- How many interleavings that keep the prefix are within the period limit. -/
def keeping : Nat :=
  ((rearrangements (rest tempL)).filter fun l => Respects c.periodLimit (getPrefix tempL.inter ++ l)).length

/-- When the tests stay under the prefix. An item that gives no test must have no interleaving;
otherwise the first interleaving is within the period limit, and either none leaves the prefix or
`runs_limit` stops the tests before it. -/
def StaysUnder (rounds : Nat) : Prop :=
  if passedOver c (getPrefix tempL.inter) ∨ roundsLeft c rounds = some 0 then ¬ Extendable c tempL
  else
    Respects c.periodLimit (getPrefix tempL.inter ++ rest tempL) ∧
    (∀ left ∈ roundsLeft c rounds, Fits tempL → keeping c tempL ≤ left) ∧
    ((∃ left ∈ roundsLeft c rounds, left ≤ keeping c tempL) ∨ ¬ Leaves c tempL)

end Saved

section Prefix
variable {c : Options} {tempL : Interesting}

theorem length_tmpMList : (tmpMList tempL).length = tempL.N := by
  rw [tmpMList, List.length_map, List.length_range]

theorem kpsOf_tmpMList_of_le {i : Nat} (hi : tempL.N ≤ i) : kpsOf (tmpMList tempL) i = 0 := by
  rw [kpsOf, List.getD_eq_default _ _ (by rwa [length_tmpMList])]

/-- Those with the counts are the rearrangements of what is left. -/
theorem counts_append_iff (l : List Nat) :
    (∀ i, (getPrefix tempL.inter ++ l).count i = kpsOf (tmpMList tempL) i) ↔
      Fits tempL ∧ l.Perm (rest tempL) := by
  rw [rest, perm_restOf_iff, Fits, ← forall_and]
  apply forall_congr'
  intro i
  rw [List.count_append]
  by_cases hi : i < tempL.N
  · rw [if_pos hi]
    omega
  · rw [if_neg hi, kpsOf_tmpMList_of_le (Nat.le_of_not_lt hi)]
    omega

theorem extendable_iff : Extendable c tempL ↔ ∃ inter, getPrefix tempL.inter <+: inter ∧
    (∀ i, inter.count i = kpsOf (tmpMList tempL) i) ∧ Respects c.periodLimit inter := by
  constructor
  · rintro ⟨hfits, hleast⟩
    obtain ⟨l, hl, hblocks⟩ := exists_blocks_eq_leastBlocks (getPrefix tempL.inter) (rest tempL)
    refine ⟨getPrefix tempL.inter ++ l, List.prefix_append _ _, (counts_append_iff l).mpr ⟨hfits, hl⟩, ?_⟩
    rw [respects_iff, hblocks]
    exact hleast
  · rintro ⟨inter, ⟨l, rfl⟩, hcounts, hrespects⟩
    obtain ⟨hfits, hl⟩ := (counts_append_iff l).mp hcounts
    refine ⟨hfits, (respects_iff.mp hrespects).imp_right fun hle => ?_⟩
    exact (leastBlocks_le hl).trans hle

/-- A later rearrangement that leaves the prefix has a greater thread at some place, and any such
thread can be followed by what is left in as few periods as that takes. -/
theorem leaves_iff_exists : Leaves c tempL ↔ ∃ inter ∈ later (getPrefix tempL.inter ++ rest tempL),
    ¬ getPrefix tempL.inter <+: inter ∧ Respects c.periodLimit inter := by
  constructor
  · rintro ⟨front, y, back, hsplit, z, hz, hyz, hleast⟩
    obtain ⟨l, hl, hblocks⟩ :=
      exists_blocks_eq_leastBlocks (front ++ [z]) ((y :: (back ++ rest tempL)).erase z)
    have hz : z ∈ y :: (back ++ rest tempL) := List.mem_cons_of_mem y hz
    have hperm : (front ++ z :: l).Perm (getPrefix tempL.inter ++ rest tempL) := by
      rw [hsplit, List.append_assoc, List.cons_append]
      exact ((hl.cons z).trans (List.perm_cons_erase hz).symm).append_left front
    obtain ⟨hlt, hleft⟩ := (@leaves_iff _ _ (getPrefix tempL.inter) (rest tempL) (front ++ z :: l)).mpr
      ⟨front, y, back, z, l, hsplit, rfl, hyz⟩
    refine ⟨front ++ z :: l, mem_later.mpr ⟨hperm, hlt⟩, hleft, ?_⟩
    rw [List.append_assoc, List.singleton_append] at hblocks
    rw [respects_iff, hblocks]
    exact hleast
  · rintro ⟨inter, hinter, hleft, hrespects⟩
    obtain ⟨hperm, hlt⟩ := mem_later.mp hinter
    obtain ⟨front, y, back, z, l, hsplit, rfl, hyz⟩ := leaves_iff.mp ⟨hlt, hleft⟩
    rw [hsplit, List.append_assoc, List.cons_append, List.perm_append_left_iff] at hperm
    have hz : z ∈ back ++ rest tempL := by
      rcases List.mem_cons.mp (hperm.subset List.mem_cons_self) with rfl | hz
      · exact absurd hyz (lt_irrefl z)
      · exact hz
    refine ⟨front, y, back, hsplit, z, hz, hyz, (respects_iff.mp hrespects).imp_right fun hle => ?_⟩
    have hl : l.Perm ((y :: (back ++ rest tempL)).erase z) :=
      List.Perm.cons_inv (hperm.trans (List.perm_cons_erase (List.mem_cons_of_mem y hz)))
    have hleast := @leastBlocks_le _ _ (front ++ [z]) _ _ hl
    rw [List.append_assoc, List.singleton_append] at hleast
    exact hleast.trans hle

variable (c tempL) in
def kept : List (List Nat) :=
  ((rearrangements (rest tempL)).map (getPrefix tempL.inter ++ ·)).filter fun l => Respects c.periodLimit l

variable (c tempL) in
def leaving : List (List Nat) :=
  ((later (getPrefix tempL.inter ++ rest tempL)).filter (¬ getPrefix tempL.inter <+: ·)).filter
    fun l => Respects c.periodLimit l

theorem length_kept : (kept c tempL).length = keeping c tempL := by
  rw [kept, List.filter_map, List.length_map]
  rfl

theorem mem_kept (hfits : Fits tempL) {inter : List Nat} : inter ∈ kept c tempL ↔
    getPrefix tempL.inter <+: inter ∧ (∀ i, inter.count i = kpsOf (tmpMList tempL) i) ∧
      Respects c.periodLimit inter := by
  rw [kept, List.mem_filter, List.mem_map, decide_eq_true_iff, ← and_assoc]
  apply and_congr_left'
  constructor
  · rintro ⟨l, hl, rfl⟩
    exact ⟨List.prefix_append _ _, (counts_append_iff l).mpr ⟨hfits, mem_rearrangements.mp hl⟩⟩
  · rintro ⟨⟨l, rfl⟩, hcounts⟩
    exact ⟨l, mem_rearrangements.mpr ((counts_append_iff l).mp hcounts).2, rfl⟩

theorem leaving_eq_nil_iff : leaving c tempL = [] ↔ ¬ Leaves c tempL := by
  rw [leaves_iff_exists, leaving, List.eq_nil_iff_forall_not_mem]
  simp only [List.mem_filter, decide_eq_true_iff, not_exists, not_and, and_imp]

theorem steps_eq (hfirst : Respects c.periodLimit (getPrefix tempL.inter ++ rest tempL)) :
    steps c tempL = kept c tempL ++ leaving c tempL := by
  have hsorted : (rest tempL).Pairwise (· ≤ ·) := restOf_sorted _ _ _
  have hall := congrArg (List.filter fun l => decide (Respects c.periodLimit l))
    (@cons_later_append _ _ (getPrefix tempL.inter) _ hsorted)
  rw [List.filter_append, List.filter_cons, if_pos (decide_eq_true hfirst)] at hall
  exact hall

theorem steps_nodup : (steps c tempL).Nodup := by
  have hsub : (steps c tempL).Sublist
      ((getPrefix tempL.inter ++ rest tempL) :: later (getPrefix tempL.inter ++ rest tempL)) :=
    List.filter_sublist.cons_cons _
  exact ((later_sorted _).imp ne_of_lt).sublist hsub

end Prefix

/-! ## The condition -/

section Cut
variable {α : Type} {as bs : List α} {m : Nat}

theorem forall_mem_take_append_iff {q : α → Prop} (has : ∀ a ∈ as, q a) (hbs : ∀ b ∈ bs, ¬ q b) :
    (∀ a ∈ (as ++ bs).take m, q a) ↔ m ≤ as.length ∨ bs = [] := by
  rw [List.take_append]
  constructor
  · intro h
    by_contra hnot
    rw [not_or, not_le] at hnot
    obtain ⟨b, bs, rfl⟩ := List.exists_cons_of_ne_nil hnot.2
    obtain ⟨k, hk⟩ : ∃ k, m - as.length = k + 1 := ⟨m - as.length - 1, by omega⟩
    refine hbs b List.mem_cons_self (h b (List.mem_append_right _ ?_))
    rw [hk, List.take_succ_cons]
    exact List.mem_cons_self
  · intro h a ha
    rcases List.mem_append.mp ha with ha | ha
    · exact has a (List.mem_of_mem_take ha)
    · rcases h with hm | rfl
      · rw [Nat.sub_eq_zero_of_le hm] at ha
        exact absurd ha List.not_mem_nil
      · rw [List.take_nil] at ha
        exact absurd ha List.not_mem_nil

theorem subset_take_append_iff (hnodup : (as ++ bs).Nodup) : as ⊆ (as ++ bs).take m ↔ as.length ≤ m := by
  constructor
  · intro h
    by_contra hm
    have hdrop : as.drop m ≠ [] := fun hnil => hm (List.drop_eq_nil_iff.mp hnil)
    obtain ⟨a, ha⟩ := List.exists_mem_of_ne_nil _ hdrop
    have htake := h (List.mem_of_mem_drop ha)
    rw [List.take_append_of_le_length (by omega)] at htake
    have hsplit := (List.nodup_append.mp hnodup).1
    rw [← List.take_append_drop m as] at hsplit
    exact (List.nodup_append.mp hsplit).2.2 a htake a ha rfl
  · intro hm a ha
    rw [List.take_append, List.take_of_length_le hm]
    exact List.mem_append_left _ ha

end Cut

section Condition
variable {c : Options} {tempL : Interesting} {rounds : Nat}

theorem underPrefix_nil_iff : UnderPrefix c tempL [] ↔ ¬ Extendable c tempL := by
  rw [extendable_iff, UnderPrefix]
  simp only [List.not_mem_nil, false_imp_iff, implies_true, true_and, not_exists, not_and, imp_false]

/-- The first interleaving is within the limit: what is tested is cut out of what keeps the prefix
and what leaves it. -/
theorem underPrefix_take_iff (hfirst : Respects c.periodLimit (getPrefix tempL.inter ++ rest tempL))
    (m : Nat) : UnderPrefix c tempL ((steps c tempL).take m) ↔
      (Fits tempL → keeping c tempL ≤ m) ∧ (m ≤ keeping c tempL ∨ ¬ Leaves c tempL) := by
  have hkept : ∀ inter ∈ kept c tempL, getPrefix tempL.inter <+: inter ∧ Respects c.periodLimit inter := by
    intro inter hinter
    obtain ⟨hinter, hrespects⟩ := List.mem_filter.mp hinter
    obtain ⟨l, _, rfl⟩ := List.mem_map.mp hinter
    exact ⟨List.prefix_append _ _, of_decide_eq_true hrespects⟩
  have hleaving : ∀ inter ∈ leaving c tempL,
      ¬ (getPrefix tempL.inter <+: inter ∧ Respects c.periodLimit inter) := by
    intro inter hinter h
    exact of_decide_eq_true (List.mem_filter.mp (List.mem_filter.mp hinter).1).2 h.1
  have hnodup : (kept c tempL ++ leaving c tempL).Nodup := by
    rw [← steps_eq hfirst]
    exact steps_nodup
  rw [UnderPrefix, steps_eq hfirst, forall_mem_take_append_iff hkept hleaving,
    length_kept, leaving_eq_nil_iff,
    and_comm]
  apply and_congr_left'
  rw [← length_kept, ← subset_take_append_iff hnodup]
  constructor
  · intro h hfits inter hinter
    obtain ⟨hpre, hcounts, hrespects⟩ := (mem_kept hfits).mp hinter
    exact h inter hpre hcounts hrespects
  · intro h inter hpre hcounts hrespects
    have hfits : Fits tempL := by
      obtain ⟨l, rfl⟩ := hpre
      exact ((counts_append_iff l).mp hcounts).1
    exact h hfits ((mem_kept hfits).mpr ⟨hpre, hcounts, hrespects⟩)

theorem underPrefix_explored_iff : UnderPrefix c tempL (explored c tempL rounds) ↔ StaysUnder c tempL rounds := by
  rw [explored, StaysUnder]
  by_cases hpassed : passedOver c (getPrefix tempL.inter) = true
  · rw [if_pos hpassed, if_pos (Or.inl hpassed)]
    exact underPrefix_nil_iff
  · rw [if_neg hpassed]
    by_cases hzero : roundsLeft c rounds = some 0
    · rw [if_pos (Or.inr hzero), hzero, Option.getD_some, List.take_zero]
      exact underPrefix_nil_iff
    · rw [if_neg (not_or.mpr ⟨hpassed, hzero⟩)]
      by_cases hfirst : Respects c.periodLimit (getPrefix tempL.inter ++ rest tempL)
      · rw [underPrefix_take_iff hfirst]
        have hlen := congrArg List.length (steps_eq hfirst)
        rw [List.length_append, length_kept] at hlen
        cases hleft : roundsLeft c rounds with
        | none =>
          rw [Option.getD_none, ← leaving_eq_nil_iff, ← List.length_eq_zero_iff]
          simp only [Option.mem_def, reduceCtorEq, false_imp_iff, implies_true, true_and, false_and,
            exists_false, false_or, hfirst]
          omega
        | some k => simp [hfirst]
      · -- the first one is tested all the same
        refine iff_of_false (fun h => hfirst (h.1 _ ?_).2) (fun h => hfirst h.1)
        cases hleft : roundsLeft c rounds with
        | none =>
          rw [Option.getD_none, List.take_length]
          exact List.mem_cons_self
        | some k =>
          obtain ⟨k, rfl⟩ : ∃ j, k = j + 1 := Nat.exists_eq_succ_of_ne_zero fun h => hzero (by rw [hleft, h])
          rw [Option.getD_some, steps, List.take_succ_cons]
          exact List.mem_cons_self

end Condition

/-! ## The run after a pop -/

section Run
variable {c : Options} {s : State}

theorem interleavingIterNext_eq (tempL : Interesting) :
    interleavingIterNext tempL.N (tmpMList tempL) tempL.inter = .ok (getPrefix tempL.inter ++ rest tempL) := by
  have hpad : padKps tempL.N (tmpMList tempL) = .ok (tmpMList tempL) := by
    rw [padKps, length_tmpMList, if_neg (Nat.lt_irrefl _)]
  have hinit := interleavingInit_takeOff (Nat.le_of_eq (@length_tmpMList tempL).symm) (getPrefix tempL.inter)
  rw [interleavingIterNext, hpad]
  simp only [bind, Except.bind, hinit]
  rfl

theorem interleavingIterNext_eq_head {fuel n : Nat} {M parent : List Nat} {out : List (List Nat)}
    (hout : interleavingIter fuel n M parent = .ok out) :
    ∃ inter, out.head? = some inter ∧ interleavingIterNext n M parent = .ok inter := by
  rw [interleavingIter] at hout
  rw [interleavingIterNext]
  cases hpad : padKps n M with
  | error e =>
    rw [hpad] at hout
    cases hout
  | ok M =>
    simp only [hpad, bind, Except.bind] at hout ⊢
    cases hinit : interleavingInit n (takeOff M (getPrefix parent)) with
    | error e =>
      rw [hinit] at hout
      cases hout
    | ok suffix =>
      rw [hinit] at hout
      simp only at hout ⊢
      cases hrun : exhaust nextSuffix .stopIteration fuel suffix with
      | none =>
        rw [hrun] at hout
        cases hout
      | some suffixes =>
        rw [hrun] at hout
        obtain rfl := Except.ok.inj hout
        obtain ⟨rest, rfl⟩ := exhaust_head hrun
        exact ⟨_, rfl, rfl⟩

variable (c s) in
/-- There is no list left that was chosen before the tests. -/
def NoDirect : Prop := c.varModeFlag = 0 ∨ s.curdirectInter = none ∧ s.directInterList = []

theorem noDirect_of_popping (inter : List Nat) (directInterList : List (List Nat)) (es : List Event)
    (hphase : (run (step c) es (start inter directInterList)).phase = .popping) :
    NoDirect c (run (step c) es (start inter directInterList)) := by
  have hstep : ∀ (e : Event) (s : State), (s.phase = .popping → NoDirect c s) → True →
      (step c e s).phase = .popping → NoDirect c (step c e s) := by
    intro e s hs _
    unfold step
    split
    · -- a test
      rw [runTest]
      simp only
      split
      · exact nofun
      · next htesting _ =>
        rw [endTest]
        split
        · exact fun h => absurd (htesting.symm.trans h) nofun
        · split
          · next hflag => exact fun _ => Or.inl hflag
          · split
            · exact fun h => absurd (htesting.symm.trans h) nofun
            · next hnone => exact fun _ => Or.inr ⟨rfl, List.getLast?_eq_none_iff.mp hnone⟩
    · next hpopping =>
      rw [popItem]
      split
      · exact nofun
      · simp only
        split
        · exact fun _ => hs hpopping
        · split
          · exact nofun
          · exact nofun
    · exact hs
  exact run_of_inv hstep nofun (meets_true es _) hphase

/-! A test, when no such list is left. -/

theorem runTest_of_limit (found : Option Found) (hzero : roundsLeft c s.rounds = some 0) :
    (runTest c found s).phase = .ended ∧ (runTest c found s).tested = s.tested := by
  have hlimit : c.runsLimit ≠ 0 ∧ s.rounds + 1 > c.runsLimit := by
    rw [roundsLeft] at hzero
    split at hzero
    · cases hzero
    · next hlimit =>
      have hle := Option.some.inj hzero
      exact ⟨hlimit, by omega⟩
  rw [runTest]
  simp only
  rw [if_pos hlimit]
  exact ⟨rfl, rfl⟩

theorem runTest_tests (hs : NoDirect c s) (found : Option Found) (hzero : roundsLeft c s.rounds ≠ some 0) :
    (runTest c found s).tested = s.tested ++ [s.inter] ∧ (runTest c found s).rounds = s.rounds + 1 ∧
    NoDirect c (runTest c found s) ∧
    (∀ inter, nextLegalInter c.periodLimit s.inter = some inter →
      (runTest c found s).phase = s.phase ∧ (runTest c found s).inter = inter) ∧
    (nextLegalInter c.periodLimit s.inter = none → (runTest c found s).phase = .popping) := by
  have hlimit : ¬ (c.runsLimit ≠ 0 ∧ s.rounds + 1 > c.runsLimit) := by
    rintro ⟨hlimit, hle⟩
    rw [roundsLeft, if_neg hlimit] at hzero
    exact hzero (congrArg some (by omega))
  have hinter : (if c.varModeFlag = 0 then s.inter else s.curdirectInter.getD s.inter) = s.inter := by
    split
    · rfl
    · next hflag =>
      rcases hs with hzero | ⟨hnone, _⟩
      · exact absurd hzero hflag
      · rw [hnone, Option.getD_none]
  rw [runTest]
  simp only
  rw [if_neg hlimit, hinter, endTest]
  simp only
  cases hnext : nextLegalInter c.periodLimit s.inter with
  | some inter =>
    refine ⟨rfl, rfl, hs.imp_right fun h => ⟨by simp only [h.1, Option.map_none], h.2⟩, ?_, nofun⟩
    intro inter' hinter'
    exact ⟨rfl, Option.some.inj hinter'⟩
  | none =>
    simp only
    by_cases hflag : c.varModeFlag = 0
    · rw [if_pos hflag]
      exact ⟨rfl, rfl, Or.inl hflag, nofun, fun _ => rfl⟩
    · obtain ⟨_, hnil⟩ := hs.resolve_left hflag
      rw [if_neg hflag, hnil, List.getLast?_nil]
      exact ⟨rfl, rfl, Or.inr ⟨rfl, rfl⟩, nofun, fun _ => rfl⟩

theorem run_tests_idle (hphase : s.phase ≠ .testing) (founds : List (Option Found)) :
    run (step c) (founds.map .test) s = s := by
  induction founds with
  | nil => rfl
  | cons found founds ih =>
    rw [List.map_cons, run]
    have hstep : step c (.test found) s = s := by
      unfold step
      split
      · next htesting => exact absurd htesting hphase
      · next heq _ => cases heq
      · rfl
    rw [hstep]
    exact ih

/-- Enough tests go through the list to its end or to the limit. -/
theorem run_tests {l : List (List Nat)} (hw : WalksTo (nextLegalInter c.periodLimit) (s.inter :: l) none)
    (hphase : s.phase = .testing) (hs : NoDirect c s) {founds : List (Option Found)}
    (hfounds : l.length < founds.length) :
    (run (step c) (founds.map .test) s).phase ≠ .testing ∧
    (run (step c) (founds.map .test) s).tested =
      s.tested ++ (s.inter :: l).take ((roundsLeft c s.rounds).getD (l.length + 1)) := by
  induction founds generalizing l s with
  | nil => exact absurd hfounds (Nat.not_lt_zero _)
  | cons found founds ih =>
    have hstep : step c (.test found) s = runTest c found s := by
      unfold step
      split
      · next heq _ => rw [Event.test.inj heq]
      · next heq _ => cases heq
      · next htest _ => exact absurd hphase (htest found rfl)
    rw [List.map_cons, run, hstep]
    by_cases hzero : roundsLeft c s.rounds = some 0
    · obtain ⟨hended, htested⟩ := runTest_of_limit found hzero
      have hnot : (runTest c found s).phase ≠ .testing := by
        rw [hended]
        exact nofun
      rw [run_tests_idle hnot, htested, hzero, Option.getD_some, List.take_zero, List.append_nil]
      exact ⟨hnot, rfl⟩
    · obtain ⟨htested, hrounds, hdirect, hsome, hnone⟩ := runTest_tests hs found hzero
      -- one of the rounds that are left is used
      have hleft : (roundsLeft c s.rounds).getD (l.length + 1) =
          (roundsLeft c (runTest c found s).rounds).getD l.length + 1 := by
        rw [hrounds]
        rw [roundsLeft] at hzero ⊢
        rw [roundsLeft]
        split
        · rfl
        · next hlimit =>
          rw [if_neg hlimit] at hzero
          have hpos : c.runsLimit - s.rounds ≠ 0 := fun h => hzero (congrArg some h)
          rw [Option.getD_some, Option.getD_some]
          omega
      rw [hleft, List.take_succ_cons]
      cases l with
      | nil =>
        have hnot : (runTest c found s).phase ≠ .testing := by
          rw [hnone hw.1]
          exact nofun
        rw [run_tests_idle hnot, htested, List.take_nil]
        exact ⟨hnot, rfl⟩
      | cons inter l =>
        obtain ⟨hnext, hinter⟩ := hsome inter hw.1
        have hrest := hw.2
        rw [← hinter] at hrest
        obtain ⟨hover, hall⟩ := ih hrest (hnext.trans hphase) hdirect (Nat.lt_of_succ_lt_succ hfounds)
        refine ⟨hover, ?_⟩
        rw [hall, htested, hinter, List.append_assoc, List.singleton_append, List.length_cons]

theorem run_pop {k : Nat} {tempL : Interesting} {waiting : OrderedDict Nat Interesting}
    (hphase : s.phase = .popping) (hs : NoDirect c s)
    (hpop : s.waitedToExplore.popFirst = some ((k, tempL), waiting)) {founds : List (Option Found)}
    (hfounds : (steps c tempL).length ≤ founds.length) :
    (run (step c) (.pop :: founds.map .test) s).phase ≠ .testing ∧
    (run (step c) (.pop :: founds.map .test) s).tested = explored c tempL s.rounds := by
  have hstep : step c .pop s = popItem c s := by
    unfold step
    split
    · next heq _ => cases heq
    · rfl
    · next hnot => exact absurd hphase (hnot rfl)
  rw [run, hstep, popItem, hpop, explored]
  simp only
  split
  · have hnot : s.phase ≠ .testing := by
      rw [hphase]
      exact nofun
    have hidle := @run_tests_idle c { s with waitedToExplore := waiting, tested := [] } hnot founds
    rw [hidle]
    exact ⟨hnot, rfl⟩
  · rw [interleavingIterNext_eq]
    have hwalk := nextLegalInter_walks c.periodLimit (getPrefix tempL.inter ++ rest tempL)
    exact @run_tests c { s with
      phase := .testing
      inter := getPrefix tempL.inter ++ rest tempL
      waitedToExplore := waiting
      tested := [] } _ hwalk rfl hs _ hfounds

end Run

/-- In every run, after every pop: enough tests end the exploration, and what they have tested is
all under the prefix and complete just when the item and the rounds that are left meet the
condition. -/
theorem explored_underPrefix_iff (c : Options) (inter : List Nat) (directInterList : List (List Nat))
    (es : List Event) {k : Nat} {tempL : Interesting} {waiting : OrderedDict Nat Interesting}
    (hphase : (run (step c) es (start inter directInterList)).phase = .popping)
    (hpop : (run (step c) es (start inter directInterList)).waitedToExplore.popFirst =
      some ((k, tempL), waiting)) :
    ∃ tests, ∀ founds : List (Option Found), tests ≤ founds.length →
      let s := run (step c) (es ++ .pop :: founds.map .test) (start inter directInterList)
      s.phase ≠ .testing ∧
      (UnderPrefix c tempL s.tested ↔
        StaysUnder c tempL (run (step c) es (start inter directInterList)).rounds) := by
  have hdirect := noDirect_of_popping inter directInterList es hphase
  refine ⟨(steps c tempL).length, fun founds hfounds => ?_⟩
  obtain ⟨hover, htested⟩ := run_pop hphase hdirect hpop hfounds
  simp only
  rw [run_append, htested]
  exact ⟨hover, underPrefix_explored_iff⟩

/-! Two threads. A test meets a second key point of thread 1. -/

def secondKeyPoint : Found where
  coverageHashID := 7
  pattern := [[0, 0], [1]]
  A := 2
  B := 2
  kpNumArray := fun _ => 2

def withinFour : Options where
  varModeFlag := 0
  periodLimit := 4
  runsLimit := 0

/-- The prefix is `[1]`. -/
theorem explored_underPrefix_iff_last :
    let es := [.test none, .test none, .test (some secondKeyPoint)]
    let tempL := tmpList [1, 0, 0] secondKeyPoint
    ∃ tests, ∀ founds : List (Option Found), tests ≤ founds.length →
      let s := run (step withinFour) (es ++ .pop :: founds.map .test) (start [0, 0, 1] [])
      s.phase ≠ .testing ∧
      (UnderPrefix withinFour tempL s.tested ↔
        StaysUnder withinFour tempL (run (step withinFour) es (start [0, 0, 1] [])).rounds) :=
  explored_underPrefix_iff withinFour [0, 0, 1] [] [.test none, .test none, .test (some secondKeyPoint)] rfl rfl

/-- The prefix is `[0, 1]`, and `[1, 0, 0, 1]` is tested. -/
theorem explored_leaves_prefix : ¬ ∀ (c : Options) (inter : List Nat) (directInterList : List (List Nat))
    (es : List Event) (k : Nat) (tempL : Interesting) (waiting : OrderedDict Nat Interesting)
    (founds : List (Option Found)),
    let s := run (step c) es (start inter directInterList)
    let s' := run (step c) (es ++ .pop :: founds.map .test) (start inter directInterList)
    s.phase = .popping → s.waitedToExplore.popFirst = some ((k, tempL), waiting) →
    getPrefix tempL.inter ≠ [] → s'.phase ≠ .testing → UnderPrefix c tempL s'.tested := by
  intro h
  have hunder := h withinFour [0, 0, 1] [] [.test none, .test (some secondKeyPoint), .test none] 7
    (tmpList [0, 1, 0] secondKeyPoint) .empty [none, none, none, none, none] rfl rfl (by decide) (by decide)
  have htested : [1, 0, 0, 1] ∈ (run (step withinFour) ([.test none, .test (some secondKeyPoint), .test none] ++
      .pop :: [none, none, none, none, none].map .test) (start [0, 0, 1] [])).tested := by decide
  exact absurd (hunder.1 _ htested).1 (by decide)

end Period.Driver.Incremental
