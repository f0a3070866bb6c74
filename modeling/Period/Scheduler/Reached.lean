import Period.Scheduler.Given

/-!
# Whole runs behind a given prefix

With enough rounds for its loops the iteration stops after it has passed the triples of the
frame, and whatever it reaches with fewer rounds is among these.
-/

namespace Period.Scheduler

open Enumeration Search
set_option autoImplicit false

/-- The state is one of the iteration over `SBPMESched(n, kps, p, sched, fix_prefix=fix)`. -/
def SBPMESched.Reached (n : Nat) (kps : List Nat) (p : Nat) (sched : Schedule) (fix : Bool)
    (s : SBPMESched) : Prop :=
  ∃ fuel start, SBPMESched.init fuel n kps p sched fix = .ok start ∧
    Relation.ReflTransGen (fun a b => SBPMESched.nextIter fuel a = .ok b) start s

section Runs
variable {n p : Nat} {kps : List Nat} {sched : Schedule} {base : Sched} {fix : Bool}
  (hbase : Sched.initHelper n kps p sched = .ok base)
  (hsingle : ∀ period ∈ sched, SingleThread period) (hfix : fix = !sched.isEmpty)
include hbase hsingle hfix

theorem SBPMESched.init_given_mono {fuel fuel' : Nat} (hle : fuel ≤ fuel') {s : SBPMESched}
    (h : SBPMESched.init fuel n kps p sched fix = .ok s) :
    SBPMESched.init fuel' n kps p sched fix = .ok s := by
  obtain ⟨hpasses, v, hloop, rfl⟩ := (SBPMESched.init_given hbase hsingle hfix).mp h
  apply (SBPMESched.init_given hbase hsingle hfix).mpr
  exact ⟨hpasses, v, initLoop_mono hle (by simp) hloop, rfl⟩

variable {start : SBPMESched} {fuel₀ : Nat}
  (hinit : SBPMESched.init fuel₀ n kps p sched fix = .ok start)
include hinit

/-- The iteration stops after it has passed the triples, up to the order of the key points
inside the periods. -/
theorem SBPMESched.exhausts_frame {fuel : Nat} (hle : fuel₀ ≤ fuel)
    (hfuel : base.frame.Enough fuel) {k : Nat} (hk : base.frame.triples.length ≤ k) :
    SBPMESched.init fuel n kps p sched fix = .ok start ∧
      ∃ out, exhaust (SBPMESched.nextIter fuel) .stopIteration k start = some out ∧
        List.Forall₂ (SBPMESched.InFrame base.frame sched.dropLast (wordOf sched))
          base.frame.triples out := by
  refine ⟨SBPMESched.init_given_mono hbase hsingle hfix hle hinit, ?_⟩
  obtain ⟨hpasses, v, hv, _, hat⟩ := SBPMESched.init_inFrame hbase hsingle hfix hinit
  have hq : 0 < base.frame.q := Nat.sub_pos_of_lt hpasses.room
  have hled := Sched.frame_wellLed hbase hsingle
  have hfits := Sched.frame_fits hbase
  have hguard : base.frame.q = 1 → ∀ t, base.frame.last = some t → kpsOf base.frame.pool t = 0 := by
    intro hone
    apply hpasses.last_done
    have hroom := hpasses.room
    have : base.p - base.sched.length = 1 := hone
    omega
  have hhead := Frame.triples_head hled
  rw [Frame.pairs_head hv hguard] at hhead
  obtain ⟨rest, hrest⟩ := List.head?_eq_some_iff.mp hhead
  have hwalk := Frame.step_walks hled hq hfuel
  rw [hrest] at hwalk hk
  have hmem : ∀ a ∈ (v, base.frame.fresh v) :: rest, a ∈ base.frame.triples :=
    fun a ha => hrest ▸ ha
  rw [hrest]
  apply exhaust_follows hwalk _ _ hat (Nat.lt_of_succ_le hk)
  · intro a ha b s h hstep
    obtain ⟨s', hs', hb, _⟩ :=
      SBPMESched.nextIter_inFrame_some hled hq hfuel hfits (hmem a ha) h hstep
    exact ⟨s', hs', hb⟩
  · intro a ha s h hstep
    exact SBPMESched.nextIter_inFrame_none hq hfuel hfits (hmem a ha) h hstep

/-- The states of the iteration are those of the triples. -/
theorem SBPMESched.reached_forall₂ : ∃ out : List SBPMESched,
    (∀ s, SBPMESched.Reached n kps p sched fix s ↔ s ∈ out) ∧
      List.Forall₂ (SBPMESched.InFrame base.frame sched.dropLast (wordOf sched))
        base.frame.triples out := by
  obtain ⟨N, hN⟩ := base.frame.exists_enough
  have hrun := fun {fuel : Nat} (hle : max fuel₀ N ≤ fuel) =>
    SBPMESched.exhausts_frame hbase hsingle hfix hinit (by omega) (hN fuel (by omega))
      (Nat.le_refl _)
  obtain ⟨hinit', out, hout, hall⟩ := hrun (Nat.le_refl (max fuel₀ N))
  refine ⟨out, fun s => ⟨?_, fun hs => ⟨_, start, hinit', (mem_exhaust_iff hout s).mp hs⟩⟩, hall⟩
  rintro ⟨fuel, start', hstart, hreach⟩
  -- the same run with more rounds
  have hle : max fuel₀ N ≤ max fuel (max fuel₀ N) := Nat.le_max_right _ _
  have hsame := exhaust_of_agrees
    (fun s r h => SBPMESched.nextIter_mono hle (by simp) h)
    (fun s h => SBPMESched.nextIter_mono hle (by simp) h) hout
  have hinit'' := SBPMESched.init_given_mono hbase hsingle hfix hle hinit'
  rw [SBPMESched.init_given_mono hbase hsingle hfix (Nat.le_max_left fuel _) hstart] at hinit''
  cases hinit''
  apply (mem_exhaust_iff hsame s).mpr
  apply Relation.ReflTransGen.mono _ _ _ hreach
  intro a b h
  exact SBPMESched.nextIter_mono (Nat.le_max_left fuel _) (by simp) h

theorem SBPMESched.nextIter_triples {fuel : Nat} {a : (List Nat × List Nat) × Schedule}
    {s t : SBPMESched} (ha : a ∈ base.frame.triples)
    (h : SBPMESched.InFrame base.frame sched.dropLast (wordOf sched) a s)
    (hnext : s.nextIter fuel = .ok t) :
    ∃ b, (∃ pre post, base.frame.triples = pre ++ a :: b :: post) ∧
      SBPMESched.InFrame base.frame sched.dropLast (wordOf sched) b t ∧
      t.sched = normSched (base.frame.full sched.dropLast b) ∧
      t.schedPrefix = normSched (changedPrefix (base.frame.full sched.dropLast b) s.sched) := by
  obtain ⟨N, hN⟩ := base.frame.exists_enough
  obtain ⟨hpasses, _⟩ := SBPMESched.init_inFrame hbase hsingle hfix hinit
  have hq : 0 < base.frame.q := Nat.sub_pos_of_lt hpasses.room
  have hled := Sched.frame_wellLed hbase hsingle
  have hfits := Sched.frame_fits hbase
  have hfuel := hN _ (Nat.le_max_right fuel N)
  have hnext := SBPMESched.nextIter_mono (Nat.le_max_left fuel N) (by simp) hnext
  obtain ⟨pre, post, hsplit⟩ := List.append_of_mem ha
  have hwalk := walksTo_at (Frame.step_walks hled hq hfuel) hsplit
  rw [Option.or_none] at hwalk
  cases post with
  | nil =>
    rw [SBPMESched.nextIter_inFrame_none hq hfuel hfits ha h hwalk] at hnext
    cases hnext
  | cons b post =>
    obtain ⟨t', ht', hb, hsched, hprefix⟩ :=
      SBPMESched.nextIter_inFrame_some hled hq hfuel hfits ha h hwalk
    rw [ht'] at hnext
    cases hnext
    exact ⟨b, ⟨pre, post, hsplit⟩, hb, hsched, hprefix⟩

end Runs

end Period.Scheduler
