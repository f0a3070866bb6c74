import Mathlib.Logic.Function.Basic
import Period.Foundation.Runs

/-!
# The thread-id handshake

`before_pthread_create` hands the next number to the child that is about to be created,
`instr_PthreadCall` takes it there. The number travels through `tid_to_run`; one step is one
access to `tid_to_run` or to `c_tid`. Threads are numbered in the order in which they are
created, the main thread is `0`. The system may give the id of a thread that has ended to a
new one.
-/

namespace Period.Runtime

open Runs
set_option autoImplicit false

inductive Pc where
  | running
  /-- `while(get_tid_to_run() != 0)` -/
  | testing
  /-- `c_tid ++`: to be read -/
  | reading
  /-- `c_tid ++`: to be written -/
  | writing (r : Nat)
  /-- `set_tid_to_run(c_tid)`: the argument is to be read -/
  | rereading
  | setting (r : Nat)
  /-- `pthread_create` after the `j`-th completed `before_pthread_create` -/
  | creating (j : Nat)
  /-- a new thread enters its function -/
  | starting
  /-- a thread calls such a function itself -/
  | calling
  /-- `while(get_tid_to_run() == 0)` -/
  | waiting
  /-- `int sched_tid = get_tid_to_run()` -/
  | taking
  | registering (schedTid : Nat)
  /-- `set_tid_to_run(0)` -/
  | clearing
  deriving DecidableEq, Repr

structure Handshake where
  tidToRun : Nat
  cTid : Nat
  pc : Nat → Pc
  /-- The threads below are created. -/
  started : Nat
  /-- How many calls of `before_pthread_create` have completed. -/
  completed : Nat
  /-- Which of them was for this child. -/
  ticket : Nat → Nat
  /-- `my_tidMap`. -/
  myTidMap : Int → Option Nat

def Handshake.start : Handshake where
  tidToRun := 0
  cTid := 0
  pc := fun _ => .running
  started := 1
  completed := 0
  ticket := fun _ => 0
  myTidMap := fun _ => none

def Handshake.goto (s : Handshake) (u : Nat) (p : Pc) : Handshake :=
  { s with pc := Function.update s.pc u p }

/-- The running thread `u` calls `before_pthread_create` or goes on; or it calls a function that
begins with `instr_PthreadCall`. -/
inductive Turn where
  | step (u : Nat)
  | call (u : Nat)
  deriving DecidableEq, Repr

section Steps
variable (gettid : Nat → Int)

/-- The tests at the top of `instr_PthreadCall`. -/
def Handshake.enter (s : Handshake) (u : Nat) : Handshake :=
  if gettid u = gettid 0 ∨ (s.myTidMap (gettid u)).isSome then s.goto u .running
  else s.goto u .waiting

def Handshake.next (s : Handshake) (u : Nat) : Handshake :=
  match s.pc u with
  | .running => s.goto u .testing
  | .testing => if s.tidToRun ≠ 0 then s else s.goto u .reading
  | .reading => s.goto u (.writing s.cTid)
  | .writing r => { s.goto u .rereading with cTid := r + 1 }
  | .rereading => s.goto u (.setting s.cTid)
  | .setting r =>
    { s.goto u (.creating (s.completed + 1)) with tidToRun := r, completed := s.completed + 1 }
  | .creating j =>
    { (s.goto u .running).goto s.started .starting with
      started := s.started + 1
      ticket := Function.update s.ticket s.started j }
  | .starting => s.enter gettid u
  | .calling => s.enter gettid u
  | .waiting => if s.tidToRun = 0 then s else s.goto u .taking
  | .taking => s.goto u (.registering s.tidToRun)
  | .registering schedTid =>
    { s.goto u .clearing with
      myTidMap := if (s.myTidMap (gettid u)).isSome then s.myTidMap
        else Function.update s.myTidMap (gettid u) (some schedTid) }
  | .clearing => { s.goto u .running with tidToRun := 0 }

def handshakeStep : Turn → Handshake → Handshake
  | .step u, s => if u < s.started then s.next gettid u else s
  | .call u, s => if u < s.started ∧ s.pc u = .running then s.goto u .calling else s

end Steps

/-- Between the read of `c_tid` and `set_tid_to_run`. -/
def Pc.counting : Pc → Bool
  | .writing _ | .rereading | .setting _ => true
  | _ => false

/-- Between `set_tid_to_run` of the creator and that of the child. -/
def Pc.handing : Pc → Bool
  | .creating _ | .starting | .waiting | .taking | .registering _ | .clearing => true
  | _ => false

def Pc.arriving : Pc → Bool
  | .starting | .waiting | .taking | .registering _ => true
  | _ => false

/-- What the numbers of the children should be. -/
structure Numbered (gettid : Nat → Int) (s : Handshake) : Prop where
  distinct : ∀ u v t, 0 < u → u < s.started → 0 < v → v < s.started →
    s.myTidMap (gettid u) = some t → s.myTidMap (gettid v) = some t → u = v
  positive : ∀ tid t, s.myTidMap tid = some t → 1 ≤ t
  inOrder : ∀ u, 0 < u → u < s.started → (s.pc u).arriving = false →
    s.myTidMap (gettid u) = some (s.ticket u)

/-- Creators take turns: none reads `c_tid` while another one is counting, and none
sets `tid_to_run` while a number is handed over. -/
def TakesTurn : Turn → Handshake → Prop
  | .call _, _ => True
  | .step u, s =>
    match s.pc u with
    | .reading => ∀ v, (s.pc v).counting = false
    | .setting _ => s.tidToRun = 0
    | _ => True

/-- The thread that is created does not get the id of the main thread or of one that has
registered. -/
def NewTid (gettid : Nat → Int) : Turn → Handshake → Prop
  | .call _, _ => True
  | .step u, s =>
    match s.pc u with
    | .creating _ => gettid s.started ≠ gettid 0 ∧ s.myTidMap (gettid s.started) = none
    | _ => True

/-- The counter, seen from where its user stands. -/
def CountsAt (s : Handshake) : Pc → Prop
  | .writing r => r = s.completed ∧ s.cTid = s.completed
  | .rereading => s.cTid = s.completed + 1
  | .setting r => r = s.completed + 1 ∧ s.cTid = s.completed + 1
  | _ => False

inductive Counter (s : Handshake) : Prop where
  | free (hnone : ∀ v, (s.pc v).counting = false) (hc : s.cTid = s.completed)
  | used (u : Nat) (hone : ∀ v, (s.pc v).counting = true → v = u) (hat : CountsAt s (s.pc u))

def HandsAt (s : Handshake) (u : Nat) : Pc → Prop
  | .creating j => j = s.completed ∧ ∀ v, 0 < v → v < s.started → s.ticket v < s.completed
  | .starting | .waiting | .taking => 0 < u ∧ s.ticket u = s.completed
  | .registering r => 0 < u ∧ s.ticket u = s.completed ∧ r = s.completed
  | .clearing => True
  | _ => False

inductive Channel (s : Handshake) : Prop where
  | empty (hnone : ∀ v, (s.pc v).handing = false) (ht : s.tidToRun = 0)
  | full (u : Nat) (hone : ∀ v, (s.pc v).handing = true → v = u) (ht : s.tidToRun = s.completed)
      (hpos : 0 < s.completed) (hat : HandsAt s u (s.pc u))

structure Registry (gettid : Nat → Int) (s : Handshake) : Prop where
  main : 0 < s.started
  unborn : ∀ u, s.started ≤ u → s.pc u = .running
  ticket_pos : ∀ u, 0 < u → u < s.started → 1 ≤ s.ticket u ∧ s.ticket u ≤ s.completed
  ticket_unique : ∀ u v, 0 < u → u < s.started → 0 < v → v < s.started →
    s.ticket u = s.ticket v → u = v
  tid_unique : ∀ u v, u < s.started → v < s.started → gettid u = gettid v → u = v
  registered : ∀ tid t, s.myTidMap tid = some t →
    ∃ u, 0 < u ∧ u < s.started ∧ gettid u = tid ∧ t = s.ticket u
  entry : ∀ u, 0 < u → u < s.started →
    s.myTidMap (gettid u) = if (s.pc u).arriving then none else some (s.ticket u)

structure HandshakeInv (gettid : Nat → Int) (s : Handshake) : Prop where
  counter : Counter s
  channel : Channel s
  registry : Registry gettid s

variable {gettid : Nat → Int}

theorem handshakeInv_start : HandshakeInv gettid Handshake.start where
  counter := Counter.free (fun _ => rfl) rfl
  channel := Channel.empty (fun _ => rfl) rfl
  registry := by
    refine ⟨Nat.one_pos, fun _ _ => rfl, fun u hpos hu => ?_, fun u v hpos hu => ?_,
      fun u v hu hv _ => ?_, fun _ _ ht => ?_, fun u hpos hu => ?_⟩
    · have : u < 1 := hu
      omega
    · have : u < 1 := hu
      omega
    · have : u < 1 := hu
      have : v < 1 := hv
      omega
    · cases ht
    · have : u < 1 := hu
      omega

theorem Registry.numbered {s : Handshake} (h : Registry gettid s) : Numbered gettid s where
  distinct u v t hu0 hu hv0 hv htu htv := by
    have hticket : ∀ w, 0 < w → w < s.started → s.myTidMap (gettid w) = some t → t = s.ticket w := by
      intro w hw0 hw htw
      obtain ⟨x, _, hx, htid, ht⟩ := h.registered _ t htw
      rw [ht, h.tid_unique x w hx hw htid]
    exact h.ticket_unique u v hu0 hu hv0 hv ((hticket u hu0 hu htu).symm.trans (hticket v hv0 hv htv))
  positive tid t ht := by
    obtain ⟨u, hu0, hu, _, rfl⟩ := h.registered tid t ht
    exact (h.ticket_pos u hu0 hu).1
  inOrder u hu0 hu hpc := by
    rw [h.entry u hu0 hu, hpc]
    rfl

/-! ## One step -/

section Goto
variable {s s' : Handshake} {u v : Nat} {p : Pc} {q : Pc → Bool}

theorem goto_self (s : Handshake) (u : Nat) (p : Pc) : (s.goto u p).pc u = p :=
  Function.update_self ..

theorem goto_other (s : Handshake) (p : Pc) (h : v ≠ u) : (s.goto u p).pc v = s.pc v :=
  Function.update_of_ne h ..

theorem only_goto (p : Pc) (h : ∀ v, q (s.pc v) = true → v = u) (v : Nat)
    (hv : q ((s.goto u p).pc v) = true) : v = u := by
  by_contra hne
  rw [goto_other s p hne] at hv
  exact hne (h v hv)

theorem none_goto (h : ∀ v, q (s.pc v) = true → v = u) (hp : q p = false) (v : Nat) :
    q ((s.goto u p).pc v) = false := by
  rcases Decidable.eq_or_ne v u with rfl | hne
  · rw [goto_self, hp]
  · rw [goto_other s p hne]
    exact Bool.eq_false_iff.mpr fun hv => hne (h v hv)

theorem same_goto (hold : q (s.pc u) = false) (hp : q p = false) (v : Nat) :
    (s.goto u p).pc v = s.pc v ∨ q ((s.goto u p).pc v) = false ∧ q (s.pc v) = false := by
  rcases Decidable.eq_or_ne v u with rfl | hne
  · exact Or.inr ⟨by rw [goto_self, hp], hold⟩
  · exact Or.inl (goto_other s p hne)

theorem CountsAt.counting {r : Pc} (h : CountsAt s r) : r.counting = true := by
  cases r <;> first | rfl | exact False.elim h

theorem HandsAt.handing {r : Pc} (h : HandsAt s u r) : r.handing = true := by
  cases r <;> first | rfl | exact False.elim h

theorem Counter.frame (h : Counter s)
    (hpc : ∀ v, s'.pc v = s.pc v ∨ (s'.pc v).counting = false ∧ (s.pc v).counting = false)
    (hc : s'.cTid = s.cTid) (hd : s'.completed = s.completed) : Counter s' := by
  cases h with
  | free hnone heq =>
    refine Counter.free (fun v => ?_) (by rw [hc, hd, heq])
    rcases hpc v with hv | hv
    · rw [hv, hnone]
    · exact hv.1
  | used u hone hat =>
    have hu : s'.pc u = s.pc u := by
      rcases hpc u with hu | hu
      · exact hu
      · rw [hat.counting] at hu
        exact absurd hu.2 Bool.noConfusion
    refine Counter.used u (fun v hv => ?_) ?_
    · rcases hpc v with heq | hnot
      · rw [heq] at hv
        exact hone v hv
      · rw [hnot.1] at hv
        cases hv
    · rw [hu]
      cases hp : s.pc u <;> rw [hp] at hat <;> simp only [CountsAt, hc, hd] at hat ⊢ <;> exact hat

theorem Counter.goto (h : Counter s) (hold : (s.pc u).counting = false) (hp : p.counting = false) :
    Counter (s.goto u p) :=
  h.frame (same_goto hold hp) rfl rfl

theorem Channel.frame (h : Channel s)
    (hpc : ∀ v, s'.pc v = s.pc v ∨ (s'.pc v).handing = false ∧ (s.pc v).handing = false)
    (ht : s'.tidToRun = s.tidToRun) (hd : s'.completed = s.completed)
    (hs : s'.started = s.started) (hk : s'.ticket = s.ticket) : Channel s' := by
  cases h with
  | empty hnone heq =>
    refine Channel.empty (fun v => ?_) (by rw [ht, heq])
    rcases hpc v with hv | hv
    · rw [hv, hnone]
    · exact hv.1
  | full u hone heq hpos hat =>
    have hu : s'.pc u = s.pc u := by
      rcases hpc u with hu | hu
      · exact hu
      · rw [hat.handing] at hu
        exact absurd hu.2 Bool.noConfusion
    refine Channel.full u (fun v hv => ?_) (by rw [ht, hd, heq]) (by rw [hd]; exact hpos) ?_
    · rcases hpc v with hsame | hnot
      · rw [hsame] at hv
        exact hone v hv
      · rw [hnot.1] at hv
        cases hv
    · rw [hu]
      cases hp : s.pc u <;> rw [hp] at hat <;>
        simp only [HandsAt, hd, hs, hk] at hat ⊢ <;> exact hat

theorem Channel.goto (h : Channel s) (hold : (s.pc u).handing = false) (hp : p.handing = false) :
    Channel (s.goto u p) :=
  h.frame (same_goto hold hp) rfl rfl rfl rfl

/-- The thread that counts is the only one, and the counter is where it should be. -/
theorem Counter.at (h : Counter s) (hu : (s.pc u).counting = true) :
    (∀ v, (s.pc v).counting = true → v = u) ∧ CountsAt s (s.pc u) := by
  cases h with
  | free hnone _ =>
    rw [hnone] at hu
    cases hu
  | used w hone hat =>
    obtain rfl := hone u hu
    exact ⟨hone, hat⟩

theorem Channel.at (h : Channel s) (hu : (s.pc u).handing = true) :
    (∀ v, (s.pc v).handing = true → v = u) ∧ s.tidToRun = s.completed ∧ 0 < s.completed ∧
      HandsAt s u (s.pc u) := by
  cases h with
  | empty hnone _ =>
    rw [hnone] at hu
    cases hu
  | full w hone ht hpos hat =>
    obtain rfl := hone u hu
    exact ⟨hone, ht, hpos, hat⟩

theorem arriving_goto (h : p.arriving = (s.pc u).arriving) (v : Nat) :
    ((s.goto u p).pc v).arriving = (s.pc v).arriving := by
  rcases Decidable.eq_or_ne v u with rfl | hne
  · rw [goto_self, h]
  · rw [goto_other s p hne]

theorem Registry.frame (h : Registry gettid s) (hpc : ∀ v, s.started ≤ v → s'.pc v = s.pc v)
    (harr : ∀ v, (s'.pc v).arriving = (s.pc v).arriving)
    (hs : s'.started = s.started) (hk : s'.ticket = s.ticket) (hd : s.completed ≤ s'.completed)
    (hm : s'.myTidMap = s.myTidMap) : Registry gettid s' where
  main := by rw [hs]; exact h.main
  unborn v hv := by
    rw [hs] at hv
    rw [hpc v hv, h.unborn v hv]
  ticket_pos v hpos hv := by
    rw [hs] at hv
    rw [hk]
    have := h.ticket_pos v hpos hv
    omega
  ticket_unique v w hv0 hv hw0 hw heq := by
    rw [hs] at hv hw
    rw [hk] at heq
    exact h.ticket_unique v w hv0 hv hw0 hw heq
  tid_unique v w hv hw := by
    rw [hs] at hv hw
    exact h.tid_unique v w hv hw
  registered tid t ht := by
    rw [hm] at ht
    rw [hs, hk]
    exact h.registered tid t ht
  entry v hv0 hv := by
    rw [hs] at hv
    rw [hm, hk, harr, h.entry v hv0 hv]

theorem Registry.goto (h : Registry gettid s) (hu : u < s.started)
    (harr : p.arriving = (s.pc u).arriving) : Registry gettid (s.goto u p) :=
  h.frame (fun _ hv => goto_other s p (Nat.ne_of_gt (Nat.lt_of_lt_of_le hu hv))) (arriving_goto harr) rfl rfl
    (Nat.le_refl _) rfl

theorem Registry.register (h : Registry gettid s) {r : Nat} (hpc : s.pc u = .registering r)
    (hu0 : 0 < u) (hu : u < s.started) (hr : r = s.ticket u) :
    Registry gettid (s.next gettid u) := by
  have hnone : s.myTidMap (gettid u) = none := by
    rw [h.entry u hu0 hu, hpc]
    rfl
  have hnext : s.next gettid u =
      { s.goto u .clearing with myTidMap := Function.update s.myTidMap (gettid u) (some r) } := by
    rw [Handshake.next, hpc]
    dsimp only
    rw [hnone]
    rfl
  rw [hnext]
  refine ⟨h.main, fun v hv => ?_, h.ticket_pos, h.ticket_unique, h.tid_unique, fun tid t ht => ?_,
    fun v hv0 hv => ?_⟩
  · show (s.goto u .clearing).pc v = .running
    rw [goto_other s _ (Nat.ne_of_gt (Nat.lt_of_lt_of_le hu hv)), h.unborn v hv]
  · have ht : Function.update s.myTidMap (gettid u) (some r) tid = some t := ht
    rcases Decidable.eq_or_ne tid (gettid u) with rfl | hne
    · rw [Function.update_self] at ht
      exact ⟨u, hu0, hu, rfl, (Option.some.inj ht).symm.trans hr⟩
    · rw [Function.update_of_ne hne] at ht
      exact h.registered tid t ht
  · show Function.update s.myTidMap (gettid u) (some r) (gettid v) =
      if ((s.goto u .clearing).pc v).arriving then none else some (s.ticket v)
    rcases Decidable.eq_or_ne v u with rfl | hne
    · rw [Function.update_self, goto_self, hr]
      rfl
    · have htid : gettid v ≠ gettid u := fun heq => hne (h.tid_unique v u hv hu heq)
      rw [Function.update_of_ne htid, goto_other s _ hne, h.entry v hv0 hv]

/-- A new child. Its number is above those of the other children, and so far nobody had its id. -/
theorem Registry.create (h : Registry gettid s) {j : Nat} (hpos : 0 < j) (hj : j ≤ s.completed)
    (hbelow : ∀ v, 0 < v → v < s.started → s.ticket v < j)
    (hsettled : ∀ v, (s.pc v).arriving = false)
    (hmain : gettid s.started ≠ gettid 0) (hnew : s.myTidMap (gettid s.started) = none)
    (hpc : ∀ v, s.started < v → s'.pc v = s.pc v) (hchild : s'.pc s.started = .starting)
    (harr : ∀ v, v < s.started → (s'.pc v).arriving = false)
    (hs : s'.started = s.started + 1) (hk : s'.ticket = Function.update s.ticket s.started j)
    (hd : s'.completed = s.completed) (hm : s'.myTidMap = s.myTidMap) : Registry gettid s' := by
  have hold : ∀ v, v < s.started → s'.ticket v = s.ticket v := by
    intro v hv
    rw [hk]
    exact Function.update_of_ne (Nat.ne_of_lt hv) ..
  have hticket : s'.ticket s.started = j := by
    rw [hk]
    exact Function.update_self ..
  have htid : ∀ v, v < s.started → gettid v ≠ gettid s.started := by
    intro v hv heq
    rcases Nat.eq_zero_or_pos v with rfl | hv0
    · exact hmain heq.symm
    · rw [← heq, h.entry v hv0 hv, hsettled] at hnew
      cases hnew
  refine ⟨by rw [hs]; exact Nat.succ_pos _, fun v hv => ?_, fun v hv0 hv => ?_,
    fun v w hv0 hv hw0 hw heq => ?_, fun v w hv hw heq => ?_, fun tid t ht => ?_, fun v hv0 hv => ?_⟩
  · rw [hs] at hv
    rw [hpc v hv, h.unborn v (Nat.le_of_succ_le hv)]
  · rw [hs] at hv
    rw [hd]
    rcases Nat.lt_succ_iff_lt_or_eq.mp hv with hlt | rfl
    · rw [hold v hlt]
      exact h.ticket_pos v hv0 hlt
    · rw [hticket]
      exact ⟨hpos, hj⟩
  · rw [hs] at hv hw
    rcases Nat.lt_succ_iff_lt_or_eq.mp hv with hvlt | rfl
    · rcases Nat.lt_succ_iff_lt_or_eq.mp hw with hwlt | rfl
      · rw [hold v hvlt, hold w hwlt] at heq
        exact h.ticket_unique v w hv0 hvlt hw0 hwlt heq
      · rw [hold v hvlt, hticket] at heq
        exact absurd heq (Nat.ne_of_lt (hbelow v hv0 hvlt))
    · rcases Nat.lt_succ_iff_lt_or_eq.mp hw with hwlt | rfl
      · rw [hold w hwlt, hticket] at heq
        exact absurd heq.symm (Nat.ne_of_lt (hbelow w hw0 hwlt))
      · rfl
  · rw [hs] at hv hw
    rcases Nat.lt_succ_iff_lt_or_eq.mp hv with hvlt | rfl
    · rcases Nat.lt_succ_iff_lt_or_eq.mp hw with hwlt | rfl
      · exact h.tid_unique v w hvlt hwlt heq
      · exact absurd heq (htid v hvlt)
    · rcases Nat.lt_succ_iff_lt_or_eq.mp hw with hwlt | rfl
      · exact absurd heq.symm (htid w hwlt)
      · rfl
  · rw [hm] at ht
    obtain ⟨v, hv0, hv, htidv, htv⟩ := h.registered tid t ht
    rw [hs]
    exact ⟨v, hv0, Nat.lt_succ_of_lt hv, htidv, htv.trans (hold v hv).symm⟩
  · rw [hs] at hv
    rw [hm]
    rcases Nat.lt_succ_iff_lt_or_eq.mp hv with hlt | rfl
    · rw [h.entry v hv0 hlt, hsettled, harr v hlt, hold v hlt]
    · rw [hnew, hchild]
      rfl

/-- A thread that has its number, or needs none, leaves `instr_PthreadCall` at once. -/
theorem Registry.enter_settled (h : Registry gettid s) (hu : u < s.started)
    (hpc : (s.pc u).arriving = false) : s.enter gettid u = s.goto u .running := by
  rw [Handshake.enter, if_pos]
  rcases Nat.eq_zero_or_pos u with rfl | hu0
  · exact Or.inl rfl
  · rw [h.entry u hu0 hu, hpc]
    exact Or.inr rfl

theorem Registry.enter_arriving (h : Registry gettid s) (hu0 : 0 < u) (hu : u < s.started)
    (hpc : (s.pc u).arriving = true) : s.enter gettid u = s.goto u .waiting := by
  rw [Handshake.enter, if_neg]
  rw [h.entry u hu0 hu, hpc]
  rintro (heq | hsome)
  · exact Nat.ne_of_gt hu0 (h.tid_unique u 0 hu h.main heq)
  · cases hsome

end Goto

section Step
variable {s : Handshake} {u : Nat}

theorem counter_next (h : HandshakeInv gettid s) (hu : u < s.started) (hturn : TakesTurn (.step u) s) :
    Counter (s.next gettid u) := by
  have hcounter := h.counter
  have hat := fun hcounting => hcounter.at (u := u) hcounting
  unfold Handshake.next
  cases hpc : s.pc u with
  | running => exact hcounter.goto (by rw [hpc]; rfl) rfl
  | testing =>
    dsimp only
    split
    · exact hcounter
    · exact hcounter.goto (by rw [hpc]; rfl) rfl
  | reading =>
    simp only [TakesTurn, hpc] at hturn
    have hfree : s.cTid = s.completed := by
      cases hcounter with
      | free _ hc => exact hc
      | used w _ hw => exact Bool.noConfusion ((hturn w).symm.trans hw.counting)
    refine Counter.used u (only_goto _ fun v hv => Bool.noConfusion ((hturn v).symm.trans hv)) ?_
    rw [goto_self]
    exact ⟨hfree, hfree⟩
  | writing r =>
    rw [hpc] at hat
    obtain ⟨hone, hr, _⟩ := hat rfl
    refine Counter.used u (only_goto _ hone) ?_
    show CountsAt _ ((s.goto u _).pc u)
    rw [goto_self]
    exact congrArg (· + 1) hr
  | rereading =>
    rw [hpc] at hat
    obtain ⟨hone, hc⟩ := hat rfl
    refine Counter.used u (only_goto _ hone) ?_
    rw [goto_self]
    exact ⟨hc, hc⟩
  | setting r =>
    rw [hpc] at hat
    obtain ⟨hone, _, hc⟩ := hat rfl
    exact Counter.free (none_goto hone rfl) hc
  | creating j =>
    have hchild : s.pc s.started = .running := h.registry.unborn _ (Nat.le_refl _)
    refine (hcounter.goto (p := .running) (by rw [hpc]; rfl) rfl).frame
      (same_goto (u := s.started) (p := .starting) ?_ rfl) rfl rfl
    rw [goto_other s _ (by omega), hchild]
    rfl
  | starting =>
    show Counter (s.enter gettid u)
    unfold Handshake.enter
    split
    · exact hcounter.goto (by rw [hpc]; rfl) rfl
    · exact hcounter.goto (by rw [hpc]; rfl) rfl
  | calling =>
    show Counter (s.enter gettid u)
    rw [h.registry.enter_settled hu (by rw [hpc]; rfl)]
    exact hcounter.goto (by rw [hpc]; rfl) rfl
  | waiting =>
    dsimp only
    split
    · exact hcounter
    · exact hcounter.goto (by rw [hpc]; rfl) rfl
  | taking => exact hcounter.goto (by rw [hpc]; rfl) rfl
  | registering r => exact hcounter.frame (same_goto (p := .clearing) (by rw [hpc]; rfl) rfl) rfl rfl
  | clearing => exact hcounter.frame (same_goto (p := .running) (by rw [hpc]; rfl) rfl) rfl rfl

theorem channel_next (h : HandshakeInv gettid s) (hu : u < s.started) (hturn : TakesTurn (.step u) s) :
    Channel (s.next gettid u) := by
  have hchannel := h.channel
  have hat := fun hhanding => hchannel.at (u := u) hhanding
  unfold Handshake.next
  cases hpc : s.pc u with
  | running => exact hchannel.goto (by rw [hpc]; rfl) rfl
  | testing =>
    dsimp only
    split
    · exact hchannel
    · exact hchannel.goto (by rw [hpc]; rfl) rfl
  | reading => exact hchannel.goto (by rw [hpc]; rfl) rfl
  | writing r =>
    exact hchannel.frame (same_goto (p := .rereading) (by rw [hpc]; rfl) rfl) rfl rfl rfl rfl
  | rereading => exact hchannel.goto (by rw [hpc]; rfl) rfl
  | setting r =>
    simp only [TakesTurn, hpc] at hturn
    have hempty : ∀ v, (s.pc v).handing = false := by
      cases hchannel with
      | empty hnone _ => exact hnone
      | full _ _ ht hpos _ => omega
    have hr : r = s.completed + 1 := by
      have hcounts := (h.counter.at (u := u) (by rw [hpc]; rfl)).2
      rw [hpc] at hcounts
      exact hcounts.1
    refine Channel.full u (only_goto _ fun v hv => Bool.noConfusion ((hempty v).symm.trans hv)) hr
      (Nat.succ_pos _) ?_
    show HandsAt _ u ((s.goto u _).pc u)
    rw [goto_self]
    refine ⟨rfl, fun v hv0 hv => ?_⟩
    have := (h.registry.ticket_pos v hv0 hv).2
    exact Nat.lt_succ_of_le this
  | creating j =>
    rw [hpc] at hat
    obtain ⟨hone, ht, hpos, hj, _⟩ := hat rfl
    refine Channel.full s.started (only_goto _ fun v hv => ?_) ht hpos ?_
    · exact Bool.noConfusion ((none_goto (p := .running) hone rfl v).symm.trans hv)
    · show HandsAt _ s.started (((s.goto u .running).goto s.started .starting).pc s.started)
      rw [goto_self]
      exact ⟨h.registry.main, (Function.update_self ..).trans hj⟩
  | starting =>
    rw [hpc] at hat
    obtain ⟨hone, ht, hpos, hu0, hticket⟩ := hat rfl
    show Channel (s.enter gettid u)
    rw [h.registry.enter_arriving hu0 hu (by rw [hpc]; rfl)]
    refine Channel.full u (only_goto _ hone) ht hpos ?_
    rw [goto_self]
    exact ⟨hu0, hticket⟩
  | calling =>
    show Channel (s.enter gettid u)
    rw [h.registry.enter_settled hu (by rw [hpc]; rfl)]
    exact hchannel.goto (by rw [hpc]; rfl) rfl
  | waiting =>
    rw [hpc] at hat
    obtain ⟨hone, ht, hpos, hticket⟩ := hat rfl
    dsimp only
    rw [if_neg (by omega)]
    refine Channel.full u (only_goto _ hone) ht hpos ?_
    rw [goto_self]
    exact hticket
  | taking =>
    rw [hpc] at hat
    obtain ⟨hone, ht, hpos, hu0, hticket⟩ := hat rfl
    refine Channel.full u (only_goto _ hone) ht hpos ?_
    rw [goto_self]
    exact ⟨hu0, hticket, ht⟩
  | registering r =>
    rw [hpc] at hat
    obtain ⟨hone, ht, hpos, _⟩ := hat rfl
    refine Channel.full u (only_goto .clearing hone) ht hpos ?_
    show HandsAt _ u ((s.goto u .clearing).pc u)
    rw [goto_self]
    trivial
  | clearing =>
    rw [hpc] at hat
    obtain ⟨hone, _⟩ := hat rfl
    exact Channel.empty (none_goto (p := .running) hone rfl) rfl

theorem registry_next (h : HandshakeInv gettid s) (hu : u < s.started)
    (hnew : NewTid gettid (.step u) s) : Registry gettid (s.next gettid u) := by
  have hregistry := h.registry
  have hat := fun hhanding => h.channel.at (u := u) hhanding
  have hgoto : ∀ p v, s.started ≤ v → (s.goto u p).pc v = s.pc v :=
    fun p v hv => goto_other s p (by omega)
  cases hpc : s.pc u with
  | creating j =>
    rw [hpc] at hat
    obtain ⟨hone, _, hpos, rfl, hbelow⟩ := hat rfl
    simp only [NewTid, hpc] at hnew
    have hsettled : ∀ v, (s.pc v).arriving = false := by
      intro v
      rcases Decidable.eq_or_ne v u with rfl | hne
      · rw [hpc]
        rfl
      · cases hv : s.pc v <;> first | rfl | exact absurd (hone v (by rw [hv]; rfl)) hne
    rw [Handshake.next, hpc]
    refine hregistry.create hpos (Nat.le_refl _) hbelow hsettled hnew.1 hnew.2 (fun v hv => ?_)
      (goto_self ..) (fun v hv => ?_) rfl rfl rfl rfl
    · show ((s.goto u .running).goto s.started .starting).pc v = s.pc v
      rw [goto_other _ _ (by omega), goto_other _ _ (by omega)]
    · show (((s.goto u .running).goto s.started .starting).pc v).arriving = false
      rw [goto_other _ _ (Nat.ne_of_lt hv), arriving_goto (by rw [hpc]; rfl), hsettled]
  | registering r =>
    rw [hpc] at hat
    obtain ⟨_, _, _, hu0, hticket, hr⟩ := hat rfl
    exact hregistry.register hpc hu0 hu (hr.trans hticket.symm)
  | starting =>
    rw [hpc] at hat
    obtain ⟨_, _, _, hu0, _⟩ := hat rfl
    have harriving : (s.pc u).arriving = true := by rw [hpc]; rfl
    rw [Handshake.next, hpc]
    show Registry gettid (s.enter gettid u)
    rw [hregistry.enter_arriving hu0 hu harriving]
    exact hregistry.goto hu harriving.symm
  | calling =>
    have hsettled : (s.pc u).arriving = false := by rw [hpc]; rfl
    rw [Handshake.next, hpc]
    show Registry gettid (s.enter gettid u)
    rw [hregistry.enter_settled hu hsettled]
    exact hregistry.goto hu hsettled.symm
  | running =>
    rw [Handshake.next, hpc]
    exact hregistry.goto hu (by rw [hpc]; rfl)
  | testing =>
    rw [Handshake.next, hpc]
    dsimp only
    split
    · exact hregistry
    · exact hregistry.goto hu (by rw [hpc]; rfl)
  | reading =>
    rw [Handshake.next, hpc]
    exact hregistry.goto hu (by rw [hpc]; rfl)
  | writing r =>
    rw [Handshake.next, hpc]
    exact hregistry.frame (hgoto .rereading) (arriving_goto (p := .rereading) (by rw [hpc]; rfl)) rfl rfl
      (Nat.le_refl _) rfl
  | rereading =>
    rw [Handshake.next, hpc]
    exact hregistry.goto hu (by rw [hpc]; rfl)
  | setting r =>
    rw [Handshake.next, hpc]
    exact hregistry.frame (hgoto (.creating (s.completed + 1)))
      (arriving_goto (p := .creating (s.completed + 1)) (by rw [hpc]; rfl)) rfl rfl (Nat.le_succ _) rfl
  | waiting =>
    rw [Handshake.next, hpc]
    dsimp only
    split
    · exact hregistry
    · exact hregistry.goto hu (by rw [hpc]; rfl)
  | taking =>
    rw [Handshake.next, hpc]
    exact hregistry.goto hu (by rw [hpc]; rfl)
  | clearing =>
    rw [Handshake.next, hpc]
    exact hregistry.frame (hgoto .running) (arriving_goto (p := .running) (by rw [hpc]; rfl)) rfl rfl
      (Nat.le_refl _) rfl

/-- A call of a thread function changes nothing that counts. -/
theorem handshakeInv_call (h : HandshakeInv gettid s) (hu : u < s.started) (hpc : s.pc u = .running) :
    HandshakeInv gettid (s.goto u .calling) where
  counter := h.counter.goto (by rw [hpc]; rfl) rfl
  channel := h.channel.goto (by rw [hpc]; rfl) rfl
  registry := h.registry.goto hu (by rw [hpc]; rfl)

theorem handshakeInv_step {a : Turn} (h : HandshakeInv gettid s)
    (hturn : TakesTurn a s ∧ NewTid gettid a s) : HandshakeInv gettid (handshakeStep gettid a s) := by
  cases a with
  | step u =>
    rw [handshakeStep]
    split
    · next hu => exact ⟨counter_next h hu hturn.1, channel_next h hu hturn.1, registry_next h hu hturn.2⟩
    · exact h
  | call u =>
    rw [handshakeStep]
    split
    · next hu => exact handshakeInv_call h hu.1 hu.2
    · exact h

end Step

/-! ## Threads created by the main thread only -/

/-- In `before_pthread_create` or about to call `pthread_create`. -/
def Pc.creator : Pc → Bool
  | .testing | .reading | .writing _ | .rereading | .setting _ | .creating _ => true
  | _ => false

/-- Behind the test of `before_pthread_create`. -/
def Pc.passed : Pc → Bool
  | .reading | .writing _ | .rereading | .setting _ => true
  | _ => false

/-- Only the main thread calls `before_pthread_create`. -/
def MainCreates : Turn → Handshake → Prop
  | .call _, _ => True
  | .step u, s => s.pc u = .running → u = 0

structure OneCreator (s : Handshake) : Prop where
  creator : ∀ v, (s.pc v).creator = true → v = 0
  closed : (s.pc 0).passed = true → s.tidToRun = 0

theorem OneCreator.takesTurn {s : Handshake} (h : OneCreator s) (a : Turn) : TakesTurn a s := by
  cases a with
  | call u => trivial
  | step u =>
    rw [TakesTurn]
    cases hpc : s.pc u with
    | reading =>
      have hu := h.creator u (by rw [hpc]; rfl)
      intro v
      rcases hv : s.pc v with _ | _ | _ | r | _ | r | j | _ | _ | _ | _ | r | _ <;> first | rfl | skip
      all_goals
        have hv0 := h.creator v (by rw [hv]; rfl)
        rw [hv0, ← hu, hpc] at hv
        cases hv
    | setting r =>
      obtain rfl := h.creator u (by rw [hpc]; rfl)
      exact h.closed (by rw [hpc]; rfl)
    | _ => trivial

section OneCreator
variable {s : Handshake} {u : Nat} {p : Pc}

theorem creator_goto (h : ∀ v, (s.pc v).creator = true → v = 0) (hp : p.creator = true → u = 0) (v : Nat)
    (hv : ((s.goto u p).pc v).creator = true) : v = 0 := by
  rcases Decidable.eq_or_ne v u with rfl | hne
  · rw [goto_self] at hv
    exact hp hv
  · rw [goto_other s p hne] at hv
    exact h v hv

theorem closed_goto (h : (s.pc 0).passed = true → s.tidToRun = 0)
    (hp : p.passed = true → s.tidToRun = 0) (h0 : ((s.goto u p).pc 0).passed = true) :
    s.tidToRun = 0 := by
  rcases Decidable.eq_or_ne 0 u with rfl | hne
  · rw [goto_self] at h0
    exact hp h0
  · rw [goto_other s p hne] at h0
    exact h h0

theorem OneCreator.enter (h : OneCreator s) (gettid : Nat → Int) (u : Nat) : OneCreator (s.enter gettid u) := by
  rw [Handshake.enter]
  split
  · exact ⟨creator_goto h.creator Bool.noConfusion, closed_goto h.closed Bool.noConfusion⟩
  · exact ⟨creator_goto h.creator Bool.noConfusion, closed_goto h.closed Bool.noConfusion⟩

theorem oneCreator_next (h : OneCreator s) (hu : u < s.started) (hmain : s.pc u = .running → u = 0) :
    OneCreator (s.next gettid u) := by
  have hcreator : (s.pc u).creator = true → u = 0 := h.creator u
  have hclosed : (s.pc u).passed = true → s.tidToRun = 0 := by
    intro hpassed
    have hu : u = 0 := by
      apply hcreator
      cases hpc : s.pc u <;> rw [hpc] at hpassed <;> first | rfl | cases hpassed
    rw [hu] at hpassed
    exact h.closed hpassed
  unfold Handshake.next
  cases hpc : s.pc u with
  | running => exact ⟨creator_goto h.creator fun _ => hmain hpc, closed_goto h.closed Bool.noConfusion⟩
  | testing =>
    rw [hpc] at hcreator
    dsimp only
    split
    · exact h
    · next ht =>
      exact ⟨creator_goto h.creator fun _ => hcreator rfl,
        closed_goto h.closed fun _ => Decidable.not_not.mp ht⟩
  | reading =>
    rw [hpc] at hcreator hclosed
    exact ⟨creator_goto h.creator fun _ => hcreator rfl, closed_goto h.closed fun _ => hclosed rfl⟩
  | writing r =>
    rw [hpc] at hcreator hclosed
    exact ⟨creator_goto (p := .rereading) h.creator fun _ => hcreator rfl,
      closed_goto (p := .rereading) h.closed fun _ => hclosed rfl⟩
  | rereading =>
    rw [hpc] at hcreator hclosed
    exact ⟨creator_goto h.creator fun _ => hcreator rfl, closed_goto h.closed fun _ => hclosed rfl⟩
  | setting r =>
    rw [hpc] at hcreator
    obtain rfl := hcreator rfl
    refine ⟨creator_goto (p := .creating (s.completed + 1)) h.creator fun _ => rfl, fun h0 => ?_⟩
    have h0 : ((s.goto 0 (.creating (s.completed + 1))).pc 0).passed = true := h0
    rw [goto_self] at h0
    cases h0
  | creating j =>
    rw [hpc] at hcreator
    obtain rfl := hcreator rfl
    refine ⟨creator_goto (p := .starting) (creator_goto (p := .running) h.creator Bool.noConfusion)
      Bool.noConfusion, fun h0 => ?_⟩
    have h0 : (((s.goto 0 .running).goto s.started .starting).pc 0).passed = true := h0
    rw [goto_other _ _ (by omega), goto_self] at h0
    cases h0
  | starting => exact h.enter gettid u
  | calling => exact h.enter gettid u
  | waiting =>
    dsimp only
    split
    · exact h
    · exact ⟨creator_goto h.creator Bool.noConfusion, closed_goto h.closed Bool.noConfusion⟩
  | taking => exact ⟨creator_goto h.creator Bool.noConfusion, closed_goto h.closed Bool.noConfusion⟩
  | registering r =>
    exact ⟨creator_goto (p := .clearing) h.creator Bool.noConfusion,
      closed_goto (p := .clearing) h.closed Bool.noConfusion⟩
  | clearing =>
    exact ⟨creator_goto (p := .running) h.creator Bool.noConfusion, fun _ => rfl⟩

theorem oneCreator_step {a : Turn} (h : OneCreator s) (hmain : MainCreates a s) :
    OneCreator (handshakeStep gettid a s) := by
  cases a with
  | step u =>
    rw [handshakeStep]
    split
    · next hu => exact oneCreator_next h hu hmain
    · exact h
  | call u =>
    rw [handshakeStep]
    split
    · exact ⟨creator_goto h.creator Bool.noConfusion, closed_goto h.closed Bool.noConfusion⟩
    · exact h

end OneCreator

/-- The loop in `before_pthread_create` is enough when only the main thread creates threads. -/
theorem takesTurns_of_main {turns : List Turn}
    (h : Meets (handshakeStep gettid) MainCreates turns Handshake.start) :
    Meets (handshakeStep gettid) TakesTurn turns Handshake.start := by
  have hstart : OneCreator Handshake.start := ⟨fun _ hv => Bool.noConfusion hv, fun _ => rfl⟩
  exact meets_of_inv (fun a _ hs _ => hs.takesTurn a) (fun _ _ hs hc => oneCreator_step hs hc) hstart h

/-- In every run in which the creators take turns and no thread gets the id of an earlier one, the
children have the numbers they should have in every state. -/
theorem handshake_numbered {turns : List Turn}
    (h : Meets (handshakeStep gettid) (fun a s => TakesTurn a s ∧ NewTid gettid a s) turns Handshake.start) :
    Throughout (handshakeStep gettid) (Numbered gettid) turns Handshake.start :=
  throughout_of_inv (fun _ hs => hs.registry.numbered) (fun _ _ hs hc => handshakeInv_step hs hc)
    handshakeInv_start h

/-- The system counts up from the id of the main thread. -/
def osTid (u : Nat) : Int := 4000 + u

def firstChild : List Turn := (List.replicate 7 0 ++ List.replicate 5 1).map .step

theorem handshake_numbered_first :
    Throughout (handshakeStep osTid) (Numbered osTid) firstChild Handshake.start := by
  refine handshake_numbered ((takesTurns_of_main ?_).and ?_)
  · exact ⟨fun _ => rfl, fun _ => rfl, fun _ => rfl, fun _ => rfl, fun _ => rfl, fun _ => rfl,
      fun _ => rfl, (fun h => by cases h), (fun h => by cases h), (fun h => by cases h),
      (fun h => by cases h), (fun h => by cases h), trivial⟩
  · exact ⟨trivial, trivial, trivial, trivial, trivial, trivial, ⟨by decide, rfl⟩, trivial, trivial,
      trivial, trivial, trivial, trivial⟩

/-- The main thread and the first child pass the test together, and each creates a child. -/
def twoCreators : List Turn :=
  firstChild ++ [0, 0, 1, 1, 0, 0, 0, 0, 0, 1, 1, 1, 1, 1, 2, 3, 2, 2, 3, 3, 2, 3].map .step

/-- Both children register as `3`. -/
theorem handshake_not_numbered :
    ¬ Throughout (handshakeStep osTid) (Numbered osTid) twoCreators Handshake.start := by
  intro h
  have hstarted : (run (handshakeStep osTid) twoCreators Handshake.start).started = 4 := by
    decide +kernel
  have htwo : (run (handshakeStep osTid) twoCreators Handshake.start).myTidMap (osTid 2) = some 3 := by
    decide +kernel
  have hthree : (run (handshakeStep osTid) twoCreators Handshake.start).myTidMap (osTid 3) = some 3 := by
    decide +kernel
  have heq := h.last.distinct 2 3 3 (by decide) (by rw [hstarted]; decide) (by decide)
    (by rw [hstarted]; decide) htwo hthree
  exact absurd heq (by decide)

end Period.Runtime
