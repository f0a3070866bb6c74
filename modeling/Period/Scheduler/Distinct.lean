import Period.Scheduler.Completeness

/-!
# The serialised scheduler meets no schedule twice

Different words have different schedules, and the odometer of a word shows no
reading twice. With the words being all legal ones, the constructor fails only where there
is none.
-/

namespace Period.Scheduler

open Enumeration Search Parts
set_option autoImplicit false

theorem words_nodup (n p : Nat) (kps : List Nat) (mustDo : Finset Nat) (last : Option Nat) :
    (words n p kps mustDo last).Nodup := by
  induction p generalizing kps mustDo last with
  | zero =>
    rw [words]
    split
    · exact List.nodup_singleton []
    · exact List.nodup_nil
  | succ p ih =>
    rw [words]
    apply nodup_flatMap_of_key (fun w => w.headD 0) (candidates_nodup n kps last)
    · intro i _
      exact (ih _ _ _).map List.cons_injective
    · intro i _ w hw
      obtain ⟨v, _, rfl⟩ := List.mem_map.mp hw
      rfl

theorem part_pos {n : Nat} {kps w : List Nat} {parts : List (List Nat)}
    (hle : ∀ i, w.count i ≤ kpsOf kps i) (h : parts ∈ readings (partLists n kps w)) :
    ∀ i, i < n → ∀ x ∈ parts.getD i [], 0 < x :=
  fun i hi => (spreads_part (hle i) ((mem_part_readings.mp h).2 i hi)).2

theorem layout_inj {n : Nat} {w : List Nat} (hw : ∀ x ∈ w, x < n) {parts parts' : List (List Nat)}
    (hp : Parted n w parts) (hp' : Parted n w parts')
    (hpos : ∀ i, i < n → ∀ x ∈ parts.getD i [], 0 < x)
    (hpos' : ∀ i, i < n → ∀ x ∈ parts'.getD i [], 0 < x) (heq : layout w parts = layout w parts') :
    parts = parts' := by
  apply List.ext_getElem (hp.length_eq.trans hp'.length_eq.symm)
  intro t ht ht'
  have htn : t < n := hp.length_eq ▸ ht
  have hread := partsOf_layout hp hpos hw htn
  rw [heq, partsOf_layout hp' hpos' hw htn, List.getD_eq_getElem _ _ ht,
    List.getD_eq_getElem _ _ ht'] at hread
  exact hread.symm

section Layouts
variable {n : Nat} {kps w : List Nat} (hw : ∀ x ∈ w, x < n) (hle : ∀ i, w.count i ≤ kpsOf kps i)
include hw hle

theorem wordOf_of_mem_layouts {sched : Schedule} (h : sched ∈ layouts n kps w) :
    wordOf sched = w := by
  obtain ⟨parts, hparts, rfl⟩ := List.mem_map.mp h
  exact wordOf_layout (parted_of_mem hle hparts) (part_pos hle hparts) hw

theorem layouts_nodup : (layouts n kps w).Nodup := by
  have hreadings : (readings (partLists n kps w)).Nodup := by
    apply readings_nodup
    intro l hl
    obtain ⟨i, _, rfl⟩ := List.mem_map.mp hl
    exact spreads_nodup _ _
  apply hreadings.map_on
  intro parts hparts parts' hparts' heq
  exact layout_inj hw (parted_of_mem hle hparts) (parted_of_mem hle hparts') (part_pos hle hparts)
    (part_pos hle hparts') heq

end Layouts

theorem serialPairs_nodup (n : Nat) (kps : List Nat) (p : Nat) :
    ((serialPairs n kps p).map Prod.snd).Nodup := by
  have hlegal := fun w (hw : w ∈ serialWords n kps p) => (mem_words.mp hw).2
  have hmap : (serialPairs n kps p).map Prod.snd =
      (serialWords n kps p).flatMap fun w => layouts n kps w := by
    rw [serialPairs, layered, List.map_flatMap]
    simp [Function.comp_def]
  rw [hmap]
  apply nodup_flatMap_of_key wordOf (words_nodup n p kps _ none)
  · intro w hw
    exact layouts_nodup (hlegal w hw).lt (hlegal w hw).count_le
  · intro w hw sched hsched
    exact wordOf_of_mem_layouts (hlegal w hw).lt (hlegal w hw).count_le hsched

section Serialised
variable {n p : Nat} {kps kps' : List Nat} (hp : 0 < p)
  (hpad : padKps (max n kps.length) kps = .ok kps')
include hp hpad

/-- The constructor fails where there is no legal word, and only there; the iteration ends and
meets only serialised schedules, none of them twice. -/
theorem sbpSched_sound :
    ((∃ msg, SBPSched.init n kps p [] = .error (.valueError msg)) ↔
      ¬ ∃ w, w.length = p ∧
        LegalWord (max n kps.length) kps' (neededThreads (max n kps.length) kps') none w) ∧
    ((∃ w, w.length = p ∧
        LegalWord (max n kps.length) kps' (neededThreads (max n kps.length) kps') none w) →
      ∃ s k out, SBPSched.init n kps p [] = .ok s ∧
        exhaust SBPSched.nextIter .stopIteration k s = some out ∧ (out.map (·.sched)).Nodup ∧
        ∀ s ∈ out, SerialSched kps' p s.sched) := by
  have hlen := padKps_length (Nat.le_max_right n kps.length) hpad
  have hn : ∀ i, 0 < kpsOf kps' i → i < max n kps.length := fun i hi => hlen ▸ kpsOf_pos_lt hi
  have hinit := SBPSched.init_eq hp hpad
  cases hw : (serialWords (max n kps.length) kps' p).head? with
  | none =>
    rw [hw] at hinit
    have hnone : ¬ ∃ w, w.length = p ∧
        LegalWord (max n kps.length) kps' (neededThreads (max n kps.length) kps') none w := by
      intro hword
      obtain ⟨w, hword⟩ := hword
      have hmem : w ∈ serialWords (max n kps.length) kps' p := mem_words.mpr hword
      rw [List.head?_eq_none_iff.mp hw] at hmem
      exact List.not_mem_nil hmem
    exact ⟨⟨fun _ => hnone, fun _ => ⟨_, hinit⟩⟩, fun h => absurd h hnone⟩
  | some w =>
    rw [hw] at hinit
    have hword := mem_words.mp (List.mem_of_head? hw)
    refine ⟨⟨fun ⟨msg, herror⟩ => ?_, fun h => absurd ⟨w, hword⟩ h⟩, fun _ => ?_⟩
    · rw [hinit] at herror
      cases herror
    · obtain ⟨out, hout, hscheds⟩ := SBPSched.exhausts hp hpad hinit (Nat.le_refl _)
      refine ⟨_, _, out, hinit, hout, ?_, fun s hs => ?_⟩
      · rw [hscheds]
        exact serialPairs_nodup _ _ _
      · apply ((mem_serialPairs hn).mp _).1
        rw [← hscheds]
        exact List.mem_map_of_mem hs
end Serialised

/-- Two threads with two key points each get one period each. -/
theorem sbpSched_sound_two : ∃ kps', padKps 2 [2] = .ok kps' ∧
    ((∃ msg, SBPSched.init 2 [2] 2 [] = .error (.valueError msg)) ↔
      ¬ ∃ w, w.length = 2 ∧ LegalWord 2 kps' (neededThreads 2 kps') none w) ∧
    ((∃ w, w.length = 2 ∧ LegalWord 2 kps' (neededThreads 2 kps') none w) →
      ∃ s k out, SBPSched.init 2 [2] 2 [] = .ok s ∧
        exhaust SBPSched.nextIter .stopIteration k s = some out ∧ (out.map (·.sched)).Nodup ∧
        ∀ s ∈ out, SerialSched kps' 2 s.sched) :=
  ⟨[2, 2], rfl, sbpSched_sound Nat.two_pos rfl⟩

end Period.Scheduler
