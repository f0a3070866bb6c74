import Period.Foundation.Rearrangement

/-!
# The next interleaving

`interleaving_next` on any ordered letters. The loop from the end finds the last rise and
collects what stands behind it, which is written back in reverse; then the letter before
it changes places with the first larger one.
-/

namespace Period.Interleaving

open Enumeration Rearrangement
set_option autoImplicit false

universe u
variable {α : Type u} [LinearOrder α]

/-- The loop `for i in range(len(inter) - 1, 0, -1)`: `a` and `tmp` where it breaks. -/
def findRise (inter : List α) : Nat → List α → Option (Nat × List α)
  | 0, _ => none
  | i + 1, tmp =>
    match inter[i]?, inter[i + 1]? with
    | some x, some y => if x < y then some (i, tmp ++ [y]) else findRise inter i (tmp ++ [y])
    | _, _ => none

/-- The loop `for i in tmp`: the entries from `b` on. -/
def overwrite (inter : List α) (b : Nat) (tmp : List α) : List α :=
  (tmp.foldl (fun (r : List α × Nat) x => (r.1.set r.2 x, r.2 + 1)) (inter, b)).1

def exchange (inter : List α) (a b : Nat) : List α :=
  match inter[a]?, inter[b]? with
  | some x, some y => (inter.set a y).set b x
  | _, _ => inter

/-- `interleaving_next`: the list it leaves behind and what it returns. -/
def interleavingNext (inter : List α) : List α × Bool :=
  match findRise inter (inter.length - 1) [] with
  | none => (inter, false)
  | some (a, tmp) =>
    let inter := overwrite inter (a + 1) tmp
    let b := a + 1 + (inter.drop (a + 1)).findIdx fun y => inter[a]?.any (· < y)
    (exchange inter a b, true)

omit [LinearOrder α] in
theorem overwrite_append (pre old tmp : List α) (hlen : tmp.length = old.length) :
    overwrite (pre ++ old) pre.length tmp = pre ++ tmp := by
  rw [overwrite]
  induction tmp generalizing pre old with
  | nil => rw [List.length_eq_zero_iff.mp hlen.symm]; rfl
  | cons x tmp ih =>
    cases old with
    | nil => exact absurd hlen (Nat.succ_ne_zero _)
    | cons y old =>
      have hset : (pre ++ y :: old).set pre.length x = (pre ++ [x]) ++ old := by
        rw [List.set_append_right _ _ (Nat.le_refl _), Nat.sub_self, List.set_cons_zero,
          List.append_assoc]
        rfl
      have hpre : pre.length + 1 = (pre ++ [x]).length := by simp
      rw [List.foldl_cons]
      simp only [hset, hpre]
      rw [ih (pre ++ [x]) old (Nat.succ.inj hlen), List.append_assoc]
      rfl

omit [LinearOrder α] in
theorem exchange_append (front mid highs : List α) (x y : α) :
    exchange (front ++ x :: (mid ++ y :: highs)) front.length (front.length + 1 + mid.length) =
      front ++ y :: (mid ++ x :: highs) := by
  have hx : (front ++ x :: (mid ++ y :: highs))[front.length]? = some x := by
    rw [List.getElem?_append_right (Nat.le_refl _), Nat.sub_self, List.getElem?_cons_zero]
  have hidx : front.length + 1 + mid.length - front.length = mid.length + 1 := by omega
  have hy : (front ++ x :: (mid ++ y :: highs))[front.length + 1 + mid.length]? = some y := by
    rw [List.getElem?_append_right (by omega), hidx, List.getElem?_cons_succ,
      List.getElem?_append_right (Nat.le_refl _), Nat.sub_self, List.getElem?_cons_zero]
  rw [exchange, hx, hy]
  simp only
  rw [List.set_append_right _ _ (Nat.le_refl _), Nat.sub_self, List.set_cons_zero,
    List.set_append_right _ _ (by omega), hidx, List.set_cons_succ,
    List.set_append_right _ _ (Nat.le_refl _), Nat.sub_self, List.set_cons_zero]

theorem findRise_spec {inter : List α} {i : Nat} {tmp : List α} (hi : i < inter.length)
    (htmp : tmp = (inter.drop (i + 1)).reverse) (hfall : (inter.drop i).Pairwise (· ≥ ·)) :
    match findRise inter i tmp with
    | none => inter.Pairwise (· ≥ ·)
    | some (a, tmp) => ∃ x, inter = inter.take a ++ x :: tmp.reverse ∧ a < inter.length ∧
        tmp.reverse.Pairwise (· ≥ ·) ∧ ∃ y ∈ tmp, x < y := by
  induction i generalizing tmp with
  | zero =>
    rw [findRise]
    rwa [List.drop_zero] at hfall
  | succ i ih =>
    have hi' : i < inter.length := by omega
    have hdrop : inter.drop i = inter[i] :: inter.drop (i + 1) := List.drop_eq_getElem_cons hi'
    have hdrop' : inter.drop (i + 1) = inter[i + 1] :: inter.drop (i + 2) :=
      List.drop_eq_getElem_cons hi
    have hnext : tmp ++ [inter[i + 1]] = (inter.drop (i + 1)).reverse := by
      rw [hdrop', List.reverse_cons, htmp]
    rw [findRise, List.getElem?_eq_getElem hi', List.getElem?_eq_getElem hi]
    simp only
    by_cases hlt : inter[i] < inter[i + 1]
    · rw [if_pos hlt]
      refine ⟨inter[i], ?_, hi', ?_, inter[i + 1], by simp, hlt⟩
      · rw [hnext, List.reverse_reverse, ← hdrop, List.take_append_drop]
      · rwa [hnext, List.reverse_reverse]
    · rw [if_neg hlt]
      apply ih hi' hnext
      rw [hdrop]
      refine List.pairwise_cons.mpr ⟨fun z hz => ?_, hfall⟩
      rw [hdrop'] at hz hfall
      have hle : inter[i + 1] ≤ inter[i] := not_lt.mp hlt
      rcases List.mem_cons.mp hz with rfl | hz
      · exact hle
      · exact le_trans ((List.pairwise_cons.mp hfall).1 z hz) hle

/-- A sorted list with an element above `x` splits at the first one. -/
theorem exists_lastRise {x : α} {l : List α} (hl : l.Pairwise (· ≤ ·)) (hx : ∃ y ∈ l, x < y) :
    ∃ lows y highs, l = lows ++ y :: highs ∧ LastRise x y lows highs ∧
      l.findIdx (fun y => decide (x < y)) = lows.length := by
  induction l with
  | nil =>
    obtain ⟨y, hy, _⟩ := hx
    exact absurd hy List.not_mem_nil
  | cons z l ih =>
    by_cases hxz : x < z
    · refine ⟨[], z, l, rfl, ⟨hl, nofun, hxz⟩, ?_⟩
      rw [List.findIdx_cons, decide_eq_true hxz]
      rfl
    · obtain ⟨hz, hsorted⟩ := List.pairwise_cons.mp hl
      have hx' : ∃ y ∈ l, x < y := by
        obtain ⟨y, hy, hxy⟩ := hx
        rcases List.mem_cons.mp hy with rfl | hy
        · exact absurd hxy hxz
        · exact ⟨y, hy, hxy⟩
      obtain ⟨lows, y, highs, hsplit, hrise, hidx⟩ := ih hsorted hx'
      refine ⟨z :: lows, y, highs, by rw [hsplit]; rfl, ⟨?_, ?_, hrise.lt⟩, ?_⟩
      · rw [List.cons_append, ← hsplit]
        exact hl
      · intro w hw
        rcases List.mem_cons.mp hw with rfl | hw
        · exact not_lt.mp hxz
        · exact hrise.lows_le w hw
      · rw [List.findIdx_cons, decide_eq_false hxz, hidx]
        rfl

/-- Either there is no rise, or the result is the list with its last rise changed. -/
theorem interleavingNext_cases (inter : List α) :
    inter.Pairwise (· ≥ ·) ∧ interleavingNext inter = (inter, false) ∨
    ∃ front x y lows highs, LastRise x y lows highs ∧ inter = LastRise.before front x y lows highs ∧
      interleavingNext inter = (LastRise.after front x y lows highs, true) := by
  cases hinter : inter with
  | nil => exact Or.inl ⟨List.Pairwise.nil, rfl⟩
  | cons c l =>
    rw [← hinter]
    have hpos : 0 < inter.length := by rw [hinter]; exact Nat.succ_pos _
    have hlast : inter.length - 1 + 1 = inter.length := Nat.sub_add_cancel hpos
    have hspec := @findRise_spec α _ inter (inter.length - 1) [] (by omega)
      (by rw [hlast, List.drop_length]; rfl)
      (by
        rw [List.drop_eq_getElem_cons (by omega), hlast, List.drop_length]
        exact List.pairwise_singleton _ _)
    cases hrise : findRise inter (inter.length - 1) [] with
    | none =>
      rw [hrise] at hspec
      exact Or.inl ⟨hspec, by rw [interleavingNext, hrise]⟩
    | some r =>
      obtain ⟨a, tmp⟩ := r
      rw [hrise] at hspec
      obtain ⟨x, hsplit, ha, hfall, habove⟩ := hspec
      have hsorted : tmp.Pairwise (· ≤ ·) := by
        rw [← List.reverse_reverse tmp]
        exact List.pairwise_reverse.mpr hfall
      obtain ⟨lows, y, highs, htmp, hlr, hidx⟩ := exists_lastRise hsorted habove
      refine Or.inr ⟨inter.take a, x, y, lows, highs, hlr, ?_, ?_⟩
      · rw [LastRise.before, ← htmp, ← hsplit]
      · have hlen : (inter.take a).length = a := by rw [List.length_take]; omega
        have hover : overwrite inter (a + 1) tmp = inter.take a ++ x :: tmp := by
          have happ := overwrite_append (inter.take a ++ [x]) tmp.reverse tmp List.length_reverse.symm
          have hlen' : (inter.take a ++ [x]).length = a + 1 := by simp [hlen]
          rw [List.append_assoc, List.singleton_append, ← hsplit, hlen', List.append_assoc,
            List.singleton_append] at happ
          exact happ
        have hget : (inter.take a ++ x :: tmp)[a]? = some x := by
          rw [List.getElem?_append_right (by omega), hlen, Nat.sub_self, List.getElem?_cons_zero]
        have hdrop : (inter.take a ++ x :: tmp).drop (a + 1) = tmp := by
          rw [List.drop_append, hlen, List.drop_eq_nil_of_le (by omega), List.nil_append]
          have hone : a + 1 - a = 1 := by omega
          rw [hone]
          rfl
        rw [interleavingNext, hrise]
        simp only [hover, hget, hdrop, Option.any_some]
        rw [hidx, htmp, LastRise.after, ← hlen]
        simp only [List.length_take, Nat.min_eq_left (Nat.le_of_lt ha)]
        have hex := exchange_append (inter.take a) lows highs x y
        rw [hlen] at hex
        rw [hex]

theorem interleavingNext_perm (inter : List α) : (interleavingNext inter).1.Perm inter := by
  rcases interleavingNext_cases inter with ⟨_, hnext⟩ | ⟨front, x, y, lows, highs, _, hinter, hnext⟩
  · rw [hnext]
  · rw [hnext, hinter]
    exact LastRise.after_perm

/-- What the loop of a generator does with the result. -/
def interleavingStep (inter : List α) : Option (List α) :=
  let r := interleavingNext inter
  if r.2 then some r.1 else none

theorem interleavingStep_succeeds {s inter : List α} (h : inter ∈ rearrangements s) :
    Succeeds (rearrangements s) inter (interleavingStep inter) := by
  have hperm := mem_rearrangements.mp h
  have hresult := (interleavingNext_perm inter).trans hperm
  rcases interleavingNext_cases inter with ⟨hfall, hnext⟩ | ⟨front, x, y, lows, highs, hrise, hinter, hnext⟩
  · have hstep : interleavingStep inter = none := by rw [interleavingStep, hnext]; rfl
    rw [hstep]
    intro c hc
    exact ge_of_perm hfall ((mem_rearrangements.mp hc).trans hperm.symm)
  · have hstep : interleavingStep inter = some (LastRise.after front x y lows highs) := by
      rw [interleavingStep, hnext]
      rfl
    rw [hstep]
    rw [hnext] at hresult
    refine ⟨mem_rearrangements.mpr hresult, ?_, fun c hc hlt => ?_⟩
    · rw [hinter]
      exact hrise.before_lt_after
    · rw [hinter] at hlt hperm
      exact hrise.after_le ((mem_rearrangements.mp hc).trans hperm.symm) hlt

/-- `interleaving_next` is the lexicographic successor among the permutations of the list. -/
theorem interleavingNext_isSuccessor (inter : List α) :
    ((interleavingNext inter).2 = true → (interleavingNext inter).1.Perm inter ∧
      inter < (interleavingNext inter).1 ∧
      ∀ l : List α, l.Perm inter → inter < l → (interleavingNext inter).1 ≤ l) ∧
    ((interleavingNext inter).2 = false → (interleavingNext inter).1 = inter ∧
      ∀ l : List α, l.Perm inter → l ≤ inter) := by
  rcases interleavingNext_cases inter with ⟨hfall, hnext⟩ | ⟨front, x, y, lows, highs, hrise, hinter, hnext⟩
  · rw [hnext]
    exact ⟨nofun, fun _ => ⟨rfl, fun l hl => ge_of_perm hfall hl⟩⟩
  · rw [hnext, hinter]
    exact ⟨fun _ => ⟨LastRise.after_perm, hrise.before_lt_after, fun l hl hlt => hrise.after_le hl hlt⟩, nofun⟩

/-- `interleaving_next` leads from the sorted list through all rearrangements. -/
theorem interleavingStep_walks (s : List α) : WalksTo interleavingStep (rearrangements s) none :=
  walksTo_of_succeeds (rearrangements_sorted s) fun _ h => interleavingStep_succeeds h

end Period.Interleaving
