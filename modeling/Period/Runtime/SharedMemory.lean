import Period.Foundation.Bytes
import Period.Runtime.Target

/-!
# The shared segment

The target sees the segment as `struct sched_info`, the driver computes offsets into it
from its own `SHARE_ARRAY_SIZE`. Both agree up to and including `kp`; the driver's
`kpLocArray` and `kpOrderArray` start inside the target's `kp` and `kpLoc`.
-/

namespace Period.Runtime

open Bytes
set_option autoImplicit false

/-- `SHARE_THREAD_NUM` and `SHARE_MEMORY_THREAD_NUM`. -/
def shareThreadNum : Nat := 100

/-- `SHARE_ARRAY_SIZE` of the driver. -/
def shareArraySize : Nat := 1990

/-- The fields of `struct sched_info`, without padding up to `kpOrder`. -/
structure SchedInfo where
  time : Nat
  N : Nat
  M : Nat
  testedBounds : Nat
  kpNumArray : Nat → Nat
  kp : Nat → Nat
  kpLoc : Nat → Nat
  kpOrder : Nat → Nat

def kpNumArrayAddr : Nat := 8 + 4 + 4 + 4
def kpAddr : Nat := kpNumArrayAddr + 2 * shareThreadNum
def kpLocAddr : Nat := kpAddr + 2 * shareMemoryArraySize
def kpOrderAddr : Nat := kpLocAddr + 2 * shareMemoryArraySize

/-- `si` on the bytes of the segment; the arrays are read at any index, inside the struct
or not. -/
def schedInfo (m : Mem) : SchedInfo where
  time := read m 0 8
  N := read m 8 4
  M := read m 12 4
  testedBounds := read m 16 4
  kpNumArray t := read m (kpNumArrayAddr + 2 * t) 2
  kp i := read m (kpAddr + 2 * i) 2
  kpLoc i := read m (kpLocAddr + 2 * i) 2
  kpOrder i := read m (kpOrderAddr + 2 * i) 2

theorem schedInfo_kpNumArray (m : Mem) (t : Nat) :
    (schedInfo m).kpNumArray t = read m (kpNumArrayAddr + 2 * t) 2 := rfl

theorem schedInfo_kp (m : Mem) (i : Nat) : (schedInfo m).kp i = read m (kpAddr + 2 * i) 2 := rfl

theorem schedInfo_kpLoc (m : Mem) (i : Nat) :
    (schedInfo m).kpLoc i = read m (kpLocAddr + 2 * i) 2 := rfl

structure Info where
  P : Nat
  A : Nat
  B : Nat
  T : Nat
  kpNumArray : List Nat
  kpYieldArray : List Nat
  kpLocArray : List Nat
  kpOrderArray : List Nat
  deriving DecidableEq, Repr

/-- A `c_uint16` array of `len` entries after `memmove(byref(arr), ADDR + offset, 2*len)`. -/
def arrayFrom (m : Mem) (offset len : Nat) : List Nat :=
  (List.range len).map fun i => read (memmove (fun _ => 0) 0 m offset (2 * len)) (2 * i) 2

/-- A number of `w` bytes after `memmove(byref(x), ADDR + offset, w)`. -/
def numberFrom (m : Mem) (offset w : Nat) : Nat :=
  read (memmove (fun _ => 0) 0 m offset w) 0 w

def getInfoFromShareMemory (m : Mem) : Info where
  P := numberFrom m 0 8
  A := numberFrom m 8 4
  B := numberFrom m (8 + 4) 4
  T := numberFrom m (8 + 4 * 2) 4
  kpNumArray := arrayFrom m (8 + 4 * 3) shareThreadNum
  kpYieldArray := arrayFrom m (8 + 4 * 3 + 2 * shareThreadNum) shareArraySize
  kpLocArray := arrayFrom m (8 + 4 * 3 + 2 * (shareThreadNum + shareArraySize)) shareArraySize
  kpOrderArray :=
    arrayFrom m (8 + 4 * 3 + 2 * (shareThreadNum + 2 * shareArraySize)) shareArraySize

def memmovePatternList (pattern : List (List Nat)) (m : Mem) : Mem :=
  let tmp := pattern.flatten
  memmove m (8 + 4 * 3 + 2 * shareThreadNum) (arrayMem 2 tmp) 0 (2 * tmp.length)

/-- What the driver gets is what the target has left. -/
structure InfoAgrees (si : SchedInfo) (info : Info) : Prop where
  P_eq : info.P = si.time
  A_eq : info.A = si.N
  B_eq : info.B = si.M
  T_eq : info.T = si.testedBounds
  kpNumArray_eq : ∀ t, t < shareThreadNum → info.kpNumArray[t]? = some (si.kpNumArray t)
  kpYieldArray_eq : ∀ i, i < shareArraySize → info.kpYieldArray[i]? = some (si.kp i)
  kpLocArray_eq : ∀ i, i < shareArraySize → info.kpLocArray[i]? = some (si.kpLoc i)
  kpOrderArray_eq : ∀ i, i < shareArraySize → info.kpOrderArray[i]? = some (si.kpOrder i)

/-- `kp` with the entries of `tmp` written over it. -/
def overlay (tmp : List Nat) (kp : Nat → Nat) (i : Nat) : Nat :=
  match tmp[i]? with
  | some y => y % 65536
  | none => kp i

/-- The pattern is in `kp` and nothing else has changed. -/
structure PatternWritten (tmp : List Nat) (si si' : SchedInfo) : Prop where
  time_eq : si'.time = si.time
  N_eq : si'.N = si.N
  M_eq : si'.M = si.M
  testedBounds_eq : si'.testedBounds = si.testedBounds
  kpNumArray_eq : ∀ t, t < shareThreadNum → si'.kpNumArray t = si.kpNumArray t
  kp_eq : ∀ i, i < shareMemoryArraySize → si'.kp i = overlay tmp si.kp i
  kpLoc_eq : ∀ i, i < shareMemoryArraySize → si'.kpLoc i = si.kpLoc i
  kpOrder_eq : ∀ i, i < shareMemoryArraySize → si'.kpOrder i = si.kpOrder i

theorem numberFrom_eq (m : Mem) (offset w : Nat) : numberFrom m offset w = read m offset w :=
  read_memmove (o := 0) (Nat.le_of_eq (Nat.zero_add w))

theorem arrayFrom_getElem? (m : Mem) (offset : Nat) {len i : Nat} (hi : i < len) :
    (arrayFrom m offset len)[i]? = some (read m (offset + 2 * i) 2) := by
  have hread : read (memmove (fun _ => 0) 0 m offset (2 * len)) (0 + 2 * i) 2 =
      read m (offset + 2 * i) 2 := read_memmove (by omega)
  rw [Nat.zero_add] at hread
  rw [arrayFrom, List.getElem?_map, List.getElem?_range hi, Option.map_some, hread]

section Written
variable (pattern : List (List Nat)) (m : Mem)

theorem read_unwritten {a w : Nat} (ha : a + w ≤ kpAddr ∨ kpAddr + 2 * pattern.flatten.length ≤ a) :
    read (memmovePatternList pattern m) a w = read m a w := by
  unfold memmovePatternList
  exact read_memmove_frame ha

theorem kp_memmovePatternList (i : Nat) : (schedInfo (memmovePatternList pattern m)).kp i =
    overlay pattern.flatten (schedInfo m).kp i := by
  unfold overlay
  rw [schedInfo_kp, schedInfo_kp]
  rcases Nat.lt_or_ge i pattern.flatten.length with hi | hi
  · have hcopied : read (memmovePatternList pattern m) (kpAddr + 2 * i) 2 =
        read (arrayMem 2 pattern.flatten) (0 + 2 * i) 2 := by
      unfold memmovePatternList
      exact read_memmove (by omega)
    rw [hcopied, Nat.zero_add, read_arrayMem, List.getD_eq_getElem?_getD,
      List.getElem?_eq_getElem hi, Option.getD_some]
    rfl
  · rw [List.getElem?_eq_none hi]
    exact read_unwritten pattern m (Or.inr (by omega))

theorem patternWritten (hlen : pattern.flatten.length ≤ shareArraySize) :
    PatternWritten pattern.flatten (schedInfo m) (schedInfo (memmovePatternList pattern m)) := by
  have hkpAddr : kpAddr = 220 := rfl
  have hnumAddr : kpNumArrayAddr = 20 := rfl
  have hlocAddr : kpLocAddr = 8148 := rfl
  have horderAddr : kpOrderAddr = 16076 := rfl
  have hthreads : shareThreadNum = 100 := rfl
  have hsize : shareArraySize = 1990 := rfl
  have hbefore : ∀ a w, a + w ≤ 220 → read (memmovePatternList pattern m) a w = read m a w :=
    fun a w h => read_unwritten pattern m (Or.inl (by omega))
  exact {
    time_eq := hbefore 0 8 (by omega)
    N_eq := hbefore 8 4 (by omega)
    M_eq := hbefore 12 4 (by omega)
    testedBounds_eq := hbefore 16 4 (by omega)
    kpNumArray_eq := fun t ht => hbefore _ 2 (by omega)
    kp_eq := fun i _ => kp_memmovePatternList pattern m i
    kpLoc_eq := fun i _ => read_unwritten pattern m (Or.inr (by omega))
    kpOrder_eq := fun i _ => read_unwritten pattern m (Or.inr (by omega)) }

end Written

structure Consistent (si : SchedInfo) : Prop where
  kp_tail : ∀ i, i < 1974 → si.kp (shareArraySize + i) = si.kpLoc i
  kpLoc_head : ∀ i, i < 16 → si.kpLoc i = si.kpLoc (1974 + i)
  kpLoc_shift : ∀ i, i < shareArraySize → si.kpLoc (16 + i) = si.kpOrder i

/-- The driver takes its `kpLocArray` from the second half of `kp` and the first entries
of `kpLoc`. -/
theorem kpLocArray_getElem? (m : Mem) {i : Nat} (hi : i < shareArraySize) :
    (getInfoFromShareMemory m).kpLocArray[i]? = some ((schedInfo m).kp (shareArraySize + i)) := by
  have haddr : kpAddr + 2 * (shareArraySize + i) =
      8 + 4 * 3 + 2 * (shareThreadNum + shareArraySize) + 2 * i := by
    unfold kpAddr kpNumArrayAddr
    omega
  rw [getInfoFromShareMemory, schedInfo_kp, arrayFrom_getElem? m _ hi, haddr]

theorem kpOrderArray_getElem? (m : Mem) {i : Nat} (hi : i < shareArraySize) :
    (getInfoFromShareMemory m).kpOrderArray[i]? = some ((schedInfo m).kpLoc (16 + i)) := by
  have haddr : kpLocAddr + 2 * (16 + i) =
      8 + 4 * 3 + 2 * (shareThreadNum + 2 * shareArraySize) + 2 * i := by
    have hlocAddr : kpLocAddr = 8148 := rfl
    have hthreads : shareThreadNum = 100 := rfl
    have hsize : shareArraySize = 1990 := rfl
    omega
  rw [getInfoFromShareMemory, schedInfo_kpLoc, arrayFrom_getElem? m _ hi, haddr]

theorem kp_beyond (m : Mem) (i : Nat) :
    (schedInfo m).kp (shareMemoryArraySize + i) = (schedInfo m).kpLoc i := by
  have haddr : kpAddr + 2 * (shareMemoryArraySize + i) = kpLocAddr + 2 * i := by
    unfold kpLocAddr
    omega
  rw [schedInfo_kp, schedInfo_kpLoc, haddr]

theorem infoAgrees_of_consistent {m : Mem} (h : Consistent (schedInfo m)) :
    InfoAgrees (schedInfo m) (getInfoFromShareMemory m) where
  P_eq := numberFrom_eq m _ _
  A_eq := numberFrom_eq m _ _
  B_eq := numberFrom_eq m _ _
  T_eq := numberFrom_eq m _ _
  kpNumArray_eq t ht := by
    rw [getInfoFromShareMemory, schedInfo_kpNumArray, arrayFrom_getElem? m _ ht, kpNumArrayAddr]
  kpYieldArray_eq i hi := by
    rw [getInfoFromShareMemory, schedInfo_kp, arrayFrom_getElem? m _ hi, kpAddr, kpNumArrayAddr]
  kpLocArray_eq i hi := by
    rw [kpLocArray_getElem? m hi]
    rcases Nat.lt_or_ge i 1974 with hlt | hge
    · rw [h.kp_tail i hlt]
    · have hsize : shareArraySize = 1990 := rfl
      have hbeyond : shareArraySize + i = shareMemoryArraySize + (i - 1974) := by
        have hfull : shareMemoryArraySize = 3964 := rfl
        omega
      rw [hbeyond, kp_beyond, h.kpLoc_head _ (by omega), Nat.add_sub_cancel' hge]
  kpOrderArray_eq i hi := by
    rw [kpOrderArray_getElem? m hi, h.kpLoc_shift i hi]

theorem consistent_of_infoAgrees {m : Mem} (h : InfoAgrees (schedInfo m) (getInfoFromShareMemory m)) :
    Consistent (schedInfo m) := by
  have hsize : shareArraySize = 1990 := rfl
  have hkpLoc : ∀ i, i < shareArraySize → (schedInfo m).kp (shareArraySize + i) =
      (schedInfo m).kpLoc i := fun i hi =>
    Option.some.inj ((kpLocArray_getElem? m hi).symm.trans (h.kpLocArray_eq i hi))
  refine ⟨fun i hi => hkpLoc i (by omega), fun i hi => ?_, fun i hi => ?_⟩
  · have hbeyond : shareArraySize + (1974 + i) = shareMemoryArraySize + i := by
      have hfull : shareMemoryArraySize = 3964 := rfl
      omega
    have htail := hkpLoc (1974 + i) (by omega)
    rw [hbeyond, kp_beyond] at htail
    exact htail
  · exact Option.some.inj ((kpOrderArray_getElem? m hi).symm.trans (h.kpOrderArray_eq i hi))

/-- Both directions of the exchange work exactly on consistent contents. -/
theorem views_agree_iff (m : Mem) :
    (InfoAgrees (schedInfo m) (getInfoFromShareMemory m) ∧
      ∀ pattern : List (List Nat), pattern.flatten.length ≤ shareArraySize →
        PatternWritten pattern.flatten (schedInfo m) (schedInfo (memmovePatternList pattern m))) ↔
      Consistent (schedInfo m) :=
  ⟨fun h => consistent_of_infoAgrees h.1,
    fun h => ⟨infoAgrees_of_consistent h, fun pattern hlen => patternWritten pattern m hlen⟩⟩

/-- What a target with one child leaves that hits one key point, with the hash `5`. -/
def oneLocation : Mem := fun a =>
  if a = kpLocAddr then 5
  else if a ∈ [8, 12, kpNumArrayAddr, kpOrderAddr] then 1
  else 0

theorem views_disagree : ¬ InfoAgrees (schedInfo oneLocation) (getInfoFromShareMemory oneLocation) := by
  intro h
  have hhead := (consistent_of_infoAgrees h).kpLoc_head 0 (by decide)
  exact absurd hhead (by decide)

end Period.Runtime
