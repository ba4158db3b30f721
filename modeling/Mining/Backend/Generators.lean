import Mathlib.Algebra.Group.Nat.Basic
import Mathlib.Order.MinMax

/-!
# Thread generators of the OpenCL backend

`backend/opencl/generators/`: for a device and an algorithm, each generator picks the
intensity (work items per kernel launch) and the work-group size of one OpenCL thread from
the device's free memory, compute units, vendor and architecture. A runner keeps the
work-group size when its constructor's `switch` lists it, launches
`m_intensity - m_intensity % m_workGroupSize` work items in `run`, and the BLAKE3 runner
reports `m_intensity` processed hashes.

`OclDevice`, `OclThread` and `Algorithm` are not in this repository: a device is the four
values the generators read (`Device`), a thread the two they choose (`Thread`), and an
algorithm its family.

* `generated_threads_launch`: every thread the BLAKE3 and ETChash generators make has a
  work-group size its runner keeps and an intensity that is a multiple of it, within the
  generator's bounds, so the runner launches exactly `m_intensity` items.
* `progpowz_intensity_underflow`: with 2 GiB to 4 GiB + 64 MiB free, `freeMem - dag_size -
  cache_size` wraps around, and the ProgPowZ generator picks the largest intensity, where a
  device with a little more memory gets 64 times less. The ETChash generator guards the same
  subtraction.
* `etchash_run_accounts`: on such a thread, `run` copies at most 15 nonces inside its two
  arrays whatever the kernel writes, and `processedHashes()` counts exactly the items of the
  work groups that ran.
-/

namespace Mining.Generators

/-- What the generators read of an `OclDevice`: `freeMemSize()` (`size_t`), `computeUnits()`
(`uint32_t`), whether `vendorId()` is `OCL_VENDOR_NVIDIA`, and whether `type()` lies between
`Navi_10` and `Navi_21`. -/
structure Device where
  freeMemSize : Nat
  computeUnits : Nat
  nvidia : Bool
  navi : Bool
  freeMemSize_lt : freeMemSize < 2 ^ 64
  computeUnits_lt : computeUnits < 2 ^ 32

/-- The family of an `Algorithm`, as the generators test it. -/
inductive Family where
  | blake3
  | etchash
  | progpowz
  | other
  deriving DecidableEq, Repr

/-- The intensity and the work size of the `OclThread` a generator adds. -/
structure Thread where
  intensity : Nat
  worksize : Nat
  deriving DecidableEq, Repr

/-- `x - y` on `size_t`. -/
def sub64 (x y : Nat) : Nat := (x + 2 ^ 64 - y) % 2 ^ 64

/-- `ocl_generic_blake3_generator`: `none` where it returns `false`. -/
def oclGenericBlake3Generator (device : Device) (family : Family) : Option Thread :=
  if family ≠ .blake3 then none
  else
    let intensity := device.computeUnits * 1024 * 8 % 2 ^ 32
    let maxByMem := device.freeMemSize / 256 % 2 ^ 32
    let intensity := min intensity maxByMem
    let worksize := if device.nvidia then 128 else 256
    let intensity := intensity / worksize * worksize
    let intensity := if intensity < worksize * 256 then worksize * 256 else intensity
    some ⟨min intensity (2 ^ 24), worksize⟩

/-- `ocl_generic_etchash_generator`. -/
def oclGenericEtchashGenerator (device : Device) (family : Family) : Option Thread :=
  if family ≠ .etchash then none
  else if device.freeMemSize < 3 * 1024 * 1024 * 1024 then none
  else
    let dagSize := 6 * 1024 * 1024 * 1024
    let cacheSize := 128 * 1024 * 1024
    let available := if device.freeMemSize > dagSize + cacheSize then
      sub64 (sub64 device.freeMemSize dagSize) cacheSize else 0
    let intensity := min (available / 128) (2 ^ 24) % 2 ^ 32
    let intensity := intensity / 128 * 128
    let intensity := if intensity < 128 * 1024 then 128 * 1024 else intensity
    let intensity := min intensity (2 ^ 23)
    let worksize := if device.nvidia then 64 else 128
    let intensity := if device.nvidia then min intensity (2 ^ 20) else intensity
    let intensity := if device.navi then min intensity (2 ^ 21) else intensity
    some ⟨intensity, worksize⟩

/-- `ocl_generic_progpowz_generator`. -/
def oclGenericProgpowzGenerator (device : Device) (family : Family) : Option Thread :=
  if family ≠ .progpowz then none
  else if device.freeMemSize < 2 * 1024 * 1024 * 1024 then none
  else
    let available := sub64 (sub64 device.freeMemSize (4 * 1024 * 1024 * 1024)) (64 * 1024 * 1024)
    let intensity := min (available / 128) (2 ^ 24) % 2 ^ 32
    let intensity := intensity / 256 * 256
    let intensity := if intensity < 256 * 1024 then 256 * 1024 else intensity
    let worksize := if device.nvidia then 128 else 256
    let intensity := if device.nvidia then min intensity (2 ^ 20) else intensity
    let intensity := if device.navi then min intensity (2 ^ 21) else intensity
    some ⟨intensity, worksize⟩

/-- The work-group size the `OclBlake3Runner` constructor keeps: the thread's when the
`switch` lists it, else the member's default 256. -/
def blake3WorkGroupSize (worksize : Nat) : Nat :=
  if worksize = 64 ∨ worksize = 128 ∨ worksize = 256 ∨ worksize = 512 then worksize else 256

/-- The work-group size the `OclEtchashRunner` constructor keeps; the default is 128. -/
def etchashWorkGroupSize (worksize : Nat) : Nat :=
  if worksize = 64 ∨ worksize = 128 ∨ worksize = 256 then worksize else 128

/-- `global_work_size` in the runners' `run`. -/
def globalWorkSize (intensity workGroupSize : Nat) : Nat := intensity - intensity % workGroupSize

/-- `memcpy(dst, src + offset, count * sizeof(uint32_t))` between arrays of `uint32_t`:
`none` where it reads or writes past an array. -/
def memcpyWords (dst src : List Nat) (offset count : Nat) : Option (List Nat) :=
  if offset + count ≤ src.length ∧ count ≤ dst.length then
    some ((src.drop offset).take count ++ dst.drop count)
  else none

/-- `if (output[0] > 15) output[0] = 15;`: the number of nonces `run` hands back. -/
def resultCount (count : Nat) : Nat := if count > 15 then 15 else count

/-- The end of `run` in both runners, after the blocking read of `uint32_t output[16]`: the
count `output[0]`, clamped, is stored at `hashOutput[0xFF]`, and that many nonces are copied
from `output + 1` to the front of `hashOutput`. `none` where an access leaves its array. -/
def readResults (output hashOutput : List Nat) : Option (List Nat) := do
  let count ← output[0]?
  if 0xFF < hashOutput.length then
    memcpyWords (hashOutput.set 0xFF (resultCount count)) output 1 (resultCount count)
  else none

/-- `OclEtchashRunner::processedHashes()`: `m_intensity - m_skippedHashes` on `uint32_t`,
where `run` stored `m_skippedHashes = stop[1] * m_workGroupSize`, a `size_t` product cut to
`uint32_t`. -/
def etchashProcessedHashes (intensity workGroupSize skippedGroups : Nat) : Nat :=
  (intensity + 2 ^ 32 - skippedGroups * workGroupSize % 2 ^ 32) % 2 ^ 32

/-! ## The end of a launch -/

theorem resultCount_le (count : Nat) : resultCount count ≤ 15 := by
  unfold resultCount; split_ifs <;> omega

theorem readResults_cons {count : Nat} {rest hashOutput : List Nat} (fifteen : rest.length = 15)
    (size : 0xFF < hashOutput.length) :
    readResults (count :: rest) hashOutput = some (rest.take (resultCount count) ++
      (hashOutput.set 0xFF (resultCount count)).drop (resultCount count)) := by
  have le := resultCount_le count
  simp only [readResults, memcpyWords, List.getElem?_cons_zero, Option.bind_eq_bind, Option.some_bind,
    if_pos size]
  rw [if_pos ⟨by simp only [List.length_cons]; omega, by simp only [List.length_set]; omega⟩]
  rfl


/-- For every `output` of 16 words and every 256-entry `hashOutput`, `run` reads and writes
inside both: the first `resultCount` entries are the nonces after the count, the count is at
`hashOutput[0xFF]`, and the entries between keep their values. -/
theorem readResults_spec (count : Nat) {rest hashOutput : List Nat} (fifteen : rest.length = 15)
    (size : hashOutput.length = 256) :
    ∃ results, readResults (count :: rest) hashOutput = some results ∧ results.length = 256 ∧
      results.take (resultCount count) = rest.take (resultCount count) ∧
      (∀ i, resultCount count ≤ i → i < 0xFF → results[i]? = hashOutput[i]?) ∧
      results[0xFF]? = some (resultCount count) := by
  have le := resultCount_le count
  have copied : (rest.take (resultCount count)).length = resultCount count := by
    rw [List.length_take, fifteen]; omega
  refine ⟨_, readResults_cons fifteen (by omega), ?_, ?_, fun i low high => ?_, ?_⟩
  · rw [List.length_append, copied, List.length_drop, List.length_set, size]; omega
  · rw [List.take_append_of_le_length copied.ge, List.take_take, min_self]
  · rw [List.getElem?_append_right (by omega), List.getElem?_drop, copied, List.getElem?_set_ne (by omega)]
    congr 1; omega
  · rw [List.getElem?_append_right (by omega), List.getElem?_drop, copied,
      Nat.add_sub_cancel' (by omega), List.getElem?_set_self (by omega)]

/-! ## Generated threads and their runners -/

theorem globalWorkSize_of_mod {intensity workGroupSize : Nat} (multiple : intensity % workGroupSize = 0) :
    globalWorkSize intensity workGroupSize = intensity := by
  rw [globalWorkSize, multiple, Nat.sub_zero]

section

variable (device : Device)

/-- The BLAKE3 generator always makes a thread; its work size is one the runner keeps, and its
intensity a multiple of it between 256 work groups and `2^24`. -/
theorem blake3_thread : ∃ thread, oclGenericBlake3Generator device .blake3 = some thread ∧
    blake3WorkGroupSize thread.worksize = thread.worksize ∧
    thread.worksize * 256 ≤ thread.intensity ∧ thread.intensity ≤ 2 ^ 24 ∧
    thread.intensity % thread.worksize = 0 := by
  refine ⟨_, rfl, ?_⟩
  dsimp only
  generalize min (device.computeUnits * 1024 * 8 % 2 ^ 32) (device.freeMemSize / 256 % 2 ^ 32) = x
  cases device.nvidia <;> simp only [Bool.false_eq_true, if_false, if_true] <;>
    refine ⟨rfl, ?_⟩ <;> split_ifs <;> omega

/-- The ETChash generator makes a thread exactly when the device has 3 GiB free; its work
size is one the runner keeps, and its intensity a multiple of it between `2^17` and `2^23`. -/
theorem etchash_thread :
    ((oclGenericEtchashGenerator device .etchash).isSome ↔
      3 * 1024 * 1024 * 1024 ≤ device.freeMemSize) ∧
    ∀ thread ∈ oclGenericEtchashGenerator device .etchash,
      etchashWorkGroupSize thread.worksize = thread.worksize ∧
      2 ^ 17 ≤ thread.intensity ∧ thread.intensity ≤ 2 ^ 23 ∧
      thread.intensity % thread.worksize = 0 := by
  unfold oclGenericEtchashGenerator
  rw [if_neg (by decide)]
  by_cases few : device.freeMemSize < 3 * 1024 * 1024 * 1024
  · rw [if_pos few]
    exact ⟨iff_of_false Bool.false_ne_true (by omega), fun _ made => Option.noConfusion made⟩
  rw [if_neg few]
  refine ⟨iff_of_true rfl (by omega), fun thread made => ?_⟩
  cases made
  dsimp only
  generalize (min ((if device.freeMemSize > 6 * 1024 * 1024 * 1024 + 128 * 1024 * 1024 then
    sub64 (sub64 device.freeMemSize (6 * 1024 * 1024 * 1024)) (128 * 1024 * 1024) else 0) / 128)
    (2 ^ 24)) % 2 ^ 32 = x
  cases device.nvidia <;> cases device.navi <;> simp only [Bool.false_eq_true, if_false, if_true] <;>
    refine ⟨rfl, ?_⟩ <;> split_ifs <;> omega

/-- Every thread the BLAKE3 and ETChash generators make is launched whole: the runner keeps
its work size, and `run` launches exactly `m_intensity` work items, the count the BLAKE3
runner reports as processed. The BLAKE3 generator always makes a thread, of 256 work groups
to `2^24` items; the ETChash generator makes one exactly when the device has 3 GiB free, of
`2^17` to `2^23` items. -/
theorem generated_threads_launch :
    (∃ thread, oclGenericBlake3Generator device .blake3 = some thread ∧
      blake3WorkGroupSize thread.worksize = thread.worksize ∧
      thread.worksize * 256 ≤ thread.intensity ∧ thread.intensity ≤ 2 ^ 24 ∧
      globalWorkSize thread.intensity (blake3WorkGroupSize thread.worksize) = thread.intensity) ∧
    ((oclGenericEtchashGenerator device .etchash).isSome ↔
      3 * 1024 * 1024 * 1024 ≤ device.freeMemSize) ∧
    ∀ thread ∈ oclGenericEtchashGenerator device .etchash,
      etchashWorkGroupSize thread.worksize = thread.worksize ∧
      2 ^ 17 ≤ thread.intensity ∧ thread.intensity ≤ 2 ^ 23 ∧
      globalWorkSize thread.intensity (etchashWorkGroupSize thread.worksize) = thread.intensity := by
  obtain ⟨thread, made, kept, low, high, multiple⟩ := blake3_thread device
  refine ⟨⟨thread, made, kept, low, high, by rw [kept, globalWorkSize_of_mod multiple]⟩,
    (etchash_thread device).1, fun thread made => ?_⟩
  obtain ⟨kept, low, high, multiple⟩ := (etchash_thread device).2 thread made
  exact ⟨kept, low, high, by rw [kept, globalWorkSize_of_mod multiple]⟩

/-- With 2 GiB to 4 GiB + 64 MiB free, `freeMem - dag_size - cache_size` wraps around to
nearly `2^64`, and the ProgPowZ generator picks the largest intensity it can (`2^24`, or the
NVIDIA and Navi caps); with up to 32 MiB more it picks the smallest, `256 * 1024`. -/
theorem progpowz_intensity_underflow :
    (2 * 1024 * 1024 * 1024 ≤ device.freeMemSize →
      device.freeMemSize < 4 * 1024 * 1024 * 1024 + 64 * 1024 * 1024 →
      (oclGenericProgpowzGenerator device .progpowz).map (·.intensity) =
        some (if device.nvidia then 2 ^ 20 else if device.navi then 2 ^ 21 else 2 ^ 24)) ∧
    (4 * 1024 * 1024 * 1024 + 64 * 1024 * 1024 ≤ device.freeMemSize →
      device.freeMemSize < 4 * 1024 * 1024 * 1024 + 96 * 1024 * 1024 →
      (oclGenericProgpowzGenerator device .progpowz).map (·.intensity) = some (256 * 1024)) := by
  have below := device.freeMemSize_lt
  unfold oclGenericProgpowzGenerator
  rw [if_neg (by decide)]
  constructor
  · intro enough short
    rw [if_neg (by omega), Option.map_some']
    have wrapped : min (sub64 (sub64 device.freeMemSize (4 * 1024 * 1024 * 1024))
        (64 * 1024 * 1024) / 128) (2 ^ 24) = 2 ^ 24 := by
      unfold sub64; omega
    dsimp only
    rw [wrapped]
    cases device.nvidia <;> cases device.navi <;> rfl
  · intro enough short
    rw [if_neg (by omega), Option.map_some']
    have small : min (sub64 (sub64 device.freeMemSize (4 * 1024 * 1024 * 1024))
        (64 * 1024 * 1024) / 128) (2 ^ 24) < 2 ^ 18 := by
      unfold sub64; omega
    dsimp only
    generalize min (sub64 (sub64 device.freeMemSize (4 * 1024 * 1024 * 1024))
        (64 * 1024 * 1024) / 128) (2 ^ 24) = x at small
    have raised : (if x % 2 ^ 32 / 256 * 256 < 256 * 1024 then 256 * 1024
        else x % 2 ^ 32 / 256 * 256) = 256 * 1024 := if_pos (by omega)
    rw [raised]
    cases device.nvidia <;> cases device.navi <;> rfl

end

/-- A device with 3 GiB free, neither NVIDIA nor Navi, gets the largest ProgPowZ intensity. -/
theorem progpowz_intensity_underflow_three_gib :
    2 * 1024 * 1024 * 1024 ≤ 3 * 2 ^ 30 ∧ 3 * 2 ^ 30 < 4 * 1024 * 1024 * 1024 + 64 * 1024 * 1024 ∧
    (oclGenericProgpowzGenerator ⟨3 * 2 ^ 30, 32, false, false, by decide, by decide⟩ .progpowz).map
      (·.intensity) = some (2 ^ 24) :=
  ⟨by decide, by decide,
    (progpowz_intensity_underflow ⟨3 * 2 ^ 30, 32, false, false, by decide, by decide⟩).1
      (by decide) (by decide)⟩

/-- For every thread the ETChash generator makes, whatever its search kernel leaves in
`output`, and whatever number of work groups it counts as skipped in `stop[1]` so long as they
were launched: `run` reads inside `output[16]` and writes inside a 256-entry `hashOutput`,
handing back the first `min(output[0], 15)` nonces with their count at `hashOutput[0xFF]`,
and `processedHashes()` is the number of items launched less those of the skipped groups,
with no `uint32_t` wrap. -/
theorem etchash_run_accounts (device : Device) {thread : Thread}
    (made : thread ∈ oclGenericEtchashGenerator device .etchash) (count : Nat)
    {rest hashOutput : List Nat} (fifteen : rest.length = 15) (size : hashOutput.length = 256)
    {skippedGroups : Nat}
    (launched : skippedGroups * etchashWorkGroupSize thread.worksize ≤
      globalWorkSize thread.intensity (etchashWorkGroupSize thread.worksize)) :
    (∃ results, readResults (count :: rest) hashOutput = some results ∧ results.length = 256 ∧
      results.take (resultCount count) = rest.take (resultCount count) ∧
      (∀ i, resultCount count ≤ i → i < 0xFF → results[i]? = hashOutput[i]?) ∧
      results[0xFF]? = some (resultCount count)) ∧
    etchashProcessedHashes thread.intensity (etchashWorkGroupSize thread.worksize) skippedGroups =
      globalWorkSize thread.intensity (etchashWorkGroupSize thread.worksize) -
        skippedGroups * etchashWorkGroupSize thread.worksize := by
  refine ⟨readResults_spec count fifteen size, ?_⟩
  obtain ⟨kept, -, high, multiple⟩ := (etchash_thread device).2 thread made
  rw [kept, globalWorkSize_of_mod multiple] at launched ⊢
  unfold etchashProcessedHashes
  generalize skippedGroups * thread.worksize = skipped at launched ⊢
  omega

/-- A device with 3 GiB free gets the ETChash thread of `2^17` items in work groups of 128;
a kernel that reports 20 nonces and one skipped group is read back as 15 nonces and
`2^17 - 128` processed hashes. -/
theorem etchash_run_accounts_three_gib :
    (⟨2 ^ 17, 128⟩ : Thread) ∈
      oclGenericEtchashGenerator ⟨3 * 2 ^ 30, 32, false, false, by decide, by decide⟩ .etchash ∧
    1 * etchashWorkGroupSize 128 ≤ globalWorkSize (2 ^ 17) (etchashWorkGroupSize 128) ∧
    etchashProcessedHashes (2 ^ 17) (etchashWorkGroupSize 128) 1 =
      globalWorkSize (2 ^ 17) (etchashWorkGroupSize 128) - 1 * etchashWorkGroupSize 128 :=
  ⟨by decide, by decide,
    (@etchash_run_accounts ⟨3 * 2 ^ 30, 32, false, false, by decide, by decide⟩ ⟨2 ^ 17, 128⟩
      (by decide) 20 _ _ (List.length_replicate 15 7) (List.length_replicate 256 0) 1
      (by decide)).2⟩

end Mining.Generators
