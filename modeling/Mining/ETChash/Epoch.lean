import Mining.ETChash.LightCache

/-!
# Epochs of ETChash, Ethash and the OpenCL runner

`crypto/etchash/ETChash.cpp` and `ETChash.h`: an epoch is 30000 blocks until ECIP-1099
activates at block 11700000 (epoch 390), and 60000 blocks after it. `Ethash` keeps 30000
throughout. `backend/opencl/runners/OclEtchashRunner.cpp` has its own 32-bit copy,
`calculateEpoch`, from which the GPU runner picks the DAG and the light cache.

Block numbers are `uint64_t` and epochs `uint32_t`; the model works in `Nat` and writes each
wrap-around of the C++ arithmetic. The two that matter are the `static_cast<uint32_t>` of
the epoch: on a block past `epochStartBlock (2^32 - 1)` the epoch wraps modulo `2^32`, and
`epoch` and `epochStartBlock` stay inverse only below that block.
-/

namespace Mining.ETChash

/-- `EPOCH_LENGTH_OLD`: blocks per epoch before ECIP-1099. -/
def epochLengthOld : Nat := 30000

/-- `EPOCH_LENGTH_NEW`: blocks per epoch after ECIP-1099. -/
def epochLengthNew : Nat := 60000

/-- `ECIP1099_ACTIVATION_EPOCH`. -/
def ecip1099ActivationEpoch : Nat := 390

/-- `ECIP1099_ACTIVATION_BLOCK`, `390 * 30000`. -/
def ecip1099ActivationBlock : Nat := 11700000

/-- `ETChash::epoch` on a `uint64_t` block number: the `static_cast<uint32_t>` of the
quotient and the `uint32_t` sum both wrap. -/
def epoch (blockNumber : Nat) : Nat :=
  if blockNumber < ecip1099ActivationBlock then blockNumber / epochLengthOld % 2 ^ 32
  else (ecip1099ActivationEpoch +
    (blockNumber - ecip1099ActivationBlock) / epochLengthNew % 2 ^ 32) % 2 ^ 32

/-- `ETChash::epochStartBlock` on a `uint32_t` epoch, computed in `uint64_t`. -/
def epochStartBlock (epoch : Nat) : Nat :=
  if epoch < ecip1099ActivationEpoch then epoch * epochLengthOld % 2 ^ 64
  else (ecip1099ActivationBlock +
    sub32 epoch ecip1099ActivationEpoch * epochLengthNew % 2 ^ 64) % 2 ^ 64

end Mining.ETChash

namespace Mining.Ethash

/-- `Ethash::EPOCH_LENGTH`. -/
def epochLength : Nat := 30000

/-- `Ethash::epoch`: the quotient cast to `uint32_t`. -/
def epoch (blockNumber : Nat) : Nat := blockNumber / epochLength % 2 ^ 32

/-- `Ethash::epochStartBlock`, in `uint64_t`. -/
def epochStartBlock (epoch : Nat) : Nat := epoch * epochLength % 2 ^ 64

end Mining.Ethash

namespace Mining.OclEtchashRunner

/-- The runner's `EPOCH_LENGTH`. -/
def epochLength : Nat := 30000

/-- The runner's `ECIP1099_BLOCK`. -/
def ecip1099Block : Nat := 11700000

/-- The runner's `ECIP1099_EPOCH`. -/
def ecip1099Epoch : Nat := 390

/-- `calculateEpoch` on a `uint32_t` height, all in `uint32_t`. -/
def calculateEpoch (height : Nat) (isETC : Bool) : Nat :=
  if !isETC then height / epochLength
  else if height < ecip1099Block then height / epochLength
  else (ecip1099Epoch + (height - ecip1099Block) / 60000) % 2 ^ 32

end Mining.OclEtchashRunner

namespace Mining.ETChash

/-! ## The epoch functions without wrap-around -/

/-- Every `uint32_t` epoch starts at `e · 30000` before the switch and at
`11700000 + (e - 390) · 60000` after it, with no `uint64_t` wrap. -/
theorem epochStartBlock_eq {e : Nat} (small : e < 2 ^ 32) :
    epochStartBlock e = if e < 390 then e * 30000 else 11700000 + (e - 390) * 60000 := by
  unfold epochStartBlock ecip1099ActivationEpoch ecip1099ActivationBlock epochLengthOld
    epochLengthNew
  split_ifs with early
  · exact Nat.mod_eq_of_lt (by omega)
  · have wrapFree : sub32 e 390 = e - 390 := by unfold sub32; omega
    rw [wrapFree, Nat.mod_eq_of_lt (a := (e - 390) * 60000) (by omega),
      Nat.mod_eq_of_lt (by omega)]

theorem epoch_of_lt {b : Nat} (before : b < 11700000) : epoch b = b / 30000 := by
  unfold epoch ecip1099ActivationBlock epochLengthOld
  rw [if_pos before]
  exact Nat.mod_eq_of_lt (by omega)

/-- After the switch the epoch is exact while the quotient stays below `2^32 - 390`. -/
theorem epoch_of_le {b : Nat} (after : 11700000 ≤ b) (few : (b - 11700000) / 60000 < 2 ^ 32 - 390) :
    epoch b = 390 + (b - 11700000) / 60000 := by
  rw [epoch, if_neg (by unfold ecip1099ActivationBlock; omega)]
  unfold ecip1099ActivationEpoch ecip1099ActivationBlock epochLengthNew
  rw [Nat.mod_eq_of_lt (a := (b - 11700000) / 60000) (by omega), Nat.mod_eq_of_lt (by omega)]

/-- The start of the last `uint32_t` epoch; every block below it has an exact epoch. -/
theorem epochStartBlock_last : epochStartBlock (2 ^ 32 - 1) = 257698026000000 := by
  rw [epochStartBlock_eq (by decide)]
  rfl

theorem epoch_epochStartBlock {e : Nat} (small : e < 2 ^ 32) : epoch (epochStartBlock e) = e := by
  rw [epochStartBlock_eq small]
  split_ifs with early
  · rw [epoch_of_lt (by omega)]
    omega
  · have quotient : (11700000 + (e - 390) * 60000 - 11700000) / 60000 = e - 390 := by omega
    rw [epoch_of_le (by omega) (by omega), quotient]
    omega

theorem epochStartBlock_epoch_le {b : Nat} (below : b < epochStartBlock (2 ^ 32 - 1)) :
    epochStartBlock (epoch b) ≤ b ∧ b < epochStartBlock (epoch b + 1) := by
  rw [epochStartBlock_last] at below
  by_cases early : b < 11700000
  · rw [epoch_of_lt early, epochStartBlock_eq (by omega), epochStartBlock_eq (by omega)]
    split_ifs <;> omega
  · rw [epoch_of_le (by omega) (by omega), epochStartBlock_eq (by omega),
      epochStartBlock_eq (by omega)]
    split_ifs <;> omega

end Mining.ETChash

namespace Mining.Ethash

theorem epochStartBlock_eq {e : Nat} (small : e < 2 ^ 32) : epochStartBlock e = e * 30000 :=
  Nat.mod_eq_of_lt (by unfold epochLength; omega)

theorem epoch_eq {b : Nat} (below : b < 2 ^ 32 * 30000) : epoch b = b / 30000 :=
  Nat.mod_eq_of_lt (by unfold epochLength; omega)

theorem epoch_epochStartBlock {e : Nat} (small : e < 2 ^ 32) : epoch (epochStartBlock e) = e := by
  rw [epochStartBlock_eq small, epoch_eq (by omega)]
  omega

theorem epochStartBlock_epoch_le {b : Nat} (below : b < epochStartBlock (2 ^ 32 - 1)) :
    epochStartBlock (epoch b) ≤ b ∧ b < epochStartBlock (epoch b + 1) := by
  rw [epochStartBlock_eq (by decide)] at below
  rw [epoch_eq (by omega), epochStartBlock_eq (by omega), epochStartBlock_eq (by omega)]
  omega

end Mining.Ethash

namespace Mining.OclEtchashRunner

/-- On every 32-bit height the runner's copy agrees with the CPU functions. -/
theorem calculateEpoch_eq {height : Nat} (small : height < 2 ^ 32) (isETC : Bool) :
    calculateEpoch height isETC =
      if isETC then Mining.ETChash.epoch height else Mining.Ethash.epoch height := by
  unfold calculateEpoch epochLength ecip1099Block ecip1099Epoch
  cases isETC with
  | false => exact (Mining.Ethash.epoch_eq (by omega)).symm
  | true =>
    simp only [Bool.not_true, Bool.false_eq_true, if_false, if_true]
    split_ifs with early
    · exact (Mining.ETChash.epoch_of_lt early).symm
    · rw [Mining.ETChash.epoch_of_le (by omega) (by omega)]
      exact Nat.mod_eq_of_lt (by omega)

end Mining.OclEtchashRunner

namespace Mining.ETChash

/-! ## The Galois connection and where it stops -/

/-- `ETChash` and `Ethash` each invert their start block on every `uint32_t` epoch and bracket
every block below the start of their last `uint32_t` epoch, and the runner's copy agrees
with the CPU functions on every 32-bit height. -/
theorem epoch_galois_connection :
    (∀ e < 2 ^ 32, epoch (epochStartBlock e) = e) ∧
    (∀ b < epochStartBlock (2 ^ 32 - 1),
      epochStartBlock (epoch b) ≤ b ∧ b < epochStartBlock (epoch b + 1)) ∧
    (∀ e < 2 ^ 32, Mining.Ethash.epoch (Mining.Ethash.epochStartBlock e) = e) ∧
    (∀ b < Mining.Ethash.epochStartBlock (2 ^ 32 - 1),
      Mining.Ethash.epochStartBlock (Mining.Ethash.epoch b) ≤ b ∧
        b < Mining.Ethash.epochStartBlock (Mining.Ethash.epoch b + 1)) ∧
    (∀ height < 2 ^ 32, ∀ isETC : Bool,
      Mining.OclEtchashRunner.calculateEpoch height isETC =
        if isETC then epoch height else Mining.Ethash.epoch height) :=
  ⟨fun _ small => epoch_epochStartBlock small, fun _ below => epochStartBlock_epoch_le below,
    fun _ small => Mining.Ethash.epoch_epochStartBlock small,
    fun _ below => Mining.Ethash.epochStartBlock_epoch_le below,
    fun _ small isETC => Mining.OclEtchashRunner.calculateEpoch_eq small isETC⟩

/-- Past the last `uint32_t` epoch the cast wraps: the 64-bit block `11700000 + 2^32 · 60000`
gets `ETChash` epoch 390 and the block `2^32 · 30000` gets `Ethash` epoch 0, both below
`2^32 - 1`, and each block lies past the start of the epoch after the one returned. -/
theorem epoch_wraps :
    257698049460000 < 2 ^ 64 ∧ epoch 257698049460000 = 390 ∧
      epochStartBlock (390 + 1) ≤ 257698049460000 ∧
    128849018880000 < 2 ^ 64 ∧ Mining.Ethash.epoch 128849018880000 = 0 ∧
      Mining.Ethash.epochStartBlock (0 + 1) ≤ 128849018880000 := by
  decide

end Mining.ETChash
