import Mathlib.Data.List.Basic
import Mathlib.Algebra.Group.Nat.Basic

/-!
# The light cache ETChash passes to libethash

`crypto/etchash/ETChash.cpp`: before calling libethash's `ethash_light_compute_internal`
(which lies outside this repository), `ETChash::calculate` and `Ethash::calculate` fill an
`ethash_light` with the cache size, the block number, the node count
`num_parent_nodes = cache.size() / sizeof(node)` and the constants `reciprocal`,
`increment`, `shift` of a division by that count. The two functions share the block that
computes the constants verbatim.

The counts are `uint32_t` and the dividend of the division branch is `uint64_t`; the model
works in `Nat` and writes the wrap-around where it can happen. `1ULL << shift` with
`shift ≥ 64` is undefined behaviour in C++ and the model returns `none` there.

`fastModData_eq` describes the block on every 32-bit divisor: a power of two gets
`(1, 0, log2 d)`, and every other divisor reaches the shift
`63 + log2 d ≥ 64`, since the loop that counts the divisor's bits starts from 31.
-/

namespace Mining.ETChash

/-- `sizeof(node)`: a libethash DAG node is 64 bytes. -/
def nodeSize : Nat := 64

/-- The `uint32_t` difference `a - b`, wrapping below zero. -/
def sub32 (a b : Nat) : Nat := (a + 2 ^ 32 - b % 2 ^ 32) % 2 ^ 32

/-- The power-of-two branch's `while (temp > 1) { temp >>= 1; shift++; }`. -/
def powerOfTwoShift (temp shift : Nat) : Nat :=
  if 1 < temp then powerOfTwoShift (temp >>> 1) (shift + 1) else shift
termination_by temp
decreasing_by rw [Nat.shiftRight_one]; omega

/-- The division branch's `while (temp > 0) { temp >>= 1; if (temp > 0) shift++; }`. -/
def divisionShift (temp shift : Nat) : Nat :=
  if 0 < temp then divisionShift (temp >>> 1) (if 0 < temp >>> 1 then shift + 1 else shift)
  else shift
termination_by temp
decreasing_by rw [Nat.shiftRight_one]; omega

/-- The shift of the division branch: the loop run from `shift = 31`, then the `uint32_t`
assignment `shift = 63 - (31 - shift)`. -/
def divisionBranchShift (divisor : Nat) : Nat := sub32 63 (sub32 31 (divisionShift divisor 31))

/-- `x << shift` on `uint64_t`; undefined for `shift ≥ 64`. -/
def shiftLeft64 (x shift : Nat) : Option Nat :=
  if shift < 64 then some (x <<< shift % 2 ^ 64) else none

/-- The constants of a division by `num_parent_nodes` that `ethash_light` holds. -/
structure FastModData where
  reciprocal : Nat
  increment : Nat
  shift : Nat
deriving DecidableEq, Repr

/-- The fast-modulo block of `ETChash::calculate` and `Ethash::calculate` on the `uint32_t`
`divisor`. No 64-bit operation after the shift wraps: `q * divisor ≤ N`, `r < divisor` and
`q ≤ N`. -/
def fastModData (divisor : Nat) : Option FastModData :=
  if divisor &&& sub32 divisor 1 = 0 then some ⟨1, 0, powerOfTwoShift divisor 0⟩
  else do
    let shift := divisionBranchShift divisor
    let n ← shiftLeft64 1 shift
    let q := n / divisor
    let r := n - q * divisor
    if r * 2 < divisor then pure ⟨q % 2 ^ 32, 1, shift⟩ else pure ⟨(q + 1) % 2 ^ 32, 0, shift⟩

/-- The fields `ETChash::calculate` sets in the `ethash_light` it passes to
`ethash_light_compute_internal`, the cache pointer left out. -/
structure LightCache where
  cacheSize : Nat
  blockNumber : Nat
  numParentNodes : Nat
  reciprocal : Nat
  increment : Nat
  shift : Nat
deriving DecidableEq, Repr

/-- The light cache setup shared by `ETChash::calculate` and `Ethash::calculate`, for a
cache of `cacheSize` bytes. -/
def lightCacheSetup (cacheSize blockNumber : Nat) : Option LightCache := do
  let numParentNodes := cacheSize / nodeSize % 2 ^ 32
  let ⟨reciprocal, increment, shift⟩ ← fastModData numParentNodes
  pure ⟨cacheSize, blockNumber, numParentNodes, reciprocal, increment, shift⟩

/-- `ETChash::calculate` up to its call of `ethash_light_compute_internal`: the light cache
it passes. -/
def calculate (cacheSize blockNumber : Nat) : Option LightCache :=
  lightCacheSetup cacheSize blockNumber

end Mining.ETChash

namespace Mining.Ethash

open Mining.ETChash

/-- `Ethash::calculate` up to its call of `ethash_light_compute_internal`: the light cache
it passes, set up as in `ETChash::calculate`. -/
def calculate (cacheSize blockNumber : Nat) : Option LightCache :=
  lightCacheSetup cacheSize blockNumber

end Mining.Ethash

namespace Mining.ETChash

/-! ## The two shift loops -/

theorem log2_eq_of_le_of_lt {n k : Nat} (lo : 2 ^ k ≤ n) (hi : n < 2 ^ (k + 1)) :
    Nat.log2 n = k :=
  have pos : n ≠ 0 := Nat.pos_iff_ne_zero.1 (Nat.lt_of_lt_of_le (Nat.two_pow_pos k) lo)
  Nat.le_antisymm (Nat.lt_succ_iff.1 ((Nat.log2_lt pos).2 hi)) ((Nat.le_log2 pos).2 lo)

theorem powerOfTwoShift_eq (temp shift : Nat) :
    powerOfTwoShift temp shift = shift + Nat.log2 temp := by
  induction temp using Nat.strongRecOn generalizing shift with
  | ind temp ih =>
    rw [powerOfTwoShift, Nat.log2.eq_1, Nat.shiftRight_one]
    by_cases big : 1 < temp
    · rw [if_pos big, if_pos (show temp ≥ 2 by omega), ih _ (by omega)]
      omega
    · rw [if_neg big, if_neg (by omega)]
      rfl

theorem divisionShift_eq (shift : Nat) {temp : Nat} (pos : 0 < temp) :
    divisionShift temp shift = shift + Nat.log2 temp := by
  induction temp using Nat.strongRecOn generalizing shift with
  | ind temp ih =>
    rw [divisionShift, if_pos pos, Nat.log2.eq_1, Nat.shiftRight_one]
    by_cases more : 0 < temp / 2
    · rw [if_pos more, ih _ (by omega) _ more, if_pos (by omega)]
      omega
    · rw [if_neg more, divisionShift, if_neg more, if_neg (by omega)]
      rfl

/-- Counting from 31, the loop reaches `31 + log2 d`, and `63 - (31 - shift)` then gives
`63 + log2 d`: one more than `log2 d + 32`, the shift of a division over `N = 2^(32 + log2 d)`. -/
theorem divisionBranchShift_eq {divisor : Nat} (pos : 0 < divisor) (small : divisor < 2 ^ 32) :
    divisionBranchShift divisor = 63 + Nat.log2 divisor := by
  have bits : Nat.log2 divisor < 32 := (Nat.log2_lt (by omega)).2 small
  rw [divisionBranchShift, divisionShift_eq _ pos, sub32, sub32]
  omega

/-! ## The constants on every divisor -/

/-- On every nonzero 32-bit divisor, a power of two gets `(1, 0, log2 d)` and every other
divisor reaches `1ULL << shift` with `shift = 63 + log2 d ≥ 64`. -/
theorem fastModData_eq {divisor : Nat} (pos : 0 < divisor) (small : divisor < 2 ^ 32) :
    fastModData divisor =
      if divisor &&& (divisor - 1) = 0 then some ⟨1, 0, Nat.log2 divisor⟩ else none := by
  have pred : sub32 divisor 1 = divisor - 1 := by
    unfold sub32
    omega
  rw [fastModData, pred]
  split
  · rw [powerOfTwoShift_eq, Nat.zero_add]
  · rename_i notPow
    have two : 2 ≤ divisor := by
      by_contra one
      exact notPow (by rw [show divisor = 1 by omega]; rfl)
    have bits : 1 ≤ Nat.log2 divisor := (Nat.le_log2 (by omega)).2 two
    dsimp only
    rw [divisionBranchShift_eq pos small, shiftLeft64, if_neg (by omega)]
    rfl

/-- Every divisor with a bit below its top bit makes the block undefined. -/
theorem fastModData_of_not_pow {divisor : Nat} (small : divisor < 2 ^ 32)
    (notPow : divisor &&& (divisor - 1) ≠ 0) : fastModData divisor = none := by
  have pos : 0 < divisor := Nat.pos_of_ne_zero (by rintro rfl; exact notPow rfl)
  rw [fastModData_eq pos small, if_neg notPow]

/-- The 16776896-byte cache of libethash's epoch 0 has the prime node count 262139: the
shift is 80, and both `calculate` functions reach the undefined `1ULL << 80`. -/
theorem calculate_epoch_zero_cache :
    16776896 / nodeSize % 2 ^ 32 = 262139 ∧ divisionBranchShift 262139 = 80 ∧
      calculate 16776896 0 = none ∧ Mining.Ethash.calculate 16776896 0 = none := by
  have log2 : Nat.log2 262139 = 17 := log2_eq_of_le_of_lt (by decide) (by decide)
  have none : fastModData 262139 = none := fastModData_of_not_pow (by decide) (by decide)
  refine ⟨rfl, by rw [divisionBranchShift_eq (by decide) (by decide), log2], ?_, ?_⟩ <;>
    simp only [calculate, Mining.Ethash.calculate, lightCacheSetup, nodeSize,
      show 16776896 / 64 % 2 ^ 32 = 262139 from rfl, none] <;> rfl

end Mining.ETChash
