import Mining.Blake3.Tree

/-!
# Decred's BLAKE3 proof of work

`crypto/blake3dcr/Blake3DCR.cpp`: `calculate` hashes the 180-byte block header with the
nonce written little-endian at byte 140, and `checkDifficulty` compares the hash with the
target byte by byte from the first, with an early exit at the first difference.

`calculate_eq_specDigest` shows that `calculate` returns the BLAKE3 digest of the header
with the nonce spliced in: 180 bytes are two chunks at most, where the tree of `blake3.c`
is right. `checkDifficulty_iff` shows that the early-exit loop decides the numeric order:
on two 32-byte strings it returns true exactly when the big-endian integer of the hash is
at most that of the target.
-/

namespace Mining.Blake3DCR

open Mining.Blake3

/-- `Blake3DCR::BLOCK_HEADER_SIZE`. -/
def blockHeaderSize : Nat := 180

/-- `Blake3DCR::NONCE_OFFSET`. -/
def nonceOffset : Nat := 140

/-- `Blake3DCR::hash`: the BLAKE3 digest of the first `headerLen` bytes of the header. -/
def hash (header : List UInt8) (headerLen : Nat) : Option (List UInt8) :=
  blake3Hash (header.take headerLen)

/-- `Blake3DCR::calculate`: copy the header, write the nonce little-endian at byte 140, and
hash the 180 bytes. -/
def calculate (header : List UInt8) (nonce : UInt32) : Option (List UInt8) :=
  let work := header.take blockHeaderSize
  let work := work.set nonceOffset nonce.toUInt8
  let work := work.set (nonceOffset + 1) (nonce >>> 8).toUInt8
  let work := work.set (nonceOffset + 2) (nonce >>> 16).toUInt8
  let work := work.set (nonceOffset + 3) (nonce >>> 24).toUInt8
  blake3Hash work

/-! ## The work buffer -/

/-- Four bytes written from index `i` on take the place of bytes `i` to `i + 3`. -/
theorem set_four {w : List UInt8} {i : Nat} (long : i + 4 ≤ w.length) (b0 b1 b2 b3 : UInt8) :
    (((w.set i b0).set (i + 1) b1).set (i + 2) b2).set (i + 3) b3 =
      w.take i ++ [b0, b1, b2, b3] ++ w.drop (i + 4) := by
  induction i generalizing w with
  | zero =>
      match w, long with
      | _ :: _ :: _ :: _ :: _, _ => rfl
  | succ i ih =>
      match w, long with
      | y :: w, long =>
          simp only [List.length_cons] at long
          rw [show i + 1 + 2 = i + 2 + 1 by omega, show i + 1 + 3 = i + 3 + 1 by omega]
          simp only [List.set_cons_succ, List.take_succ_cons, List.drop_succ_cons, List.cons_append,
            ih (w := w) (by omega)]

/-- On a header of at least 180 bytes, `calculate` returns the BLAKE3 digest of the first 180
bytes with the nonce's little-endian bytes in place of bytes 140 to 143. -/
theorem calculate_eq_specDigest {header : List UInt8} (long : blockHeaderSize ≤ header.length)
    (nonce : UInt32) :
    calculate header nonce = some (specDigest .default
      (header.take nonceOffset ++ store32Le nonce ++
        (header.take blockHeaderSize).drop (nonceOffset + 4))) := by
  have work : (header.take blockHeaderSize).length = 180 := by
    simp only [List.length_take, blockHeaderSize] at long ⊢
    omega
  have spliced := set_four (w := header.take blockHeaderSize) (i := nonceOffset)
    (by rw [work]; decide) nonce.toUInt8 (nonce >>> 8).toUInt8 (nonce >>> 16).toUInt8
    (nonce >>> 24).toUInt8
  rw [List.take_take, show min nonceOffset blockHeaderSize = nonceOffset from rfl] at spliced
  rw [calculate, spliced]
  refine blake3HasherFinalize_of_le_two_chunks iv 0 ?_
  simp only [List.length_append, List.length_take, List.length_drop, work, store32Le,
    List.length_cons, List.length_nil, blake3ChunkLen, nonceOffset]
  omega

/-- The header of bytes 0 to 179 with the nonce `0x01020304`: bytes 140 to 143 become
`04 03 02 01`. -/
theorem calculate_eq_specDigest_counting :
    blockHeaderSize ≤ ((List.range 180).map Nat.toUInt8).length ∧
      calculate ((List.range 180).map Nat.toUInt8) 0x01020304 = some (specDigest .default
        (((List.range 180).map Nat.toUInt8).take nonceOffset ++ store32Le 0x01020304 ++
          (((List.range 180).map Nat.toUInt8).take blockHeaderSize).drop (nonceOffset + 4))) :=
  have long : blockHeaderSize ≤ ((List.range 180).map Nat.toUInt8).length := by
    rw [List.length_map, List.length_range]; decide
  ⟨long, calculate_eq_specDigest long 0x01020304⟩

/-! ## The difficulty check -/

/-- The `for (int i = 0; i < 32; i++)` loop of `Blake3DCR::checkDifficulty` at byte `i`,
with `n` bytes left to compare. -/
def checkDifficultyFrom (hash target : List UInt8) (i : Nat) : Nat → Bool
  | 0 => true
  | n + 1 =>
      if hash.getD i 0 < target.getD i 0 then true
      else if hash.getD i 0 > target.getD i 0 then false
      else checkDifficultyFrom hash target (i + 1) n

/-- `Blake3DCR::checkDifficulty`. -/
def checkDifficulty (hash target : List UInt8) : Bool := checkDifficultyFrom hash target 0 32

/-- The big-endian integer of a byte string,
`Σ bytes[i] · 256^(n - 1 - i)`. -/
def bigEndianValue : List UInt8 → Nat
  | [] => 0
  | b :: bytes => b.toNat * 256 ^ bytes.length + bigEndianValue bytes

/-! ## The big-endian order -/

theorem bigEndianValue_lt (bytes : List UInt8) : bigEndianValue bytes < 256 ^ bytes.length := by
  induction bytes with
  | nil => exact Nat.one_pos
  | cons b bytes ih =>
      have byte : b.toNat * 256 ^ bytes.length ≤ 255 * 256 ^ bytes.length :=
        Nat.mul_le_mul_right _ (Nat.le_of_lt_succ b.toNat_lt_size)
      rw [bigEndianValue, List.length_cons, Nat.pow_succ]
      omega

/-- A smaller first byte decides the order, whatever follows. -/
theorem bigEndianValue_cons_lt {a b : UInt8} {as bs : List UInt8} (lt : a < b)
    (length : as.length = bs.length) : bigEndianValue (a :: as) < bigEndianValue (b :: bs) := by
  have step : (a.toNat + 1) * 256 ^ as.length ≤ b.toNat * 256 ^ bs.length := by
    rw [length]
    exact Nat.mul_le_mul_right _ lt
  have := bigEndianValue_lt as
  rw [bigEndianValue, bigEndianValue, Nat.succ_mul] at *
  omega

theorem bigEndianValue_cons_le_cons_iff {b : UInt8} {as bs : List UInt8}
    (length : as.length = bs.length) :
    bigEndianValue (b :: as) ≤ bigEndianValue (b :: bs) ↔ bigEndianValue as ≤ bigEndianValue bs := by
  rw [bigEndianValue, bigEndianValue, length]
  omega

/-! ## The loop -/

/-- From byte `i` with `n` bytes left, the loop decides the order of the remaining bytes. -/
theorem checkDifficultyFrom_iff {hash target : List UInt8} {i n : Nat}
    (hashLen : hash.length = i + n) (targetLen : target.length = i + n) :
    checkDifficultyFrom hash target i n = true ↔
      bigEndianValue (hash.drop i) ≤ bigEndianValue (target.drop i) := by
  induction n generalizing i with
  | zero =>
      rw [List.drop_of_length_le (by omega), List.drop_of_length_le (by omega)]
      exact ⟨fun _ => Nat.le_refl _, fun _ => rfl⟩
  | succ n ih =>
      have inHash : i < hash.length := by omega
      have inTarget : i < target.length := by omega
      have rest : (hash.drop (i + 1)).length = (target.drop (i + 1)).length := by
        simp only [List.length_drop]
        omega
      simp only [checkDifficultyFrom, List.getD_eq_getElem _ _ inHash,
        List.getD_eq_getElem _ _ inTarget, List.drop_eq_getElem_cons inHash,
        List.drop_eq_getElem_cons inTarget]
      by_cases lt : hash[i] < target[i]
      · simp only [if_pos lt, true_iff]
        exact Nat.le_of_lt (bigEndianValue_cons_lt lt rest)
      · by_cases gt : hash[i] > target[i]
        · simp only [if_neg lt, if_pos gt, Bool.false_eq_true, false_iff, Nat.not_le]
          exact bigEndianValue_cons_lt gt rest.symm
        · have eq : hash[i] = target[i] := UInt8.toNat.inj (by
            have : ¬ hash[i].toNat < target[i].toNat := lt
            have : ¬ target[i].toNat < hash[i].toNat := gt
            omega)
          rw [if_neg lt, if_neg gt, eq, bigEndianValue_cons_le_cons_iff rest]
          exact ih (i := i + 1) (by omega) (by omega)

/-- For all 32-byte `hash` and `target`, `checkDifficulty` returns true exactly when the
big-endian integer of `hash` is at most that of `target`. -/
theorem checkDifficulty_iff {hash target : List UInt8} (hashLen : hash.length = 32)
    (targetLen : target.length = 32) :
    checkDifficulty hash target = true ↔ bigEndianValue hash ≤ bigEndianValue target :=
  checkDifficultyFrom_iff hashLen targetLen

theorem checkDifficulty_iff_ones :
    (List.replicate 32 1).length = 32 ∧ (List.replicate 31 1 ++ [2]).length = 32 ∧
      (checkDifficulty (List.replicate 32 1) (List.replicate 31 1 ++ [2]) = true ↔
        bigEndianValue (List.replicate 32 1) ≤ bigEndianValue (List.replicate 31 1 ++ [2])) :=
  ⟨rfl, rfl, checkDifficulty_iff rfl rfl⟩

end Mining.Blake3DCR
