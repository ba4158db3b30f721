import Mathlib.Data.List.Basic
import Mathlib.Algebra.Group.Nat.Basic
import Mathlib.Data.List.GetD

/-!
# The BLAKE3 compression function

The portable compression core of `3rdparty/blake3/blake3.c`: the constants of
`blake3.h`, little-endian word loads and stores, the quarter round `g`, the
round function over the fixed message schedule, and the two output forms
`compress_in_place` (a new chaining value) and `compress_xof` (a 64-byte wide
block).

Words are `UInt32`, so the ARX arithmetic wraps exactly as the C code's
`uint32_t` arithmetic. The message is a list indexed as the C array is; the
16-word state is a record of named words, which the quarter round updates four
at a time. The layers above use this module only through the output
lengths proved here; no proof about the hasher unfolds a compression.
-/

namespace Mining.Blake3

/-! ## Constants of `blake3.h` -/

/-- `BLAKE3_KEY_LEN`. -/
def blake3KeyLen : Nat := 32

/-- `BLAKE3_OUT_LEN`. -/
def blake3OutLen : Nat := 32

/-- `BLAKE3_BLOCK_LEN`. -/
def blake3BlockLen : Nat := 64

/-- `BLAKE3_CHUNK_LEN`. -/
def blake3ChunkLen : Nat := 1024

/-- `BLAKE3_MAX_DEPTH`: the CV stack has `BLAKE3_MAX_DEPTH + 1` entries. -/
def blake3MaxDepth : Nat := 54

/-! The domain-separation bits of `enum blake3_flags`. -/

namespace Flags

def chunkStart : UInt8 := 1
def chunkEnd : UInt8 := 2
def parent : UInt8 := 4
def root : UInt8 := 8
def keyedHash : UInt8 := 16
def deriveKeyContext : UInt8 := 32
def deriveKeyMaterial : UInt8 := 64

end Flags

/-- `IV`, the BLAKE2s initial vector. -/
def iv : List UInt32 :=
  [0x6A09E667, 0xBB67AE85, 0x3C6EF372, 0xA54FF53A,
   0x510E527F, 0x9B05688C, 0x1F83D9AB, 0x5BE0CD19]

/-- `MSG_SCHEDULE`: which message words feed each round. -/
def msgSchedule : List (List Nat) :=
  [[0, 1, 2, 3, 4, 5, 6, 7, 8, 9, 10, 11, 12, 13, 14, 15],
   [2, 6, 3, 10, 7, 0, 4, 13, 1, 11, 12, 5, 9, 14, 15, 8],
   [3, 4, 10, 12, 13, 2, 7, 14, 6, 5, 9, 0, 11, 15, 8, 1],
   [10, 7, 12, 9, 14, 3, 13, 15, 4, 0, 11, 2, 5, 8, 1, 6],
   [12, 13, 9, 11, 15, 10, 14, 8, 7, 2, 5, 3, 0, 1, 6, 4],
   [9, 14, 11, 5, 8, 12, 15, 1, 13, 3, 0, 10, 2, 6, 4, 7],
   [11, 15, 5, 0, 1, 9, 8, 6, 14, 10, 2, 12, 3, 4, 7, 13]]

/-! ## Words and bytes -/

/-- `load32_le`: the little-endian word at the head of `src`. -/
def load32Le (src : List UInt8) : UInt32 :=
  (src.getD 0 0).toUInt32 ||| ((src.getD 1 0).toUInt32 <<< 8) |||
    ((src.getD 2 0).toUInt32 <<< 16) ||| ((src.getD 3 0).toUInt32 <<< 24)

/-- `store32_le`: the four little-endian bytes of a word. -/
def store32Le (w : UInt32) : List UInt8 :=
  [w.toUInt8, (w >>> 8).toUInt8, (w >>> 16).toUInt8, (w >>> 24).toUInt8]

/-- The `for (i < n) store32_le(&out[4 * i], w[i])` loops: words laid out as bytes. -/
def storeWords (ws : List UInt32) : List UInt8 := ws.flatMap store32Le

/-- The `for (i < 8) w[i] = load32_le(bytes + 4 * i)` loops: a key or chaining value
read back as words. -/
def loadWords (bytes : List UInt8) : List UInt32 :=
  (List.range 8).map fun i => load32Le (bytes.drop (4 * i))

/-- `rotr32`. -/
def rotr32 (w c : UInt32) : UInt32 := (w >>> c) ||| (w <<< (32 - c))

@[simp] theorem length_store32Le (w : UInt32) : (store32Le w).length = 4 := rfl

@[simp] theorem length_storeWords (ws : List UInt32) : (storeWords ws).length = 4 * ws.length := by
  induction ws with
  | nil => rfl
  | cons w ws ih =>
      simp only [storeWords, List.flatMap, List.map_cons, List.flatten_cons, List.length_append,
        length_store32Le, List.length_cons] at ih ⊢
      omega

@[simp] theorem length_loadWords (bytes : List UInt8) : (loadWords bytes).length = 8 := by
  simp [loadWords]

/-! ## Rounds -/

/-- The 16-word `state` array of `compress_pre`: `s0` is `state[0]`, and so on. -/
structure CompressState where
  (s0 s1 s2 s3 s4 s5 s6 s7 s8 s9 s10 s11 s12 s13 s14 s15 : UInt32)
  deriving DecidableEq, Repr

/-- The quarter round `g` on the words `state[a], state[b], state[c], state[d]` it reads and
writes, with message words `x y`. The four indices differ at every call in `round_fn`, so
reading the words first and writing them back last is the C code's in-place update. -/
def g (a b c d x y : UInt32) : UInt32 × UInt32 × UInt32 × UInt32 :=
  let a := a + b + x
  let d := rotr32 (d ^^^ a) 16
  let c := c + d
  let b := rotr32 (b ^^^ c) 12
  let a := a + b + y
  let d := rotr32 (d ^^^ a) 8
  let c := c + d
  let b := rotr32 (b ^^^ c) 7
  (a, b, c, d)

/-- `round_fn`: four column steps, then four diagonal steps. -/
def roundFn (state : CompressState) (msg : List UInt32) (round : Nat) : CompressState :=
  let schedule := msgSchedule.getD round []
  let m := fun i => msg.getD (schedule.getD i 0) 0
  let ⟨s0, s1, s2, s3, s4, s5, s6, s7, s8, s9, s10, s11, s12, s13, s14, s15⟩ := state
  let (s0, s4, s8, s12) := g s0 s4 s8 s12 (m 0) (m 1)
  let (s1, s5, s9, s13) := g s1 s5 s9 s13 (m 2) (m 3)
  let (s2, s6, s10, s14) := g s2 s6 s10 s14 (m 4) (m 5)
  let (s3, s7, s11, s15) := g s3 s7 s11 s15 (m 6) (m 7)
  let (s0, s5, s10, s15) := g s0 s5 s10 s15 (m 8) (m 9)
  let (s1, s6, s11, s12) := g s1 s6 s11 s12 (m 10) (m 11)
  let (s2, s7, s8, s13) := g s2 s7 s8 s13 (m 12) (m 13)
  let (s3, s4, s9, s14) := g s3 s4 s9 s14 (m 14) (m 15)
  ⟨s0, s1, s2, s3, s4, s5, s6, s7, s8, s9, s10, s11, s12, s13, s14, s15⟩

/-- `compress_pre`: load the block as 16 words, build the state from the chaining value,
`IV[0..3]`, the 64-bit counter, the block length and the flags, and run seven rounds. -/
def compressPre (cv : List UInt32) (block : List UInt8) (blockLen : UInt8) (counter : Nat)
    (flags : UInt8) : CompressState :=
  let msg := (List.range 16).map fun i => load32Le (block.drop (4 * i))
  let c := fun i => cv.getD i 0
  let state : CompressState :=
    ⟨c 0, c 1, c 2, c 3, c 4, c 5, c 6, c 7, iv.getD 0 0, iv.getD 1 0, iv.getD 2 0, iv.getD 3 0,
      UInt32.ofNat counter, UInt32.ofNat (counter >>> 32), blockLen.toUInt32, flags.toUInt32⟩
  (List.range 7).foldl (fun state round => roundFn state msg round) state

/-- `compress_in_place`: the new chaining value `state[i] ^ state[i + 8]`. -/
def compressInPlace (cv : List UInt32) (block : List UInt8) (blockLen : UInt8) (counter : Nat)
    (flags : UInt8) : List UInt32 :=
  let s := compressPre cv block blockLen counter flags
  [s.s0 ^^^ s.s8, s.s1 ^^^ s.s9, s.s2 ^^^ s.s10, s.s3 ^^^ s.s11,
    s.s4 ^^^ s.s12, s.s5 ^^^ s.s13, s.s6 ^^^ s.s14, s.s7 ^^^ s.s15]

/-- `compress_xof`: the 64-byte wide output; its first 32 bytes are the chaining value of
`compress_in_place`, its last 32 bytes `state[i + 8] ^ cv[i]`. -/
def compressXof (cv : List UInt32) (block : List UInt8) (blockLen : UInt8) (counter : Nat)
    (flags : UInt8) : List UInt8 :=
  let s := compressPre cv block blockLen counter flags
  let c := fun i => cv.getD i 0
  storeWords [s.s0 ^^^ s.s8, s.s1 ^^^ s.s9, s.s2 ^^^ s.s10, s.s3 ^^^ s.s11,
      s.s4 ^^^ s.s12, s.s5 ^^^ s.s13, s.s6 ^^^ s.s14, s.s7 ^^^ s.s15] ++
    storeWords [s.s8 ^^^ c 0, s.s9 ^^^ c 1, s.s10 ^^^ c 2, s.s11 ^^^ c 3,
      s.s12 ^^^ c 4, s.s13 ^^^ c 5, s.s14 ^^^ c 6, s.s15 ^^^ c 7]

@[simp] theorem length_compressInPlace (cv : List UInt32) (block : List UInt8) (blockLen : UInt8)
    (counter : Nat) (flags : UInt8) : (compressInPlace cv block blockLen counter flags).length = 8 := by
  simp [compressInPlace]

@[simp] theorem length_compressXof (cv : List UInt32) (block : List UInt8) (blockLen : UInt8)
    (counter : Nat) (flags : UInt8) : (compressXof cv block blockLen counter flags).length = 64 := by
  simp [compressXof]

/-- The wide output begins with the in-place chaining value: `chunk_state_output` and the
root of `blake3_hasher_finalize_seek` both rely on this. -/
theorem take_compressXof (cv : List UInt32) (block : List UInt8) (blockLen : UInt8)
    (counter : Nat) (flags : UInt8) :
    (compressXof cv block blockLen counter flags).take 32 =
      storeWords (compressInPlace cv block blockLen counter flags) := by
  unfold compressXof compressInPlace
  exact List.take_left' (by simp)

end Mining.Blake3
