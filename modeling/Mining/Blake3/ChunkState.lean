import Mining.Blake3.Compress

/-!
# Chunk state

`blake3_chunk_state` and the `chunk_state_*` functions of `blake3.c`, as the C code
computes them: `chunk_state_update` first tops up a partial buffer (and compresses it
when more input follows), then compresses every 64-byte window that is followed by more
input straight from the input, and buffers what is left.

The buffer is the whole 64-byte `buf` array, not only its live prefix, so that bytes
past `buf_len` are part of the state. `memcpyAt` is a `memcpy` into the middle of such
an array. `buf_len` and `blocks_compressed` are `uint8_t` in C and `Nat` here: the
invariants of `Mining.Blake3.Reachable` keep them at most 64 and 15, where the two agree.
-/

namespace Mining.Blake3

/-- `blake3_chunk_state`. -/
@[ext] structure ChunkState where
  cv : List UInt32
  chunkCounter : Nat
  buf : List UInt8
  bufLen : Nat
  blocksCompressed : Nat
  flags : UInt8
  deriving DecidableEq, Repr

/-- `memcpy(dst + off, src, src_len)`: `src` written over `dst` from index `off` on. -/
def memcpyAt (dst : List UInt8) (off : Nat) (src : List UInt8) : List UInt8 :=
  dst.take off ++ src ++ dst.drop (off + src.length)

/-- `chunk_state_init`: the key as chaining value, counter 0, a zeroed buffer. -/
def chunkStateInit (key : List UInt32) (flags : UInt8) : ChunkState where
  cv := key
  chunkCounter := 0
  buf := List.replicate blake3BlockLen 0
  bufLen := 0
  blocksCompressed := 0
  flags := flags

/-- `chunk_state_len`: the bytes absorbed into the current chunk. -/
def chunkStateLen (self : ChunkState) : Nat :=
  blake3BlockLen * self.blocksCompressed + self.bufLen

/-- `chunk_state_fill_buf`: copy as much input as fits into the buffer; returns the new
state and the number of bytes taken. -/
def chunkStateFillBuf (self : ChunkState) (input : List UInt8) : ChunkState × Nat :=
  let take := min (blake3BlockLen - self.bufLen) input.length
  ({ self with
      buf := memcpyAt self.buf self.bufLen (input.take take)
      bufLen := self.bufLen + take }, take)

/-- `chunk_state_maybe_start_flag`: `CHUNK_START` while no block has been compressed. -/
def chunkStateMaybeStartFlag (self : ChunkState) : UInt8 :=
  if self.blocksCompressed = 0 then Flags.chunkStart else 0

/-- One non-final block compressed into the chaining value: the body shared by the two
`compress_in_place` calls of `chunk_state_update`. -/
def chunkStateCompressBlock (self : ChunkState) (block : List UInt8) : ChunkState :=
  { self with
    cv := compressInPlace self.cv block 64 self.chunkCounter
      (self.flags ||| chunkStateMaybeStartFlag self)
    blocksCompressed := self.blocksCompressed + 1 }

/-- The full buffer compressed, then `buf_len = 0` and `memset(buf, 0, 64)`. -/
def chunkStateFlushBuf (self : ChunkState) : ChunkState :=
  { chunkStateCompressBlock self self.buf with
    bufLen := 0
    buf := List.replicate blake3BlockLen 0 }

/-- The `while (input_len > BLAKE3_BLOCK_LEN)` loop of `chunk_state_update`: each window
followed by more input is compressed straight from the input; returns the state and the
input left over. -/
def chunkStateCompressWhole (self : ChunkState) (input : List UInt8) :
    ChunkState × List UInt8 :=
  if blake3BlockLen < input.length then
    chunkStateCompressWhole (chunkStateCompressBlock self (input.take blake3BlockLen))
      (input.drop blake3BlockLen)
  else (self, input)
termination_by input.length
decreasing_by simp only [List.length_drop, blake3BlockLen] at *; omega

/-- `chunk_state_update`. -/
def chunkStateUpdate (self : ChunkState) (input : List UInt8) : ChunkState :=
  let (self, input) :=
    if 0 < self.bufLen then
      let (self, take) := chunkStateFillBuf self input
      let input := input.drop take
      if 0 < input.length then (chunkStateFlushBuf self, input) else (self, input)
    else (self, input)
  let (self, input) := chunkStateCompressWhole self input
  (chunkStateFillBuf self input).1

/-- `chunk_state_output`: the first 32 bytes of the wide compression of the buffered last
block, with `CHUNK_END` (and `CHUNK_START` if it is the chunk's only block). -/
def chunkStateOutput (self : ChunkState) : List UInt8 :=
  let blockFlags := self.flags ||| chunkStateMaybeStartFlag self ||| Flags.chunkEnd
  (compressXof self.cv self.buf self.bufLen.toUInt8 self.chunkCounter blockFlags).take
    blake3OutLen

/-! ## Field lemmas -/

@[simp] theorem chunkStateInit_chunkCounter (key : List UInt32) (flags : UInt8) :
    (chunkStateInit key flags).chunkCounter = 0 := rfl

@[simp] theorem chunkStateInit_flags (key : List UInt32) (flags : UInt8) :
    (chunkStateInit key flags).flags = flags := rfl

@[simp] theorem chunkStateInit_bufLen (key : List UInt32) (flags : UInt8) :
    (chunkStateInit key flags).bufLen = 0 := rfl

@[simp] theorem chunkStateInit_blocksCompressed (key : List UInt32) (flags : UInt8) :
    (chunkStateInit key flags).blocksCompressed = 0 := rfl

@[simp] theorem chunkStateCompressBlock_chunkCounter (self : ChunkState) (block : List UInt8) :
    (chunkStateCompressBlock self block).chunkCounter = self.chunkCounter := rfl

@[simp] theorem chunkStateCompressBlock_flags (self : ChunkState) (block : List UInt8) :
    (chunkStateCompressBlock self block).flags = self.flags := rfl

@[simp] theorem chunkStateCompressBlock_buf (self : ChunkState) (block : List UInt8) :
    (chunkStateCompressBlock self block).buf = self.buf := rfl

@[simp] theorem chunkStateCompressBlock_bufLen (self : ChunkState) (block : List UInt8) :
    (chunkStateCompressBlock self block).bufLen = self.bufLen := rfl

@[simp] theorem chunkStateCompressBlock_blocksCompressed (self : ChunkState) (block : List UInt8) :
    (chunkStateCompressBlock self block).blocksCompressed = self.blocksCompressed + 1 := rfl

@[simp] theorem length_chunkStateOutput (self : ChunkState) :
    (chunkStateOutput self).length = blake3OutLen := by
  simp only [chunkStateOutput, List.length_take, length_compressXof]
  rfl

theorem length_memcpyAt {dst : List UInt8} {off : Nat} {src : List UInt8}
    (fits : off + src.length ≤ dst.length) : (memcpyAt dst off src).length = dst.length := by
  simp only [memcpyAt, List.length_append, List.length_take, List.length_drop]
  omega

/-- Two adjacent copies are one copy of the concatenation. -/
theorem memcpyAt_memcpyAt {dst : List UInt8} {off : Nat} {xs ys : List UInt8}
    (fits : off + xs.length ≤ dst.length) :
    memcpyAt (memcpyAt dst off xs) (off + xs.length) ys = memcpyAt dst off (xs ++ ys) := by
  have front : (dst.take off ++ xs).length = off + xs.length := by
    simp only [List.length_append, List.length_take]
    omega
  unfold memcpyAt
  rw [List.take_left' front, ← front, List.drop_append, List.drop_drop, front]
  simp only [List.append_assoc, List.length_append, Nat.add_assoc]

end Mining.Blake3
