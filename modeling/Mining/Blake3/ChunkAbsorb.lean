import Mining.Blake3.ChunkState

/-!
# The chunk state, one byte at a time

`chunk_state_update` handles its input in three phases with two ways of compressing a
block. This module states what it does in one rule, `chunkStateAbsorb`: a byte that
finds the buffer full first compresses the buffer, then is written at `buf_len`. So a
block is compressed only once the byte after it arrives, and the last block of a chunk
stays buffered for `chunk_state_output`.

`chunkStateUpdate_eq_foldl` shows that `chunk_state_update` on any input is this rule
folded over the input's bytes, from every well-formed state (`ChunkState.Wf`: a 64-byte
buffer, at most 64 live bytes, zeros past them). The zero tail is what makes the direct
compression of input windows agree with buffering them: after such a window the C code
leaves the buffer untouched, the byte rule leaves it zeroed.
-/

namespace Mining.Blake3

/-- Write one byte at `buf_len`. -/
def chunkStateWrite (self : ChunkState) (b : UInt8) : ChunkState :=
  { self with buf := memcpyAt self.buf self.bufLen [b], bufLen := self.bufLen + 1 }

/-- Absorb one byte: a full buffer is compressed first, then the byte is written. -/
def chunkStateAbsorb (self : ChunkState) (b : UInt8) : ChunkState :=
  chunkStateWrite (if self.bufLen = blake3BlockLen then chunkStateFlushBuf self else self) b

/-- A 64-byte buffer, at most 64 live bytes, and zeros past them. -/
structure ChunkState.Wf (s : ChunkState) : Prop where
  length_buf : s.buf.length = blake3BlockLen
  bufLen_le : s.bufLen ≤ blake3BlockLen
  buf_tail : s.buf.drop s.bufLen = List.replicate (blake3BlockLen - s.bufLen) 0

/-! ## One byte -/

@[simp] theorem chunkStateWrite_bufLen (self : ChunkState) (b : UInt8) :
    (chunkStateWrite self b).bufLen = self.bufLen + 1 := rfl

@[simp] theorem chunkStateWrite_blocksCompressed (self : ChunkState) (b : UInt8) :
    (chunkStateWrite self b).blocksCompressed = self.blocksCompressed := rfl

@[simp] theorem chunkStateWrite_chunkCounter (self : ChunkState) (b : UInt8) :
    (chunkStateWrite self b).chunkCounter = self.chunkCounter := rfl

@[simp] theorem chunkStateWrite_flags (self : ChunkState) (b : UInt8) :
    (chunkStateWrite self b).flags = self.flags := rfl

@[simp] theorem chunkStateAbsorb_chunkCounter (self : ChunkState) (b : UInt8) :
    (chunkStateAbsorb self b).chunkCounter = self.chunkCounter := by
  unfold chunkStateAbsorb
  split <;> rfl

@[simp] theorem chunkStateAbsorb_flags (self : ChunkState) (b : UInt8) :
    (chunkStateAbsorb self b).flags = self.flags := by
  unfold chunkStateAbsorb
  split <;> rfl

theorem chunkStateAbsorb_of_ne {self : ChunkState} (room : self.bufLen ≠ blake3BlockLen)
    (b : UInt8) : chunkStateAbsorb self b = chunkStateWrite self b := by
  simp only [chunkStateAbsorb, if_neg room]

theorem chunkStateAbsorb_of_full {self : ChunkState} (full : self.bufLen = blake3BlockLen)
    (b : UInt8) : chunkStateAbsorb self b = chunkStateWrite (chunkStateFlushBuf self) b := by
  simp only [chunkStateAbsorb, if_pos full]

/-- The fields a byte changes: a full buffer becomes one more compressed block. -/
theorem chunkStateAbsorb_fields (self : ChunkState) (b : UInt8) :
    (self.bufLen = blake3BlockLen →
        (chunkStateAbsorb self b).bufLen = 1 ∧
          (chunkStateAbsorb self b).blocksCompressed = self.blocksCompressed + 1) ∧
      (self.bufLen ≠ blake3BlockLen →
        (chunkStateAbsorb self b).bufLen = self.bufLen + 1 ∧
          (chunkStateAbsorb self b).blocksCompressed = self.blocksCompressed) := by
  by_cases full : self.bufLen = blake3BlockLen
  · simp [chunkStateAbsorb_of_full full, chunkStateFlushBuf, full]
  · simp [chunkStateAbsorb_of_ne full, full]

/-- A byte adds one to `chunk_state_len`. -/
theorem chunkStateLen_chunkStateAbsorb (self : ChunkState) (b : UInt8) : chunkStateLen (chunkStateAbsorb self b) = chunkStateLen self + 1 := by
  obtain ⟨full, room⟩ := chunkStateAbsorb_fields self b
  simp only [chunkStateLen, blake3BlockLen] at *
  by_cases h : self.bufLen = 64
  · obtain ⟨h1, h2⟩ := full h
    rw [h1, h2]
    omega
  · obtain ⟨h1, h2⟩ := room h
    rw [h1, h2]
    omega

theorem chunkStateLen_foldl (self : ChunkState) (input : List UInt8) :
    chunkStateLen (input.foldl chunkStateAbsorb self) = chunkStateLen self + input.length := by
  induction input generalizing self with
  | nil => rfl
  | cons b input ih =>
      rw [List.foldl_cons, ih, chunkStateLen_chunkStateAbsorb, List.length_cons]
      omega

theorem ChunkState.Wf.chunkStateInit (key : List UInt32) (flags : UInt8) :
    (chunkStateInit key flags).Wf :=
  ⟨by simp [Mining.Blake3.chunkStateInit], by simp [Mining.Blake3.chunkStateInit],
    by simp [Mining.Blake3.chunkStateInit]⟩

theorem ChunkState.Wf.chunkStateWrite {s : ChunkState} (wf : s.Wf)
    (room : s.bufLen < blake3BlockLen) (b : UInt8) : (Mining.Blake3.chunkStateWrite s b).Wf := by
  obtain ⟨hlen, -, htail⟩ := wf
  have fits : s.bufLen + [b].length ≤ s.buf.length := by
    simp only [List.length_singleton]
    omega
  have front : (s.buf.take s.bufLen ++ [b]).length = s.bufLen + 1 := by
    simp only [List.length_append, List.length_take, List.length_singleton]
    omega
  refine ⟨?_, ?_, ?_⟩
  · simp only [Mining.Blake3.chunkStateWrite, length_memcpyAt fits, hlen]
  · simp only [Mining.Blake3.chunkStateWrite]
    omega
  · simp only [Mining.Blake3.chunkStateWrite, memcpyAt, List.length_singleton]
    rw [← front, List.drop_left' rfl, front, ← List.drop_drop, htail, List.drop_replicate]
    rfl

theorem ChunkState.Wf.chunkStateFlushBuf (s : ChunkState) :
    (Mining.Blake3.chunkStateFlushBuf s).Wf :=
  ⟨by simp [Mining.Blake3.chunkStateFlushBuf], by simp [Mining.Blake3.chunkStateFlushBuf],
    by simp [Mining.Blake3.chunkStateFlushBuf]⟩

theorem ChunkState.Wf.chunkStateAbsorb {s : ChunkState} (wf : s.Wf) (b : UInt8) :
    (Mining.Blake3.chunkStateAbsorb s b).Wf := by
  by_cases full : s.bufLen = blake3BlockLen
  · rw [chunkStateAbsorb_of_full full]
    exact (ChunkState.Wf.chunkStateFlushBuf s).chunkStateWrite (by
      simp [Mining.Blake3.chunkStateFlushBuf, blake3BlockLen]) b
  · rw [chunkStateAbsorb_of_ne full]
    exact wf.chunkStateWrite (Nat.lt_of_le_of_ne wf.bufLen_le full) b

theorem ChunkState.Wf.foldl {s : ChunkState} (wf : s.Wf) (input : List UInt8) :
    (input.foldl Mining.Blake3.chunkStateAbsorb s).Wf := by
  induction input generalizing s with
  | nil => exact wf
  | cons b input ih => exact ih (wf.chunkStateAbsorb b)

/-! ## Bytes that fit in the buffer -/

/-- Bytes that fit in the buffer are one `memcpy` at `buf_len`. -/
theorem foldl_chunkStateAbsorb_of_fits {s : ChunkState} {input : List UInt8}
    (hlen : s.buf.length = blake3BlockLen) (fits : s.bufLen + input.length ≤ blake3BlockLen) :
    input.foldl chunkStateAbsorb s =
      { s with buf := memcpyAt s.buf s.bufLen input, bufLen := s.bufLen + input.length } := by
  induction input generalizing s with
  | nil => simp [memcpyAt, hlen]
  | cons b input ih =>
      simp only [List.length_cons] at fits
      have len1 : s.bufLen + [b].length ≤ s.buf.length := by
        simp only [List.length_singleton]
        omega
      have step := @memcpyAt_memcpyAt s.buf s.bufLen [b] input len1
      simp only [List.length_singleton, List.singleton_append] at step
      rw [List.foldl_cons, chunkStateAbsorb_of_ne (by omega), ih (by
        simp only [chunkStateWrite, length_memcpyAt len1, hlen]) (by
        simp only [chunkStateWrite_bufLen]; omega)]
      simp only [chunkStateWrite, step, List.length_cons]
      congr 1
      omega

/-- `chunk_state_fill_buf` absorbs the bytes it takes. -/
theorem chunkStateFillBuf_eq_foldl {s : ChunkState} (wf : s.Wf) (input : List UInt8) :
    (chunkStateFillBuf s input).1 =
      (input.take (chunkStateFillBuf s input).2).foldl chunkStateAbsorb s := by
  have := wf.bufLen_le
  rw [foldl_chunkStateAbsorb_of_fits wf.length_buf (by
    simp only [chunkStateFillBuf, List.length_take]; omega)]
  simp only [chunkStateFillBuf, List.length_take]
  congr 2
  omega

/-! ## Whole blocks straight from the input -/

/-- From an empty buffer, a block followed by more input is compressed as it stands. -/
theorem foldl_chunkStateAbsorb_block {s : ChunkState} (wf : s.Wf) (empty : s.bufLen = 0)
    {block rest : List UInt8} (width : block.length = blake3BlockLen) (more : rest ≠ []) :
    (block ++ rest).foldl chunkStateAbsorb s =
      rest.foldl chunkStateAbsorb (chunkStateCompressBlock s block) := by
  obtain ⟨r, rest, rfl⟩ := List.exists_cons_of_ne_nil more
  have zeros : s.buf = List.replicate blake3BlockLen 0 := by
    simpa [empty] using wf.buf_tail
  have filled : block.foldl chunkStateAbsorb s = { s with buf := block, bufLen := blake3BlockLen } := by
    rw [foldl_chunkStateAbsorb_of_fits wf.length_buf (by omega)]
    simp [memcpyAt, zeros, empty, width]
  have flushed : chunkStateFlushBuf { s with buf := block, bufLen := blake3BlockLen } =
      chunkStateCompressBlock s block := by
    ext <;> simp [chunkStateFlushBuf, chunkStateCompressBlock, chunkStateMaybeStartFlag, zeros,
      empty]
  rw [List.foldl_append, filled, List.foldl_cons, List.foldl_cons, chunkStateAbsorb_of_full rfl,
    flushed, chunkStateAbsorb_of_ne (by simp [empty, blake3BlockLen])]

theorem chunkStateCompressWhole_buf (s : ChunkState) (input : List UInt8) :
    (chunkStateCompressWhole s input).1.buf = s.buf ∧
      (chunkStateCompressWhole s input).1.bufLen = s.bufLen := by
  induction s, input using chunkStateCompressWhole.induct with
  | case1 s input more ih =>
      rw [chunkStateCompressWhole, if_pos more]
      exact ih
  | case2 s input last =>
      rw [chunkStateCompressWhole, if_neg last]
      exact ⟨rfl, rfl⟩

/-- The loop leaves a last piece of one to 64 bytes of a non-empty input. -/
theorem chunkStateCompressWhole_rest (s : ChunkState) (input : List UInt8) :
    (chunkStateCompressWhole s input).2.length ≤ blake3BlockLen ∧
      (input ≠ [] → (chunkStateCompressWhole s input).2 ≠ []) := by
  induction s, input using chunkStateCompressWhole.induct with
  | case1 s input more ih =>
      rw [chunkStateCompressWhole, if_pos more]
      exact ⟨ih.1, fun _ => ih.2 (List.ne_nil_of_length_pos (by
        simp only [List.length_drop, blake3BlockLen] at *; omega))⟩
  | case2 s input last =>
      rw [chunkStateCompressWhole, if_neg last]
      exact ⟨Nat.le_of_not_lt last, id⟩

/-- From an empty zeroed buffer, the loop compresses exactly what the byte rule does. -/
theorem foldl_chunkStateCompressWhole {s : ChunkState} (wf : s.Wf) (empty : s.bufLen = 0)
    (input : List UInt8) :
    input.foldl chunkStateAbsorb s =
      (chunkStateCompressWhole s input).2.foldl chunkStateAbsorb (chunkStateCompressWhole s input).1 := by
  induction s, input using chunkStateCompressWhole.induct with
  | case1 s input more ih =>
      have width : (input.take blake3BlockLen).length = blake3BlockLen := by
        simp only [List.length_take]; omega
      have wf' : (chunkStateCompressBlock s (input.take blake3BlockLen)).Wf :=
        ⟨wf.length_buf, wf.bufLen_le, wf.buf_tail⟩
      have block : (input.take blake3BlockLen ++ input.drop blake3BlockLen).foldl
          chunkStateAbsorb s = (input.drop blake3BlockLen).foldl chunkStateAbsorb
            (chunkStateCompressBlock s (input.take blake3BlockLen)) :=
        foldl_chunkStateAbsorb_block wf empty width
          (List.ne_nil_of_length_pos (by simp only [List.length_drop]; omega))
      rw [List.take_append_drop] at block
      rw [chunkStateCompressWhole, if_pos more, ← ih wf' empty, block]
  | case2 s input last =>
      rw [chunkStateCompressWhole, if_neg last]

/-! ## `chunk_state_update` -/

@[simp] theorem chunkStateFillBuf_nil (s : ChunkState) : (chunkStateFillBuf s []).1 = s := by
  simp [chunkStateFillBuf, memcpyAt]

@[simp] theorem chunkStateCompressWhole_nil (s : ChunkState) : chunkStateCompressWhole s [] = (s, []) := by
  rw [chunkStateCompressWhole, if_neg (by simp)]

/-- From an empty zeroed buffer, the loop and the last `chunk_state_fill_buf` absorb the
whole input. -/
theorem chunkStateFillBuf_chunkStateCompressWhole {s : ChunkState} (wf : s.Wf)
    (empty : s.bufLen = 0) (input : List UInt8) :
    (chunkStateFillBuf (chunkStateCompressWhole s input).1 (chunkStateCompressWhole s input).2).1 =
      input.foldl chunkStateAbsorb s := by
  obtain ⟨buf, bufLen⟩ := chunkStateCompressWhole_buf s input
  have wf' : (chunkStateCompressWhole s input).1.Wf :=
    ⟨buf ▸ wf.length_buf, bufLen ▸ wf.bufLen_le, by rw [buf, bufLen]; exact wf.buf_tail⟩
  have short := (chunkStateCompressWhole_rest s input).1
  rw [foldl_chunkStateCompressWhole wf empty, chunkStateFillBuf_eq_foldl wf',
    List.take_of_length_le (by simp only [chunkStateFillBuf, bufLen, empty]; omega)]

/-- `chunk_state_update` is the byte rule folded over its input. -/
theorem chunkStateUpdate_eq_foldl {s : ChunkState} (wf : s.Wf) (input : List UInt8) :
    chunkStateUpdate s input = input.foldl chunkStateAbsorb s := by
  by_cases topUp : 0 < s.bufLen
  · rcases fill : chunkStateFillBuf s input with ⟨s1, take⟩
    have filled : s1 = (chunkStateFillBuf s input).1 := by rw [fill]
    have whole : input.foldl chunkStateAbsorb s = (input.drop take).foldl chunkStateAbsorb s1 := by
      have absorbed : s1 = (input.take take).foldl chunkStateAbsorb s := by
        have := chunkStateFillBuf_eq_foldl wf input
        rwa [fill] at this
      rw [absorbed, ← List.foldl_append, List.take_append_drop]
    simp only [chunkStateUpdate, if_pos topUp, fill]
    by_cases more : 0 < (input.drop take).length
    · have taken : take = min (blake3BlockLen - s.bufLen) input.length :=
        (congrArg Prod.snd fill).symm
      have full : s1.bufLen = blake3BlockLen := by
        rw [filled]
        simp only [chunkStateFillBuf, List.length_drop] at more ⊢
        have := wf.bufLen_le
        omega
      obtain ⟨r, rest, hrest⟩ := List.exists_cons_of_length_pos more
      rw [if_pos more, chunkStateFillBuf_chunkStateCompressWhole
        (ChunkState.Wf.chunkStateFlushBuf s1) rfl, whole, hrest, List.foldl_cons,
        List.foldl_cons, chunkStateAbsorb_of_full full,
        chunkStateAbsorb_of_ne (by simp [chunkStateFlushBuf, blake3BlockLen])]
    · have rest : input.drop take = [] := List.eq_nil_of_length_eq_zero (by omega)
      rw [if_neg more, whole, rest]
      simp
  · simp only [chunkStateUpdate, if_neg topUp]
    exact chunkStateFillBuf_chunkStateCompressWhole wf (by omega) input

end Mining.Blake3
