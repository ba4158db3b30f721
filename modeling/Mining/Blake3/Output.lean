import Mining.Blake3.Tree

/-!
# Seekable output

`blake3_hasher_finalize_seek(self, seek, out, out_len)` has two branches.

With an empty stack (at most one chunk absorbed) the chunk's last block is the root, and the
branch writes `out_len` bytes of the root's output stream from byte `seek` on: the first
wide compression starts at offset `seek % 64` of output block `seek / 64`, each later one
at the next counter. `finalizeSeek_of_empty_stack` shows it is one stream, read at any
offset: byte `p` is byte `p % 64` of the wide compression at counter `p / 64`. From a
fresh hasher in any mode that stream is the BLAKE3 extended output of the input
(`finalizeSeek_eq_specXof`).

With a nonempty stack the branch folds the stack onto the chunk's chaining value and copies
the first `min(out_len, 32)` bytes of the root's chaining value to `out`, whatever `seek`
is. `finalizeSeek_of_nonempty_stack` states it on the caller's buffer: the bytes are those
at `[0, min(out_len, 32))` of the root parent's output stream, and from byte 32 on `out`
keeps what it held.
-/

namespace Mining.Blake3

/-! ## Output streams -/

/-- Byte `p` of a node's BLAKE3 extended output, byte `p mod 64` of the wide compression of
its block at output block counter `⌊p/64⌋`. -/
def outputStreamByte (cv : List UInt32) (block : List UInt8) (blockLen flags : UInt8)
    (p : Nat) : UInt8 :=
  (compressXof cv block blockLen (p / 64) flags).getD (p % 64) 0

/-- The flags of the one-chunk root: `chunk.flags | maybe_start | CHUNK_END | ROOT`. -/
def rootChunkFlags (chunk : ChunkState) : UInt8 :=
  chunk.flags ||| chunkStateMaybeStartFlag chunk ||| Flags.chunkEnd ||| Flags.root

/-- The block BLAKE3 gives the root parent node of a stack folded onto the chunk's chaining
value `right`: each entry above the bottom one becomes the left sibling of the
running chaining value under `mode | PARENT`, and the bottom entry is the root's left child. -/
def rootParentBlock (key : List UInt32) (flags : UInt8) :
    List (List UInt8) → List UInt8 → List UInt8
  | [], right => right
  | cv :: rest, right =>
      if rest = [] then cv ++ right
      else rootParentBlock key flags rest
        (storeWords (compressInPlace key (cv ++ right) 64 0 (flags ||| Flags.parent)))

/-- Byte `p` of the root parent's BLAKE3 extended output for a hasher with a nonempty
stack. -/
def rootParentOutputByte (self : Hasher) (p : Nat) : UInt8 :=
  outputStreamByte self.key
    (rootParentBlock self.key self.chunk.flags self.cvStack (chunkStateOutput self.chunk)) 64
    (self.chunk.flags ||| Flags.parent ||| Flags.root) p

/-- `blake3_hasher_finalize_seek` on the caller's buffer `out` of `out_len = out.length` bytes:
the bytes the call writes replace the front of `out`. -/
def blake3HasherFinalizeSeekInto (self : Hasher) (seek : Nat) (out : List UInt8) : List UInt8 :=
  memcpyAt out 0 (blake3HasherFinalizeSeek self seek out.length)

/-- A run of `m` bytes of one wide compression from offset `off` is the stream from byte
`64 · counter + off` on. -/
theorem take_drop_compressXof (cv : List UInt32) (block : List UInt8) (blockLen flags : UInt8)
    (counter : Nat) {off m : Nat} (fits : off + m ≤ 64) :
    ((compressXof cv block blockLen counter flags).drop off).take m =
      (List.range' (64 * counter + off) m).map (outputStreamByte cv block blockLen flags) := by
  apply List.ext_getElem
  · simp only [List.length_take, List.length_drop, length_compressXof, List.length_map,
      List.length_range']
    omega
  · intro i lhs _
    have inside : off + i < 64 := by
      simp only [List.length_take, List.length_drop, length_compressXof] at lhs
      omega
    have blockIndex : (64 * counter + off + 1 * i) / 64 = counter := by omega
    have byteIndex : (64 * counter + off + 1 * i) % 64 = off + i := by omega
    simp only [List.getElem_take, List.getElem_drop, List.getElem_map, List.getElem_range',
      outputStreamByte, blockIndex, byteIndex, List.getD_eq_getElem?_getD,
      List.getElem?_eq_getElem (show off + i < (compressXof cv block blockLen counter flags).length
        by rw [length_compressXof]; exact inside), Option.getD_some]

/-- Two runs of the stream that meet make one run. -/
theorem map_range'_append {f : Nat → UInt8} {start next m n : Nat} (le : m ≤ n)
    (meet : m < n → next = start + m) :
    (List.range' start m).map f ++ (List.range' next (n - m)).map f =
      (List.range' start n).map f := by
  rw [← List.map_append]
  by_cases short : m < n
  · rw [meet short, List.range'_append_1, Nat.sub_add_cancel le]
  · rw [show n - m = 0 by omega, show m = n by omega, List.range'_zero, List.append_nil]

/-! ## The single-chunk branch -/

/-- The `while (out_len > 0)` loop: whole output blocks from counter `c` on. -/
theorem finalizeOutputBlocks_eq (chunk : ChunkState) (flags : UInt8) (counter outLen : Nat) :
    finalizeOutputBlocks chunk flags counter outLen =
      (List.range' (64 * counter) outLen).map
        (outputStreamByte chunk.cv chunk.buf chunk.bufLen.toUInt8 flags) := by
  induction outLen using Nat.strongRecOn generalizing counter with
  | ind outLen ih =>
    rw [finalizeOutputBlocks]
    split
    · rename_i pos
      have first := take_drop_compressXof chunk.cv chunk.buf chunk.bufLen.toUInt8 flags counter
        (show 0 + min outLen 64 ≤ 64 by omega)
      rw [List.drop_zero, Nat.add_zero] at first
      dsimp only
      rw [first, ih _ (by omega)]
      exact map_range'_append (Nat.min_le_left _ _) (fun _ => by omega)
    · rw [show outLen = 0 by omega, List.range'_zero, List.map_nil]

/-- With an empty stack, `finalize_seek` writes the root's stream from byte `seek` on. -/
theorem blake3HasherFinalizeSeek_of_empty {self : Hasher} (empty : self.cvStack = [])
    (seek outLen : Nat) :
    blake3HasherFinalizeSeek self seek outLen =
      (List.range' seek outLen).map (outputStreamByte self.chunk.cv self.chunk.buf
        self.chunk.bufLen.toUInt8 (rootChunkFlags self.chunk)) := by
  unfold blake3HasherFinalizeSeek
  split
  · rename_i none
    rw [none, List.range'_zero, List.map_nil]
  · rw [if_pos (by rw [empty]; rfl)]
    have split := Nat.div_add_mod seek 64
    have first := take_drop_compressXof self.chunk.cv self.chunk.buf self.chunk.bufLen.toUInt8
      (rootChunkFlags self.chunk) (seek / 64)
      (show seek % 64 + min outLen (64 - seek % 64) ≤ 64 by omega)
    rw [split] at first
    dsimp only
    rw [← rootChunkFlags, first, finalizeOutputBlocks_eq]
    exact map_range'_append (Nat.min_le_left _ _) (fun _ => by omega)

/-- With an empty stack `finalize_seek` writes exactly `out_len` bytes, they are bytes
`[seek, seek + out_len)` of what `finalize_seek` writes from 0, and byte `p` of that stream
is byte `p mod 64` of the root's wide compression at counter `⌊p/64⌋`. -/
theorem finalizeSeek_of_empty_stack {self : Hasher} (empty : self.cvStack = [])
    (seek outLen : Nat) :
    (blake3HasherFinalizeSeek self seek outLen).length = outLen ∧
    blake3HasherFinalizeSeek self seek outLen =
      (blake3HasherFinalizeSeek self 0 (seek + outLen)).drop seek ∧
    blake3HasherFinalizeSeek self seek outLen =
      (List.range' seek outLen).map (outputStreamByte self.chunk.cv self.chunk.buf
        self.chunk.bufLen.toUInt8 (rootChunkFlags self.chunk)) := by
  have stream := blake3HasherFinalizeSeek_of_empty empty
  refine ⟨by rw [stream, List.length_map, List.length_range'], ?_, stream seek outLen⟩
  rw [stream, stream, Nat.add_comm seek outLen, ← List.range'_append_1 0 seek outLen, Nat.zero_add,
    List.map_append,
    List.drop_left' (by rw [List.length_map, List.length_range'])]

/-- After 100 bytes in default mode (one block compressed, 36 buffered), the 100 bytes from
offset 70 of the root output, which cross the first output block's end. -/
theorem finalizeSeek_of_empty_stack_hundred :
    ∃ h, blake3HasherUpdate blake3HasherInit (List.replicate 100 3) = some h ∧ h.cvStack = [] ∧
      ((blake3HasherFinalizeSeek h 70 100).length = 100 ∧
        blake3HasherFinalizeSeek h 70 100 = (blake3HasherFinalizeSeek h 0 (70 + 100)).drop 70 ∧
        blake3HasherFinalizeSeek h 70 100 =
          (List.range' 70 100).map (outputStreamByte h.chunk.cv h.chunk.buf
            h.chunk.bufLen.toUInt8 (rootChunkFlags h.chunk))) := by
  have start : InitVariant.default.init = some blake3HasherInit := rfl
  obtain ⟨h, update, len⟩ := (Reachable.init start).update_isSome start (List.replicate 100 3)
    (by rw [List.length_replicate]; decide)
  have law := (Reachable.update _ (.init start) update).cvStack_length start
  have first : h.chunk.chunkCounter = 0 := by
    rw [show hasherLen blake3HasherInit = 0 from rfl, List.length_replicate] at len
    simp only [hasherLen, blake3ChunkLen] at len
    omega
  have empty : h.cvStack = [] := by
    rw [← List.length_eq_zero, law, first]
    rfl
  exact ⟨h, update, empty, finalizeSeek_of_empty_stack empty 70 100⟩

/-! ## Up to one chunk: BLAKE3's extended output -/

/-- Byte `p` of BLAKE3's extended output of an input of at most one chunk
under `key` with mode bits `mode`. The root node is the chunk's last block, zero-padded, on
the chaining value of the blocks before it, with `CHUNK_END` and `ROOT`. -/
def specXofByte (key : List UInt32) (mode : UInt8) (input : List UInt8) (p : Nat) : UInt8 :=
  let n := specBlockCount input
  let block := (input.drop (64 * (n - 1))).take 64
  outputStreamByte ((List.range (n - 1)).foldl (specBlockStep mode 0 input n Flags.root) key)
    (block ++ List.replicate (64 - block.length) 0) block.length.toUInt8
    (mode ||| (if n - 1 = 0 then Flags.chunkStart else 0) ||| (Flags.chunkEnd ||| Flags.root)) p

/-- From a fresh hasher, after at most one chunk, `finalize_seek` writes bytes
`[seek, seek + out_len)` of the BLAKE3 extended output. -/
theorem blake3HasherFinalizeSeek_of_le_one_chunk (key : List UInt32) (flags : UInt8)
    {input : List UInt8} (short : input.length ≤ blake3ChunkLen) (seek outLen : Nat) :
    (blake3HasherUpdate ⟨key, chunkStateInit key flags, []⟩ input).map
        (blake3HasherFinalizeSeek · seek outLen) =
      some ((List.range' seek outLen).map (specXofByte key flags input)) := by
  have wf : Hasher.Wf ⟨key, chunkStateInit key flags, []⟩ := (fresh_cvStack_length key flags).2.2
  have last : (input.drop (64 * (specBlockCount input - 1))).length ≤ 64 := by
    simp only [List.length_drop, specBlockCount]
    omega
  have absorbed : input.foldl chunkStateAbsorb (chunkStateInit key flags) = _ :=
    foldl_chunkStateAbsorb_eq key flags 0 input Flags.root
  rw [blake3HasherUpdate_eq_foldlM wf,
    foldlM_hasherAbsorb_of_fits (by simpa [chunkStateLen, chunkStateInit] using short),
    Option.map_some', blake3HasherFinalizeSeek_of_empty rfl, absorbed]
  refine congrArg (fun f => some ((List.range' seek outLen).map f)) (funext fun p => ?_)
  simp only [specXofByte, rootChunkFlags, chunkStateMaybeStartFlag, chunkStateInit, uint8_or_assoc,
    List.take_of_length_le last]

/-- In every hashing mode (for a derived key, on a context of at most two chunks), on every
input of at most one chunk, `finalize_seek(seek, out_len)` writes bytes
`[seek, seek + out_len)` of the input's BLAKE3 extended output. -/
theorem finalizeSeek_eq_specXof (v : InitVariant) (contextShort : v.contextLen ≤ 2048)
    {input : List UInt8} (short : input.length ≤ 1024) (seek outLen : Nat) :
    (v.init.bind (blake3HasherUpdate · input)).map (blake3HasherFinalizeSeek · seek outLen) =
      some ((List.range' seek outLen).map
        (specXofByte (specKeyMode v).1 (specKeyMode v).2 input)) := by
  rw [InitVariant.init_eq_specKeyMode contextShort, Option.some_bind]
  exact blake3HasherFinalizeSeek_of_le_one_chunk _ _ short seek outLen

/-- Under a keyed hasher, 100 bytes (a compressed block and a partial one), read from offset
70 for 100 bytes. -/
theorem finalizeSeek_eq_specXof_keyed :
    (InitVariant.keyed sampleKey).contextLen ≤ 2048 ∧
      (List.replicate 100 (3 : UInt8)).length ≤ 1024 ∧
      ((InitVariant.keyed sampleKey).init.bind (blake3HasherUpdate · (List.replicate 100 3))).map
          (blake3HasherFinalizeSeek · 70 100) =
        some ((List.range' 70 100).map (specXofByte (specKeyMode (.keyed sampleKey)).1
          (specKeyMode (.keyed sampleKey)).2 (List.replicate 100 3))) :=
  have short : (List.replicate 100 (3 : UInt8)).length ≤ 1024 := by
    rw [List.length_replicate]; decide
  ⟨by decide, short, finalizeSeek_eq_specXof _ (by decide) short 70 100⟩

/-! ## The multi-chunk branch -/

/-- The `while (num_cvs > 0)` loop ends with the root compression of the root parent
block. -/
theorem hasherFinalizeFold_eq (key : List UInt32) (flags : UInt8) {stack : List (List UInt8)}
    (nonempty : stack ≠ []) (right : List UInt8) :
    hasherFinalizeFold key flags stack right =
      storeWords (compressInPlace key (rootParentBlock key flags stack right) 64 0
        (flags ||| Flags.parent ||| Flags.root)) := by
  induction stack generalizing right with
  | nil => exact absurd rfl nonempty
  | cons cv rest ih =>
    by_cases last : rest = []
    · subst last
      rfl
    · rw [hasherFinalizeFold, rootParentBlock, if_neg last, if_neg last, uint8_or_zero]
      exact ih last _

/-- With a nonempty stack `finalize_seek` writes bytes `[0, min(out_len, 32))` of the root
parent's output stream, whatever `seek` is, and `out` keeps its bytes from 32 on. -/
theorem finalizeSeek_of_nonempty_stack {self : Hasher} (nonempty : self.cvStack ≠ [])
    (seek : Nat) (out : List UInt8) :
    blake3HasherFinalizeSeekInto self seek out =
      (List.range' 0 (min out.length blake3OutLen)).map (rootParentOutputByte self) ++
        out.drop blake3OutLen := by
  have written : blake3HasherFinalizeSeek self seek out.length =
      (List.range' 0 (min out.length blake3OutLen)).map (rootParentOutputByte self) := by
    unfold blake3HasherFinalizeSeek
    split
    · rename_i none
      rw [none]
      rfl
    · rw [if_neg (by rw [List.length_eq_zero]; exact nonempty), hasherFinalizeFold_eq _ _ nonempty,
        ← take_compressXof, List.take_take,
        show min (min out.length blake3OutLen) 32 = min out.length blake3OutLen from
          Nat.min_eq_left (Nat.min_le_right _ _)]
      have first := take_drop_compressXof self.key
        (rootParentBlock self.key self.chunk.flags self.cvStack (chunkStateOutput self.chunk)) 64
        (self.chunk.flags ||| Flags.parent ||| Flags.root) 0
        (show 0 + min out.length blake3OutLen ≤ 64 by simp only [blake3OutLen]; omega)
      rwa [List.drop_zero] at first
  have tail : out.drop (min out.length blake3OutLen) = out.drop blake3OutLen := by
    by_cases short : out.length ≤ blake3OutLen
    · rw [List.drop_eq_nil_of_le (by omega), List.drop_eq_nil_of_le short]
    · rw [Nat.min_eq_right (by omega)]
  rw [blake3HasherFinalizeSeekInto, memcpyAt, written, List.take_zero, List.nil_append, Nat.zero_add,
    List.length_map, List.length_range', tail]

/-- The default hasher after 1025 zero bytes has one stack entry. Asked for 64 bytes from
byte 64 into a buffer of `0xff`, `finalize_seek` writes the root's bytes `[0, 32)` and leaves
`out[32..64)` at `0xff`. -/
theorem finalizeSeek_after_one_chunk :
    ∃ h, blake3HasherUpdate blake3HasherInit (List.replicate 1025 0) = some h ∧
      h.cvStack ≠ [] ∧
      blake3HasherFinalizeSeekInto h 64 (List.replicate 64 255) =
        (List.range' 0 (min (List.replicate 64 (255 : UInt8)).length blake3OutLen)).map
          (rootParentOutputByte h) ++ (List.replicate 64 (255 : UInt8)).drop blake3OutLen := by
  have start : InitVariant.default.init = some blake3HasherInit := rfl
  have wf := ((Reachable.init start).inv start).wf
  have update : blake3HasherUpdate blake3HasherInit (List.replicate 1025 0) =
      some (Hasher.mk iv (chunkStateAbsorb { chunkStateInit iv 0 with chunkCounter := 1 } 0)
        [chunkStateOutput ((List.replicate 1024 0).foldl chunkStateAbsorb (chunkStateInit iv 0))]) := by
    rw [blake3HasherUpdate_eq_foldlM wf, List.replicate_succ']
    exact foldlM_hasherAbsorb_fresh_push iv 0 (List.length_replicate 1024 0) 0 []
  exact ⟨_, update, List.cons_ne_nil _ _, finalizeSeek_of_nonempty_stack (List.cons_ne_nil _ _) 64 _⟩

end Mining.Blake3
