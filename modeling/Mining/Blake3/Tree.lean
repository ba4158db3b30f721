import Mining.Blake3.Stack
import Mining.Blake3.Reference

/-!
# The code's tree against the BLAKE3 tree

The chunk layer of `blake3.c` computes the BLAKE3 chunk chaining value
(`chunkStateOutput_eq_specChunkCv`): whatever the chunk's bytes, `chunk_state_output` after
absorbing them is the reference value of `Mining.Blake3.Reference`.

Up to two chunks the tree is right too: the stack holds at most the first chunk, and
`finalize` makes it the left child of the root (`blake3HasherFinalize_of_le_two_chunks`),
so every mode hashes every input of at most 2048 bytes as BLAKE3 does
(`digest_of_le_two_chunks`).

From three chunks on the tree above the chunks is not the BLAKE3 tree.
`blake3_hasher_update` merges the stack down to `popcount(chunk_counter + 1)` entries
before pushing, and `finalize` folds the stack from the top onto the last chunk. For three
chunks the code's root is `root(c0, parent(c1, c2))`, where BLAKE3's is
`root(parent(c0, c1), c2)`: `blake3Hash_three_chunks` shows the two digests of 2049 zero
bytes.
-/

namespace Mining.Blake3

/-! ## Chunks -/

theorem uint8_or_zero (x : UInt8) : x ||| 0 = x := by
  cases x with
  | mk v =>
      show UInt8.mk (v ||| 0#8) = _
      rw [BitVec.or_zero]

theorem foldl_chunkStateAbsorb_fields (s : ChunkState) (input : List UInt8) :
    (input.foldl chunkStateAbsorb s).chunkCounter = s.chunkCounter ∧
      (input.foldl chunkStateAbsorb s).flags = s.flags := by
  induction input generalizing s with
  | nil => exact ⟨rfl, rfl⟩
  | cons b input ih =>
      simpa only [List.foldl_cons, chunkStateAbsorb_chunkCounter, chunkStateAbsorb_flags] using
        ih (chunkStateAbsorb s b)

theorem uint8_or_assoc (x y z : UInt8) : x ||| y ||| z = x ||| (y ||| z) := by
  cases x with
  | mk x =>
    cases y with
    | mk y =>
      cases z with
      | mk z =>
          show UInt8.mk (x ||| y ||| z) = UInt8.mk (x ||| (y ||| z))
          rw [BitVec.or_assoc]

/-- From a fresh chunk, each block followed by more input is compressed as the reference
compresses it: after `m` such blocks the chaining value is the reference's after `m`,
whatever flag the reference puts on the last block. -/
theorem foldl_chunkStateAbsorb_blocks (key : List UInt32) (mode : UInt8) (counter : Nat)
    (chunk : List UInt8) (rootFlag : UInt8) {m : Nat} (before : m < specBlockCount chunk) :
    chunk.foldl chunkStateAbsorb { chunkStateInit key mode with chunkCounter := counter } =
      (chunk.drop (64 * m)).foldl chunkStateAbsorb
        { chunkStateInit key mode with
          chunkCounter := counter
          cv := (List.range m).foldl
            (specBlockStep mode counter chunk (specBlockCount chunk) rootFlag) key
          blocksCompressed := m } := by
  induction m with
  | zero => rfl
  | succ m ih =>
      have more : 64 * (m + 1) < chunk.length := by
        unfold specBlockCount at before
        omega
      have width : ((chunk.drop (64 * m)).take 64).length = 64 := by
        simp only [List.length_take, List.length_drop]
        omega
      have split : chunk.drop (64 * m) =
          (chunk.drop (64 * m)).take 64 ++ chunk.drop (64 * (m + 1)) := by
        rw [show 64 * (m + 1) = 64 * m + 64 by omega, ← List.drop_drop, List.take_append_drop]
      have rest : chunk.drop (64 * (m + 1)) ≠ [] :=
        List.ne_nil_of_length_pos (by simp only [List.length_drop]; omega)
      have wf := ChunkState.Wf.chunkStateInit key mode
      have step : specBlockStep mode counter chunk (specBlockCount chunk) rootFlag
          ((List.range m).foldl (specBlockStep mode counter chunk (specBlockCount chunk) rootFlag)
            key) m =
          compressInPlace
            ((List.range m).foldl (specBlockStep mode counter chunk (specBlockCount chunk) rootFlag)
              key)
            ((chunk.drop (64 * m)).take 64) 64 counter
            (mode ||| if m = 0 then Flags.chunkStart else 0) := by
        simp only [specBlockStep, width, Nat.sub_self, List.replicate_zero, List.append_nil,
          if_neg (show m + 1 ≠ specBlockCount chunk by omega), uint8_or_zero]
        rfl
      rw [ih (by omega)]
      set S : ChunkState := { chunkStateInit key mode with
          chunkCounter := counter
          cv := (List.range m).foldl
            (specBlockStep mode counter chunk (specBlockCount chunk) rootFlag) key
          blocksCompressed := m }
      have wfS : S.Wf := ⟨wf.1, wf.2, wf.3⟩
      rw [split, foldl_chunkStateAbsorb_block wfS rfl width rest, List.range_succ,
        List.foldl_append, List.foldl_cons, List.foldl_nil, step]
      rfl

/-- Absorbing a chunk into a fresh chunk state compresses every block before the last as the
reference does, whatever flag the reference puts on the last block, and leaves the last
block, zero-padded, in the buffer. -/
theorem foldl_chunkStateAbsorb_eq (key : List UInt32) (mode : UInt8) (counter : Nat)
    (chunk : List UInt8) (rootFlag : UInt8) :
    chunk.foldl chunkStateAbsorb { chunkStateInit key mode with chunkCounter := counter } =
      { chunkStateInit key mode with
        chunkCounter := counter
        cv := (List.range (specBlockCount chunk - 1)).foldl
          (specBlockStep mode counter chunk (specBlockCount chunk) rootFlag) key
        blocksCompressed := specBlockCount chunk - 1
        buf := chunk.drop (64 * (specBlockCount chunk - 1)) ++
          List.replicate (64 - (chunk.drop (64 * (specBlockCount chunk - 1))).length) 0
        bufLen := (chunk.drop (64 * (specBlockCount chunk - 1))).length } := by
  have last : (chunk.drop (64 * (specBlockCount chunk - 1))).length ≤ 64 := by
    simp only [List.length_drop, specBlockCount]
    omega
  rw [foldl_chunkStateAbsorb_blocks key mode counter chunk rootFlag
    (m := specBlockCount chunk - 1) (by unfold specBlockCount; omega)]
  set S : ChunkState := { chunkStateInit key mode with
      chunkCounter := counter
      cv := (List.range (specBlockCount chunk - 1)).foldl
        (specBlockStep mode counter chunk (specBlockCount chunk) rootFlag) key
      blocksCompressed := specBlockCount chunk - 1 }
  rw [foldl_chunkStateAbsorb_of_fits (s := S) (ChunkState.Wf.chunkStateInit key mode).1
    (Nat.zero_add _ ▸ last)]
  simp only [S, memcpyAt, chunkStateInit, List.take_zero, List.nil_append, Nat.zero_add,
    List.drop_replicate, blake3BlockLen]

/-- After absorbing a chunk into a fresh chunk state, compressing the buffered last block
with `CHUNK_END` and `rootFlag` gives the reference chaining value of the chunk. -/
theorem chunkCompress_eq_specChunkCv (key : List UInt32) (mode : UInt8) (counter : Nat)
    (chunk : List UInt8) (rootFlag : UInt8) :
    let s := chunk.foldl chunkStateAbsorb { chunkStateInit key mode with chunkCounter := counter }
    compressInPlace s.cv s.buf s.bufLen.toUInt8 counter
        (s.flags ||| chunkStateMaybeStartFlag s ||| Flags.chunkEnd ||| rootFlag) =
      specChunkCv key mode counter chunk rootFlag := by
  have count : specBlockCount chunk = specBlockCount chunk - 1 + 1 := by
    unfold specBlockCount
    omega
  have last : (chunk.drop (64 * (specBlockCount chunk - 1))).length ≤ 64 := by
    simp only [List.length_drop, specBlockCount]
    omega
  rw [foldl_chunkStateAbsorb_eq key mode counter chunk rootFlag, specChunkCv, count,
    List.range_succ, List.foldl_append, List.foldl_cons, List.foldl_nil, ← count]
  simp only [specBlockStep, List.take_of_length_le last,
    if_pos (show specBlockCount chunk - 1 + 1 = specBlockCount chunk by omega), uint8_or_assoc,
    chunkStateInit, chunkStateMaybeStartFlag]

/-- `chunk_state_output` after absorbing a chunk into a fresh chunk state is the reference
chaining value of the chunk. -/
theorem chunkStateOutput_eq_specChunkCv (key : List UInt32) (mode : UInt8) (counter : Nat)
    (chunk : List UInt8) :
    chunkStateOutput (chunk.foldl chunkStateAbsorb
        { chunkStateInit key mode with chunkCounter := counter }) =
      storeWords (specChunkCv key mode counter chunk 0) := by
  rw [← chunkCompress_eq_specChunkCv key mode counter chunk 0, chunkStateOutput,
    (foldl_chunkStateAbsorb_fields _ _).1, uint8_or_zero]
  exact take_compressXof _ _ _ _ _

/-! ## Pushing a full chunk -/

theorem mergeCvStackLoop_of_le (key : List UInt32) (flags : UInt8) {target : Nat}
    {stack : List (List UInt8)} (few : stack.length ≤ target) :
    mergeCvStackLoop key flags target stack = some stack := by
  rw [mergeCvStackLoop.eq_def, if_neg (by omega)]

/-- The bytes that fill the current chunk, then one more: the full chunk's chaining value
goes onto the merged stack, and the byte starts the next chunk. -/
theorem foldlM_hasherAbsorb_push {h : Hasher} {fill : List UInt8}
    (full : chunkStateLen h.chunk + fill.length = blake3ChunkLen) {merged : List (List UInt8)}
    (loop : mergeCvStackLoop h.key h.chunk.flags (popcount (h.chunk.chunkCounter + 1)) h.cvStack =
      some merged)
    (room : merged.length ≤ blake3MaxDepth) (b : UInt8) (rest : List UInt8) :
    (fill ++ b :: rest).foldlM hasherAbsorb h =
      rest.foldlM hasherAbsorb ⟨h.key,
        chunkStateAbsorb
          { chunkStateInit h.key h.chunk.flags with chunkCounter := h.chunk.chunkCounter + 1 } b,
        chunkStateOutput (fill.foldl chunkStateAbsorb h.chunk) :: merged⟩ := by
  obtain ⟨counter, flags⟩ := foldl_chunkStateAbsorb_fields h.chunk fill
  have filled : chunkStateLen (fill.foldl chunkStateAbsorb h.chunk) = blake3ChunkLen := by
    rw [chunkStateLen_foldl, full]
  have push := @hasherPushFullChunk_of_full { h with chunk := fill.foldl chunkStateAbsorb h.chunk }
    filled merged (by simpa only [counter, flags] using loop) room
  rw [List.foldlM_append, foldlM_hasherAbsorb_of_fits (Nat.le_of_eq full), Option.bind_eq_bind,
    Option.some_bind, List.foldlM_cons, hasherAbsorb_of_push push, Option.bind_eq_bind,
    Option.some_bind]
  simp only [counter, flags]

theorem chunkStateLen_absorb_fresh (key : List UInt32) (flags : UInt8) (counter : Nat)
    (b : UInt8) :
    chunkStateLen (chunkStateAbsorb { chunkStateInit key flags with chunkCounter := counter } b) = 1 := by
  rw [chunkStateLen_chunkStateAbsorb]
  rfl

/-- From a fresh hasher, a full first chunk and one more byte: the chunk's chaining value goes
onto the empty stack, and the byte starts chunk 1. -/
theorem foldlM_hasherAbsorb_fresh_push (key : List UInt32) (flags : UInt8) {c0 : List UInt8}
    (full : c0.length = 1024) (b : UInt8) (rest : List UInt8) :
    (c0 ++ b :: rest).foldlM hasherAbsorb ⟨key, chunkStateInit key flags, []⟩ =
      rest.foldlM hasherAbsorb ⟨key,
        chunkStateAbsorb { chunkStateInit key flags with chunkCounter := 1 } b,
        [chunkStateOutput (c0.foldl chunkStateAbsorb (chunkStateInit key flags))]⟩ :=
  foldlM_hasherAbsorb_push (by rw [full]; rfl) (mergeCvStackLoop_of_le _ _ (by simp))
    (by simp [blake3MaxDepth]) b rest

/-! ## Up to two chunks -/

/-- With an empty stack, the 32 bytes of `finalize` are the root compression of the
chunk's buffered last block, at output block 0. -/
theorem blake3HasherFinalize_one_chunk (key : List UInt32) (s : ChunkState) :
    blake3HasherFinalize ⟨key, s, []⟩ blake3OutLen =
      storeWords (compressInPlace s.cv s.buf s.bufLen.toUInt8 0
        (s.flags ||| chunkStateMaybeStartFlag s ||| Flags.chunkEnd ||| Flags.root)) := by
  simp only [blake3HasherFinalize, blake3HasherFinalizeSeek, blake3OutLen, List.length_nil,
    if_neg (show (32 : Nat) ≠ 0 by decide), if_pos rfl, Nat.zero_div, Nat.zero_mod, List.drop_zero,
    show min 32 (64 - 0) = 32 from rfl, Nat.sub_self]
  rw [finalizeOutputBlocks, if_neg (Nat.lt_irrefl 0), List.append_nil]
  exact take_compressXof _ _ _ _ _

/-- From a fresh hasher under any key and mode bits, `update` and the 32-byte `finalize`
compute the BLAKE3 digest of every input of at most two chunks: the stack holds at most
the first chunk, and `finalize` makes it the left child of the root. -/
theorem blake3HasherFinalize_of_le_two_chunks (key : List UInt32) (flags : UInt8)
    {input : List UInt8} (short : input.length ≤ 2 * blake3ChunkLen) :
    (blake3HasherUpdate ⟨key, chunkStateInit key flags, []⟩ input).map
        (blake3HasherFinalize · blake3OutLen) = some (specHash key flags input) := by
  have wf : Hasher.Wf ⟨key, chunkStateInit key flags, []⟩ := (fresh_cvStack_length key flags).2.2
  rw [blake3HasherUpdate_eq_foldlM wf]
  by_cases one : input.length ≤ blake3ChunkLen
  · -- one chunk: the root compresses its last block
    have count : specChunkCount input ≤ 1 := by
      simp only [specChunkCount, blake3ChunkLen] at one ⊢
      omega
    have chunk : specChunk input 0 = input := by
      rw [specChunk, Nat.mul_zero, List.drop_zero,
        List.take_of_length_le (show input.length ≤ 1024 from one)]
    rw [foldlM_hasherAbsorb_of_fits (by simpa [chunkStateLen, chunkStateInit] using one),
      Option.map_some', blake3HasherFinalize_one_chunk, specHash]
    simp only [if_pos count, chunk]
    exact congrArg (fun cv => some (storeWords cv))
      (chunkCompress_eq_specChunkCv key flags 0 input Flags.root)
  · -- two chunks: the first is pushed onto the empty stack, the second stays in the state
    have full0 : (input.take 1024).length = 1024 := by
      simp only [List.length_take, blake3ChunkLen] at one ⊢
      omega
    obtain ⟨b, c1, rest⟩ := List.exists_cons_of_length_pos
      (by simp only [List.length_drop, blake3ChunkLen] at one ⊢; omega : 0 < (input.drop 1024).length)
    have fits1 : c1.length < 1024 := by
      have := congrArg List.length rest
      simp only [List.length_drop, List.length_cons, blake3ChunkLen] at this short
      omega
    have split : input = input.take 1024 ++ b :: c1 := by rw [← rest, List.take_append_drop]
    have count : specChunkCount input = 2 := by
      simp only [specChunkCount, blake3ChunkLen] at one short ⊢
      omega
    have left2 : specLeftCount 2 = 1 := by
      rw [specLeftCount, show 2 - 1 = 2 ^ 0 from rfl, Nat.log2_two_pow, Nat.pow_zero]
    have chunk0 : specChunk input 0 = input.take 1024 := by
      rw [specChunk, Nat.mul_zero, List.drop_zero]
    have chunk1 : specChunk input 1 = b :: c1 := by
      rw [specChunk, Nat.mul_one, rest, List.take_of_length_le (by simp only [List.length_cons]; omega)]
    set first := chunkStateAbsorb { chunkStateInit key flags with chunkCounter := 1 } b
    have len1 : chunkStateLen first = 1 := chunkStateLen_absorb_fresh key flags 1 b
    set cv0 := chunkStateOutput ((input.take 1024).foldl chunkStateAbsorb (chunkStateInit key flags))
    have push : (input.take 1024 ++ b :: c1).foldlM hasherAbsorb ⟨key, chunkStateInit key flags, []⟩ =
        c1.foldlM hasherAbsorb ⟨key, first, [cv0]⟩ :=
      foldlM_hasherAbsorb_fresh_push key flags full0 b c1
    have fill : c1.foldlM hasherAbsorb ⟨key, first, [cv0]⟩ =
        some ⟨key, c1.foldl chunkStateAbsorb first, [cv0]⟩ :=
      foldlM_hasherAbsorb_of_fits (by simp only [len1, blake3ChunkLen]; omega)
    have flags1 : (c1.foldl chunkStateAbsorb first).flags = flags := by
      rw [(foldl_chunkStateAbsorb_fields _ _).2]
      rfl
    rw [split, push, fill, Option.map_some', ← split]
    simp only [blake3HasherFinalize, blake3HasherFinalizeSeek, hasherFinalizeFold, flags1, cv0,
      specHash, count, left2, specSubtree_of_le (Nat.le_refl 1), chunk0, chunk1,
      List.take_of_length_le, uint8_or_zero, blake3OutLen, List.length_cons]
    rw [← chunkStateOutput_eq_specChunkCv key flags 0, ← chunkStateOutput_eq_specChunkCv key flags 1]
    rfl

/-- Every mode's init, for a derived key on a context of at most two chunks, is the fresh
hasher under the BLAKE3 key and mode bits of that mode. -/
theorem InitVariant.init_eq_specKeyMode {v : InitVariant} (contextShort : v.contextLen ≤ 2048) :
    v.init = some ⟨(specKeyMode v).1, chunkStateInit (specKeyMode v).1 (specKeyMode v).2, []⟩ := by
  cases v with
  | default => rfl
  | keyed key => rfl
  | deriveKey context =>
      obtain ⟨contextHasher, update, finalize⟩ := Option.map_eq_some'.1
        (blake3HasherFinalize_of_le_two_chunks iv Flags.deriveKeyContext contextShort)
      simp only [InitVariant.init, blake3HasherInitDeriveKeyRaw, update, Option.map_some',
        blake3KeyLen]
      rw [show (32 : Nat) = blake3OutLen from rfl, finalize]
      rfl

/-- Every hashing mode, on every input of at most two chunks (and, for a derived key, a
context of at most two chunks), computes the BLAKE3 digest. -/
theorem digest_of_le_two_chunks (v : InitVariant) (contextShort : v.contextLen ≤ 2048)
    {input : List UInt8} (short : input.length ≤ 2048) :
    (v.init.bind (blake3HasherUpdate · input)).map (blake3HasherFinalize · blake3OutLen) =
      some (specDigest v input) := by
  rw [InitVariant.init_eq_specKeyMode contextShort, Option.some_bind]
  exact blake3HasherFinalize_of_le_two_chunks _ _ short

/-- Under the key derived from a 40-byte context, 1500 bytes: one full chunk and a partial
one. -/
theorem digest_of_le_two_chunks_derived :
    (InitVariant.deriveKey sampleContext).contextLen ≤ 2048 ∧
      (List.replicate 1500 (7 : UInt8)).length ≤ 2048 ∧
      ((InitVariant.deriveKey sampleContext).init.bind
          (blake3HasherUpdate · (List.replicate 1500 7))).map (blake3HasherFinalize · blake3OutLen) =
        some (specDigest (.deriveKey sampleContext) (List.replicate 1500 7)) :=
  have short : (List.replicate 1500 (7 : UInt8)).length ≤ 2048 := by
    rw [List.length_replicate]; decide
  ⟨by decide, short, digest_of_le_two_chunks _ (by decide) short⟩

set_option maxRecDepth 20000 in
/-- The BLAKE3 digest of the empty input. -/
example : blake3Hash [] = some
    [0xaf, 0x13, 0x49, 0xb9, 0xf5, 0xf9, 0xa1, 0xa6, 0xa0, 0x40, 0x4d, 0xea, 0x36, 0xdc, 0xc9, 0x49,
     0x9b, 0xcb, 0x25, 0xc9, 0xad, 0xc1, 0x12, 0xb7, 0xcc, 0x9a, 0x93, 0xca, 0xe4, 0x1f, 0x32, 0x62] := by
  rw [blake3Hash, blake3HasherUpdate, if_neg (show ¬ 0 < ([] : List UInt8).length from
    Nat.lt_irrefl 0), Option.map_some', blake3HasherInit, blake3HasherFinalize_one_chunk]
  decide

/-! ## Three chunks -/

/-- A chunk of 1024 zero bytes is sixteen zero blocks. -/
theorem specChunkCv_zeros (key : List UInt32) (mode : UInt8) (counter : Nat) (rootFlag : UInt8) :
    specChunkCv key mode counter (List.replicate 1024 0) rootFlag =
      (List.range 16).foldl (fun cv j => compressInPlace cv (List.replicate 64 0) 64 counter
        (mode ||| (if j = 0 then Flags.chunkStart else 0) |||
          (if j + 1 = 16 then Flags.chunkEnd ||| rootFlag else 0))) key := by
  have count : specBlockCount (List.replicate 1024 (0 : UInt8)) = 16 := by
    rw [specBlockCount, List.length_replicate]
    rfl
  rw [specChunkCv, count]
  refine List.foldl_ext _ _ _ fun cv j mem => ?_
  have small : j < 16 := List.mem_range.mp mem
  have block : ((List.replicate 1024 (0 : UInt8)).drop (64 * j)).take 64 = List.replicate 64 0 := by
    rw [List.drop_replicate, List.take_replicate, show min 64 (1024 - 64 * j) = 64 by omega]
  simp only [specBlockStep, block, List.length_replicate, Nat.sub_self, List.replicate_zero,
    List.append_nil]
  rfl

/-- Three chunks through the code, under any key and mode bits: two full chunks `c0` and
`c1`, then 1 to 1024 more bytes `c2`. Both full chunks stay on the stack unmerged, and
`finalize` makes `c1` and `c2` siblings under a root whose left child is `c0`. -/
theorem blake3HasherFinalize_three_chunks (key : List UInt32) (flags : UInt8)
    {c0 c1 c2 : List UInt8} (full0 : c0.length = 1024) (full1 : c1.length = 1024)
    (last : 0 < c2.length) (fits : c2.length ≤ 1024) :
    (blake3HasherUpdate ⟨key, chunkStateInit key flags, []⟩ (c0 ++ c1 ++ c2)).map
        (blake3HasherFinalize · blake3OutLen) =
      some (storeWords (compressInPlace key
        (storeWords (specChunkCv key flags 0 c0 0) ++
          storeWords (compressInPlace key
            (storeWords (specChunkCv key flags 1 c1 0) ++ storeWords (specChunkCv key flags 2 c2 0))
            64 0 (flags ||| Flags.parent)))
        64 0 (flags ||| Flags.parent ||| Flags.root))) := by
  obtain ⟨b1, c1, rfl⟩ := List.exists_cons_of_length_pos (by omega : 0 < c1.length)
  obtain ⟨b2, c2, rfl⟩ := List.exists_cons_of_length_pos last
  simp only [List.length_cons] at full1 fits
  have wf : Hasher.Wf ⟨key, chunkStateInit key flags, []⟩ :=
    (fresh_cvStack_length key flags).2.2
  -- the chunk states the run leaves: chunk 0 whole, chunks 1 and 2 after their first byte
  set chunk0 := c0.foldl chunkStateAbsorb (chunkStateInit key flags)
  set first1 := chunkStateAbsorb { chunkStateInit key flags with chunkCounter := 1 } b1
  set first2 := chunkStateAbsorb { chunkStateInit key flags with chunkCounter := 2 } b2
  have len1 : chunkStateLen first1 = 1 := chunkStateLen_absorb_fresh key flags 1 b1
  have len2 : chunkStateLen first2 = 1 := chunkStateLen_absorb_fresh key flags 2 b2
  have run1 : (c0 ++ b1 :: (c1 ++ b2 :: c2)).foldlM hasherAbsorb ⟨key, chunkStateInit key flags, []⟩ =
      (c1 ++ b2 :: c2).foldlM hasherAbsorb ⟨key, first1, [chunkStateOutput chunk0]⟩ :=
    foldlM_hasherAbsorb_fresh_push key flags full0 b1 _
  have run2 : (c1 ++ b2 :: c2).foldlM hasherAbsorb ⟨key, first1, [chunkStateOutput chunk0]⟩ =
      c2.foldlM hasherAbsorb ⟨key, first2,
        [chunkStateOutput (c1.foldl chunkStateAbsorb first1), chunkStateOutput chunk0]⟩ :=
    foldlM_hasherAbsorb_push (by rw [len1, Nat.add_comm, full1]; rfl)
      (mergeCvStackLoop_of_le _ _ (by simp [first1])) (by simp [blake3MaxDepth]) b2 _
  have run3 : c2.foldlM hasherAbsorb ⟨key, first2,
        [chunkStateOutput (c1.foldl chunkStateAbsorb first1), chunkStateOutput chunk0]⟩ =
      some ⟨key, c2.foldl chunkStateAbsorb first2,
        [chunkStateOutput (c1.foldl chunkStateAbsorb first1), chunkStateOutput chunk0]⟩ :=
    foldlM_hasherAbsorb_of_fits (by simp only [len2, blake3ChunkLen]; omega)
  have out0 : chunkStateOutput chunk0 = storeWords (specChunkCv key flags 0 c0 0) :=
    chunkStateOutput_eq_specChunkCv key flags 0 c0
  have out1 : chunkStateOutput (c1.foldl chunkStateAbsorb first1) =
      storeWords (specChunkCv key flags 1 (b1 :: c1) 0) :=
    chunkStateOutput_eq_specChunkCv key flags 1 (b1 :: c1)
  have out2 : chunkStateOutput (c2.foldl chunkStateAbsorb first2) =
      storeWords (specChunkCv key flags 2 (b2 :: c2) 0) :=
    chunkStateOutput_eq_specChunkCv key flags 2 (b2 :: c2)
  have flags2 : (c2.foldl chunkStateAbsorb first2).flags = flags := by
    rw [(foldl_chunkStateAbsorb_fields _ _).2]
    rfl
  rw [blake3HasherUpdate_eq_foldlM wf, List.append_assoc, List.cons_append, run1, run2, run3,
    Option.map_some']
  simp only [blake3HasherFinalize, blake3HasherFinalizeSeek, hasherFinalizeFold, out0, out1, out2,
    flags2]
  simp [List.take_of_length_le, uint8_or_zero, blake3OutLen]

/-- The BLAKE3 tree over the same three chunks: `c0` and `c1` are siblings under the root's
left child, `c2` is its right child. -/
theorem specHash_three_chunks (key : List UInt32) (flags : UInt8)
    {c0 c1 c2 : List UInt8} (full0 : c0.length = 1024) (full1 : c1.length = 1024)
    (last : 0 < c2.length) (fits : c2.length ≤ 1024) :
    specHash key flags (c0 ++ c1 ++ c2) =
      storeWords (compressInPlace key
        (storeWords (compressInPlace key
            (storeWords (specChunkCv key flags 0 c0 0) ++ storeWords (specChunkCv key flags 1 c1 0))
            64 0 (flags ||| Flags.parent)) ++
          storeWords (specChunkCv key flags 2 c2 0))
        64 0 (flags ||| Flags.parent ||| Flags.root)) := by
  have count : specChunkCount (c0 ++ c1 ++ c2) = 3 := by
    simp only [specChunkCount, List.length_append]
    omega
  have left3 : specLeftCount 3 = 2 := by
    rw [specLeftCount, show 3 - 1 = 2 ^ 1 from rfl, Nat.log2_two_pow, Nat.pow_one]
  have left2 : specLeftCount 2 = 1 := by
    rw [specLeftCount, show 2 - 1 = 2 ^ 0 from rfl, Nat.log2_two_pow, Nat.pow_zero]
  have chunk0 : specChunk (c0 ++ c1 ++ c2) 0 = c0 := by
    rw [specChunk, Nat.mul_zero, List.drop_zero, List.append_assoc, List.take_left' full0]
  have chunk1 : specChunk (c0 ++ c1 ++ c2) 1 = c1 := by
    rw [specChunk, List.append_assoc, List.drop_left' (by omega), List.take_left' full1]
  have chunk2 : specChunk (c0 ++ c1 ++ c2) 2 = c2 := by
    rw [specChunk, List.drop_left' (by simp only [List.length_append]; omega),
      List.take_of_length_le fits]
  simp only [specHash, count, left3, left2, specSubtree_of_lt (by decide : 1 < 2),
    specSubtree_of_le (Nat.le_refl 1), chunk0, chunk1, chunk2]
  rfl

/-- Evaluating a fold over `n + m` indices in two parts, from the value after the first `n`. -/
theorem foldl_range_add_of_eq {α : Type} (f : α → Nat → α) {a : α} (mid : α) (n m : Nat)
    (first : (List.range n).foldl f a = mid) :
    (List.range (n + m)).foldl f a = (List.range m).foldl (fun x j => f x (n + j)) mid := by
  rw [List.range_add, List.foldl_append, first, List.foldl_map]

set_option maxRecDepth 20000 in
/-- On 2049 zero bytes in default mode the code's digest is `70b9a7bf…`, the BLAKE3 digest
`b9823354…`. -/
theorem blake3Hash_three_chunks :
    blake3Hash (List.replicate 2049 0) = some
      [0x70, 0xb9, 0xa7, 0xbf, 0x87, 0xb8, 0xd1, 0xb5, 0x5c, 0x21, 0xc0, 0x77, 0x95, 0x85, 0x83, 0x62,
       0x53, 0xde, 0xfe, 0xdb, 0x79, 0xad, 0xdc, 0x12, 0x3e, 0x8f, 0x45, 0x86, 0x15, 0x2b, 0xca, 0x0f] ∧
      specDigest .default (List.replicate 2049 0) =
        [0xb9, 0x82, 0x33, 0x54, 0x35, 0x30, 0x8f, 0x3f, 0x5f, 0x5f, 0x51, 0xf5, 0xd4, 0x5e, 0xca, 0xe6,
         0x19, 0x46, 0x41, 0x97, 0x5e, 0x7b, 0x0b, 0xca, 0xa1, 0xfa, 0xcd, 0x48, 0xeb, 0xab, 0xb2, 0x8e] := by
  have split : List.replicate 2049 (0 : UInt8) =
      List.replicate 1024 0 ++ List.replicate 1024 0 ++ List.replicate 1 0 := by
    rw [List.append_replicate_replicate, List.append_replicate_replicate]
  -- the three chunks' values, the full ones in two halves of eight blocks
  have cv0 : specChunkCv iv 0 0 (List.replicate 1024 0) 0 =
      [3596251537, 593020977, 3257684525, 1384146943, 1418497064, 1823196687, 1276159327, 957169334] := by
    rw [specChunkCv_zeros, show List.range 16 = List.range (8 + 8) from rfl,
      foldl_range_add_of_eq _ [3637431501, 499020156, 1359669212, 3917434477, 2737363865,
        3961838853, 3119713536, 3188084609] 8 8 (by decide)]
    decide
  have cv1 : specChunkCv iv 0 1 (List.replicate 1024 0) 0 =
      [2968776432, 1656437251, 2407692338, 217675212, 1407434085, 3334938132, 481185413, 3398654801] := by
    rw [specChunkCv_zeros, show List.range 16 = List.range (8 + 8) from rfl,
      foldl_range_add_of_eq _ [2116437275, 202996036, 2285431829, 2372687199, 2696183417,
        40481131, 3276990246, 3614095326] 8 8 (by decide)]
    decide
  have cv2 : specChunkCv iv 0 2 (List.replicate 1 0) 0 =
      [3211162819, 1933076991, 635394626, 1483799696, 1033632240, 2269057075, 3513720131, 3663216258] := by
    decide
  have full : (List.replicate 1024 (0 : UInt8)).length = 1024 := List.length_replicate _ _
  rw [split]
  refine ⟨?_, ?_⟩
  · rw [blake3Hash, blake3HasherInit, blake3HasherFinalize_three_chunks iv 0 full full (by decide)
      (by decide), cv0, cv1, cv2]
    decide
  · rw [specDigest, specKeyMode, specHash_three_chunks iv 0 full full (by decide) (by decide), cv0,
      cv1, cv2]
    decide

end Mining.Blake3
