import Mining.Blake3.ChunkState

/-!
# The hasher

`blake3_hasher` and the `blake3_hasher_*` functions of `blake3.c`: the three init
variants, the CV-stack merge and push, the update loop over chunks, `finalize_seek`,
`reset`, and the one-shot `blake3_hash`.

`cvStack` holds the live entries `cv_stack[0 .. cv_stack_len)` of the C array, top first:
its head is entry `cv_stack_len - 1`. Each entry is the 32 bytes the C code stores. The
array has `BLAKE3_MAX_DEPTH + 1 = 55` entries, and an access outside it is undefined
behaviour; the model returns `none` exactly where the C code would make one: a merge step
with fewer than two live entries, and a push onto a full stack. `chunk_counter` is
`uint64_t` in C and `Nat` here; every run stops at a full stack (`none`) long before
2^64 chunks, so the two never differ on a run that the model completes.

`blake3HasherFinalizeSeek` returns the bytes written to `out[0 ..]`, in order; the rest of
the caller's buffer is left as it was.
-/

namespace Mining.Blake3

/-- `__builtin_popcountll`: the number of 1-bits. -/
def popcount (n : Nat) : Nat :=
  if n = 0 then 0 else n % 2 + popcount (n / 2)
termination_by n
decreasing_by omega

/-- `blake3_hasher`. -/
@[ext] structure Hasher where
  key : List UInt32
  chunk : ChunkState
  cvStack : List (List UInt8)
  deriving DecidableEq, Repr

/-! ## Init variants -/

/-- `blake3_hasher_init`. -/
def blake3HasherInit : Hasher where
  key := iv
  chunk := chunkStateInit iv 0
  cvStack := []

/-- `blake3_hasher_init_keyed` with the caller's 32-byte key. -/
def blake3HasherInitKeyed (key : List UInt8) : Hasher where
  key := loadWords key
  chunk := chunkStateInit (loadWords key) Flags.keyedHash
  cvStack := []

/-! ## The CV stack -/

/-- A parent's chaining value: `compress_in_place` of the 64-byte block `left ‖ right`
under the key, with counter 0 and `flags | PARENT`, stored as bytes. -/
def parentCv (key : List UInt32) (flags : UInt8) (left right : List UInt8) : List UInt8 :=
  storeWords (compressInPlace key (left ++ right) 64 0 (flags ||| Flags.parent))

/-- The `while (cv_stack_len > post_merge_stack_len)` loop of `hasher_merge_cv_stack`: the
top two entries become their parent. With fewer than two entries the step would read
`cv_stack[-32]`: `none`. -/
def mergeCvStackLoop (key : List UInt32) (flags : UInt8) (postMergeStackLen : Nat)
    (stack : List (List UInt8)) : Option (List (List UInt8)) :=
  if postMergeStackLen < stack.length then
    match stack with
    | right :: left :: rest =>
        mergeCvStackLoop key flags postMergeStackLen (parentCv key flags left right :: rest)
    | _ => none
  else some stack
termination_by stack.length

/-- `hasher_merge_cv_stack`: merge down to `popcount(total_len)` entries. -/
def hasherMergeCvStack (self : Hasher) (totalLen : Nat) : Option Hasher :=
  (mergeCvStackLoop self.key self.chunk.flags (popcount totalLen) self.cvStack).map
    fun stack => { self with cvStack := stack }

/-- `hasher_push_cv`: merge, then copy the new chaining value to
`cv_stack[cv_stack_len]`, which lies past the array unless
`cv_stack_len ≤ BLAKE3_MAX_DEPTH`: `none`. -/
def hasherPushCv (self : Hasher) (newCv : List UInt8) (chunkCounter : Nat) : Option Hasher :=
  match hasherMergeCvStack self chunkCounter with
  | none => none
  | some self =>
      if self.cvStack.length ≤ blake3MaxDepth then some { self with cvStack := newCv :: self.cvStack }
      else none

/-- The `if (chunk_state_len(&self->chunk) == BLAKE3_CHUNK_LEN)` block at the head of the
update loop: a full chunk's chaining value is pushed with
`total_chunks = chunk_counter + 1`, and the next chunk starts with that counter. -/
def hasherPushFullChunk (self : Hasher) : Option Hasher :=
  if chunkStateLen self.chunk = blake3ChunkLen then
    let totalChunks := self.chunk.chunkCounter + 1
    match hasherPushCv self (chunkStateOutput self.chunk) totalChunks with
    | none => none
    | some self =>
        some { self with
          chunk := { chunkStateInit self.key self.chunk.flags with chunkCounter := totalChunks } }
  else some self

/-! ## Update -/

/-- `blake3_hasher_update`. Each pass of the loop pushes a full chunk, then feeds the
current chunk `min(BLAKE3_CHUNK_LEN - chunk_state_len, input_len)` bytes. That amount is
positive on every state a run reaches (the chunk never holds more than 1024 bytes); from a
state with a longer chunk the C loop would go on with a wrapped `want`, and the model
stops with `none`. -/
def blake3HasherUpdate (self : Hasher) (input : List UInt8) : Option Hasher :=
  if 0 < input.length then
    match hasherPushFullChunk self with
    | none => none
    | some self =>
        let take := min (blake3ChunkLen - chunkStateLen self.chunk) input.length
        if 0 < take then
          blake3HasherUpdate { self with chunk := chunkStateUpdate self.chunk (input.take take) }
            (input.drop take)
        else none
  else some self
termination_by input.length
decreasing_by simp only [List.length_drop]; omega

/-! ## Finalize -/

/-- The `while (out_len > 0)` loop of the single-chunk branch of
`blake3_hasher_finalize_seek`: whole output blocks from `output_block_counter` on. -/
def finalizeOutputBlocks (chunk : ChunkState) (blockFlags : UInt8) (outputBlockCounter : Nat)
    (outLen : Nat) : List UInt8 :=
  if 0 < outLen then
    let wideBuf := compressXof chunk.cv chunk.buf chunk.bufLen.toUInt8 outputBlockCounter blockFlags
    let copyLen := min outLen 64
    wideBuf.take copyLen ++
      finalizeOutputBlocks chunk blockFlags (outputBlockCounter + 1) (outLen - copyLen)
  else []
termination_by outLen

/-- The `while (num_cvs > 0)` loop of the multi-chunk branch: each stack entry, top first,
becomes the left sibling of the running chaining value; the bottom one's parent is the
root. -/
def hasherFinalizeFold (key : List UInt32) (flags : UInt8) :
    List (List UInt8) → List UInt8 → List UInt8
  | [], right => right
  | cv :: rest, right =>
      hasherFinalizeFold key flags rest
        (storeWords (compressInPlace key (cv ++ right) 64 0
          (flags ||| Flags.parent ||| if rest = [] then Flags.root else 0)))

/-- `blake3_hasher_finalize_seek`: the bytes written to `out[0 ..]`. With an empty stack
they are `out_len` bytes of the root's output stream from byte `seek` on; otherwise the
first `min(out_len, 32)` bytes of the root chaining value. -/
def blake3HasherFinalizeSeek (self : Hasher) (seek outLen : Nat) : List UInt8 :=
  if outLen = 0 then []
  else if self.cvStack.length = 0 then
    let blockFlags :=
      self.chunk.flags ||| chunkStateMaybeStartFlag self.chunk ||| Flags.chunkEnd ||| Flags.root
    let outputBlockCounter := seek / 64
    let offsetWithinBlock := seek % 64
    let wideBuf := compressXof self.chunk.cv self.chunk.buf self.chunk.bufLen.toUInt8
      outputBlockCounter blockFlags
    let copyLen := min outLen (64 - offsetWithinBlock)
    (wideBuf.drop offsetWithinBlock).take copyLen ++
      finalizeOutputBlocks self.chunk blockFlags (outputBlockCounter + 1) (outLen - copyLen)
  else
    (hasherFinalizeFold self.key self.chunk.flags self.cvStack (chunkStateOutput self.chunk)).take
      (min outLen blake3OutLen)

/-- `blake3_hasher_finalize`. -/
def blake3HasherFinalize (self : Hasher) (outLen : Nat) : List UInt8 :=
  blake3HasherFinalizeSeek self 0 outLen

/-! ## Derived key, reset, one-shot hash -/

/-- `blake3_hasher_init_derive_key_raw`: hash the context under `DERIVE_KEY_CONTEXT`, then
use the 32-byte result as the key of a `DERIVE_KEY_MATERIAL` hasher. -/
def blake3HasherInitDeriveKeyRaw (context : List UInt8) : Option Hasher :=
  let contextHasher : Hasher :=
    { key := iv, chunk := chunkStateInit iv Flags.deriveKeyContext, cvStack := [] }
  (blake3HasherUpdate contextHasher context).map fun contextHasher =>
    let contextKeyWords := loadWords (blake3HasherFinalize contextHasher blake3KeyLen)
    { key := contextKeyWords, chunk := chunkStateInit contextKeyWords Flags.deriveKeyMaterial,
      cvStack := [] }

/-- `blake3_hasher_init_derive_key`: the context string up to its terminating NUL. -/
def blake3HasherInitDeriveKey (context : List UInt8) : Option Hasher :=
  blake3HasherInitDeriveKeyRaw (context.takeWhile (· ≠ 0))

/-- `blake3_hasher_reset`: a fresh chunk under the same key, keeping only the
`KEYED_HASH | DERIVE_KEY_MATERIAL` bits of the flags, and an empty stack. -/
def blake3HasherReset (self : Hasher) : Hasher :=
  { self with
    chunk := chunkStateInit self.key
      (self.chunk.flags &&& (Flags.keyedHash ||| Flags.deriveKeyMaterial))
    cvStack := [] }

/-- `blake3_hash`: init, update, and the 32-byte finalize. -/
def blake3Hash (input : List UInt8) : Option (List UInt8) :=
  (blake3HasherUpdate blake3HasherInit input).map fun hasher =>
    blake3HasherFinalize hasher blake3OutLen

end Mining.Blake3
