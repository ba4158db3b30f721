import Mining.Blake3.Reachable

/-!
# The BLAKE3 tree

The digest BLAKE3 defines, written from the description of the hash and not from
`blake3.c`: the input is cut into 1024-byte chunks (one empty chunk for an empty input),
each chunk's chaining value chains the compressions of its zero-padded 64-byte blocks, a
node over `n > 1` chunks has the subtree over the largest power of two below `n` chunks
as its left child and the rest as its right child, and only the root compression carries
`ROOT`. The compression function is the code's `compressInPlace`.

`Mining.Blake3.Tree` compares this digest with the one `blake3_hasher_update` and
`blake3_hasher_finalize` compute.
-/

namespace Mining.Blake3

/-- The number of 64-byte blocks of a chunk, at least one. -/
def specBlockCount (chunk : List UInt8) : Nat := max 1 ((chunk.length + 63) / 64)

/-- Compress block `j` of a chunk of `n` blocks onto `cv`. The block is zero-padded to 64
bytes; the counter is the chunk's index; the first block carries `CHUNK_START`, the last
`CHUNK_END` and `rootFlag`. -/
def specBlockStep (mode : UInt8) (counter : Nat) (chunk : List UInt8) (n : Nat)
    (rootFlag : UInt8) (cv : List UInt32) (j : Nat) : List UInt32 :=
  let block := (chunk.drop (64 * j)).take 64
  compressInPlace cv (block ++ List.replicate (64 - block.length) 0) block.length.toUInt8 counter
    (mode ||| (if j = 0 then Flags.chunkStart else 0) |||
      (if j + 1 = n then Flags.chunkEnd ||| rootFlag else 0))

/-- A chunk's chaining value, its blocks compressed in turn from the key. -/
def specChunkCv (key : List UInt32) (mode : UInt8) (counter : Nat) (chunk : List UInt8)
    (rootFlag : UInt8) : List UInt32 :=
  (List.range (specBlockCount chunk)).foldl
    (specBlockStep mode counter chunk (specBlockCount chunk) rootFlag) key

/-- The largest power of two strictly below `n`, for `n > 1`. -/
def specLeftCount (n : Nat) : Nat := 2 ^ Nat.log2 (n - 1)

theorem specLeftCount_pos (n : Nat) : 0 < specLeftCount n := Nat.two_pow_pos _

theorem specLeftCount_lt {n : Nat} (large : 1 < n) : specLeftCount n < n := by
  have := Nat.log2_self_le (n := n - 1) (by omega)
  unfold specLeftCount
  omega

/-- The chaining value of the subtree over the `count` chunks from chunk `start` on, from the
chunks' values `leaf` and the parent rule `parent`. -/
def specSubtree (leaf : Nat → List UInt8) (parent : List UInt8 → List UInt8 → List UInt8)
    (start count : Nat) : List UInt8 :=
  if count ≤ 1 then leaf start
  else
    parent (specSubtree leaf parent start (specLeftCount count))
      (specSubtree leaf parent (start + specLeftCount count) (count - specLeftCount count))
termination_by count
decreasing_by
  · exact specLeftCount_lt (by omega)
  · have := specLeftCount_pos count
    omega

/-- The number of chunks of an input, at least one. -/
def specChunkCount (input : List UInt8) : Nat := max 1 ((input.length + 1023) / 1024)

/-- Chunk `i` of an input. -/
def specChunk (input : List UInt8) (i : Nat) : List UInt8 := (input.drop (1024 * i)).take 1024

/-- The 32-byte digest under `key` with mode bits `mode`. A parent's chaining value
compresses `left ‖ right` under the key with counter 0, length 64 and `mode | PARENT`; the
root, a chunk or a parent, adds `ROOT`. -/
def specHash (key : List UInt32) (mode : UInt8) (input : List UInt8) : List UInt8 :=
  let n := specChunkCount input
  let leaf := fun i => storeWords (specChunkCv key mode i (specChunk input i) 0)
  let parent := fun left right =>
    storeWords (compressInPlace key (left ++ right) 64 0 (mode ||| Flags.parent))
  if n ≤ 1 then storeWords (specChunkCv key mode 0 (specChunk input 0) Flags.root)
  else
    storeWords (compressInPlace key
      (specSubtree leaf parent 0 (specLeftCount n) ++
        specSubtree leaf parent (specLeftCount n) (n - specLeftCount n))
      64 0 (mode ||| Flags.parent ||| Flags.root))

/-- The key and mode bits of each hashing mode; a derived key is the digest of the context
under `DERIVE_KEY_CONTEXT`. -/
def specKeyMode : InitVariant → List UInt32 × UInt8
  | .default => (iv, 0)
  | .keyed key => (loadWords key, Flags.keyedHash)
  | .deriveKey context =>
      (loadWords (specHash iv Flags.deriveKeyContext context), Flags.deriveKeyMaterial)

/-- The BLAKE3 digest of an input in a hashing mode. -/
def specDigest (v : InitVariant) (input : List UInt8) : List UInt8 :=
  specHash (specKeyMode v).1 (specKeyMode v).2 input

/-! ## Unfolding the tree -/

theorem specSubtree_of_le {leaf : Nat → List UInt8} {parent : List UInt8 → List UInt8 → List UInt8}
    {count : Nat} (small : count ≤ 1) (start : Nat) :
    specSubtree leaf parent start count = leaf start := by
  rw [specSubtree, if_pos small]

theorem specSubtree_of_lt {leaf : Nat → List UInt8} {parent : List UInt8 → List UInt8 → List UInt8}
    {count : Nat} (large : 1 < count) (start : Nat) :
    specSubtree leaf parent start count =
      parent (specSubtree leaf parent start (specLeftCount count))
        (specSubtree leaf parent (start + specLeftCount count) (count - specLeftCount count)) := by
  rw [specSubtree, if_neg (by omega)]

end Mining.Blake3
