import Mining.Blake3.Output

/-!
# The tree `blake3.c` hashes

`blake3_hasher_update` keeps a stack of chaining values of subtrees, and `finalize` folds
the stack onto the last chunk. Run on symbolic trees instead of chaining values, the same
stack discipline builds a binary tree over the input's chunks, `codeTree`; BLAKE3 hashes the
left-balanced tree `specTree`. Both are read through one evaluation, `ChunkTree.rootHash`,
with the node rules of `Mining.Blake3.Reference`.

* `Refines.hasherAbsorb`: one byte of the hasher refines one byte of the tree-level update,
  so a whole `update` does (`Refines.foldlM`), and `finalize` hashes the tree the stack
  describes (`blake3HasherFinalize_of_refines`).
* `TreeState.Inv`: the tree-level state holds the input in chunks of 1024 bytes and the
  current chunk; `codeTree` has the input's chunks as its leaves, in order, each once
  (`leaves_codeTree`).
* `specHash_eq_rootHash`: BLAKE3's digest is the root hash of `specTree`.
* `codeTree_eq_specTree_iff`: the two trees agree exactly on inputs of at most two chunks.
  From three chunks on, the root's left subtree in `codeTree` has an odd number of chunks
  (`TreeState.OddBottom`), where BLAKE3's has a positive power of two.
* `digest_eq_codeTree_rootHash` puts the four together for every input of a `size_t`.
-/

namespace Mining.Blake3

/-! ## Trees over chunks -/

/-- The shape of a BLAKE3 hash tree, each leaf a chunk's bytes. -/
inductive ChunkTree where
  | leaf (chunk : List UInt8)
  | node (left right : ChunkTree)
  deriving DecidableEq, Repr

namespace ChunkTree

/-- The chunks of a tree, left to right. -/
def leaves : ChunkTree → List (List UInt8)
  | leaf chunk => [chunk]
  | node left right => left.leaves ++ right.leaves

/-- The chaining value BLAKE3 gives a non-root subtree whose first chunk is chunk `start`
of the input. -/
def cv (key : List UInt32) (mode : UInt8) : Nat → ChunkTree → List UInt8
  | start, leaf chunk => storeWords (specChunkCv key mode start chunk 0)
  | start, node left right =>
      storeWords (compressInPlace key
        (left.cv key mode start ++ right.cv key mode (start + left.leaves.length)) 64 0
        (mode ||| Flags.parent))

/-- The 32-byte root hash BLAKE3 gives a tree: a chunk or a parent compressed with `ROOT`. -/
def rootHash (key : List UInt32) (mode : UInt8) : ChunkTree → List UInt8
  | leaf chunk => storeWords (specChunkCv key mode 0 chunk Flags.root)
  | node left right =>
      storeWords (compressInPlace key (left.cv key mode 0 ++ right.cv key mode left.leaves.length)
        64 0 (mode ||| Flags.parent ||| Flags.root))

theorem length_leaves_pos (t : ChunkTree) : 0 < t.leaves.length := by
  cases t with
  | leaf chunk => exact Nat.one_pos
  | node left right =>
      rw [leaves, List.length_append]
      exact Nat.add_pos_left left.length_leaves_pos _

end ChunkTree

/-- The chunks of a stack of subtrees, top first, in input order. -/
def stackLeaves : List ChunkTree → List (List UInt8)
  | [] => []
  | t :: below => stackLeaves below ++ t.leaves

/-- The chaining values of a stack of subtrees, top first: a subtree's first chunk comes
after the chunks of the subtrees below it. -/
def stackCvs (key : List UInt32) (mode : UInt8) : List ChunkTree → List (List UInt8)
  | [] => []
  | t :: below => t.cv key mode (stackLeaves below).length :: stackCvs key mode below

@[simp] theorem length_stackCvs (key : List UInt32) (mode : UInt8) (stack : List ChunkTree) :
    (stackCvs key mode stack).length = stack.length := by
  induction stack with
  | nil => rfl
  | cons t below ih => rw [stackCvs, List.length_cons, ih, List.length_cons]

/-! ## The update on trees -/

/-- `hasher_merge_cv_stack` on subtrees: the top two become siblings until
`postMergeStackLen` entries remain. -/
def mergeTrees (postMergeStackLen : Nat) (stack : List ChunkTree) : List ChunkTree :=
  match stack with
  | right :: left :: rest =>
      if postMergeStackLen < rest.length + 2 then
        mergeTrees postMergeStackLen (.node left right :: rest)
      else stack
  | _ => stack
termination_by stack.length

/-- The tree-level state of a hasher: the stack of subtrees, top first, and the bytes of
the current chunk. -/
structure TreeState where
  stack : List ChunkTree
  chunk : List UInt8
  deriving DecidableEq, Repr

/-- One byte of `blake3_hasher_update` on trees: a full chunk becomes a leaf on the stack
merged to `popcount(chunk_counter + 1)` entries, where `chunk_counter` is the number of
chunks on the stack, and the byte starts the next chunk. -/
def treeAbsorb (s : TreeState) (b : UInt8) : TreeState :=
  if s.chunk.length = blake3ChunkLen then
    ⟨.leaf s.chunk :: mergeTrees (popcount ((stackLeaves s.stack).length + 1)) s.stack, [b]⟩
  else ⟨s.stack, s.chunk ++ [b]⟩

/-- The tree `blake3_hasher_finalize` hashes: each stack entry, top first, becomes the left
sibling of the tree so far, which starts as the current chunk. -/
def finalTree (s : TreeState) : ChunkTree :=
  s.stack.foldl (fun right left => .node left right) (.leaf s.chunk)

/-- The tree the code hashes for an input: the tree-level update from an empty stack. -/
def codeTree (input : List UInt8) : ChunkTree := finalTree (input.foldl treeAbsorb ⟨[], []⟩)

/-! ## Merging -/

theorem stackLeaves_mergeTrees (post : Nat) (stack : List ChunkTree) :
    stackLeaves (mergeTrees post stack) = stackLeaves stack := by
  induction stack using mergeTrees.induct post with
  | case1 right left rest more ih =>
      rw [mergeTrees, if_pos more, ih]
      simp only [stackLeaves, ChunkTree.leaves, List.append_assoc]
  | case2 right left rest done => rw [mergeTrees, if_neg done]
  | case3 stack short => rw [mergeTrees.eq_def]; split <;> simp_all

/-- The merge loop on the stack's chaining values is the merge on its subtrees. -/
theorem mergeCvStackLoop_stackCvs (key : List UInt32) (mode : UInt8) (post : Nat)
    (stack : List ChunkTree) {merged : List (List UInt8)}
    (loop : mergeCvStackLoop key mode post (stackCvs key mode stack) = some merged) :
    merged = stackCvs key mode (mergeTrees post stack) := by
  induction stack using mergeTrees.induct post with
  | case1 right left rest more ih =>
      have step : mergeCvStackLoop key mode post (stackCvs key mode (right :: left :: rest)) =
          mergeCvStackLoop key mode post (stackCvs key mode (.node left right :: rest)) := by
        rw [mergeCvStackLoop.eq_def, if_pos (by simpa only [length_stackCvs] using more)]
        simp only [stackCvs, stackLeaves, List.length_append]
        rfl
      rw [mergeTrees, if_pos more]
      exact ih (step ▸ loop)
  | case2 right left rest done =>
      rw [mergeTrees, if_neg done]
      rw [mergeCvStackLoop.eq_def, if_neg (by simpa only [length_stackCvs] using done)] at loop
      exact (Option.some.inj loop).symm
  | case3 stack short =>
      rw [mergeTrees.eq_def]
      match stack, short with
      | [], _ =>
          rw [mergeCvStackLoop.eq_def] at loop
          simpa [stackCvs] using loop.symm
      | [t], _ =>
          rw [mergeCvStackLoop.eq_def] at loop
          split at loop
          · simp [stackCvs] at loop
          · exact (Option.some.inj loop).symm
      | _ :: _ :: _, short => exact absurd rfl (short _ _ _)

/-! ## The hasher refines the tree-level update -/

/-- A hasher holds the chaining values of a tree-level stack, and the chunk state of the
current chunk numbered by the chunks on the stack. -/
structure Refines (key : List UInt32) (mode : UInt8) (h : Hasher) (s : TreeState) : Prop where
  key_eq : h.key = key
  stack_eq : h.cvStack = stackCvs key mode s.stack
  chunk_eq : h.chunk = s.chunk.foldl chunkStateAbsorb
    { chunkStateInit key mode with chunkCounter := (stackLeaves s.stack).length }

theorem Refines.fresh (key : List UInt32) (mode : UInt8) :
    Refines key mode ⟨key, chunkStateInit key mode, []⟩ ⟨[], []⟩ := ⟨rfl, rfl, rfl⟩

section Refinement

variable {key : List UInt32} {mode : UInt8}

/-- One byte of the hasher is one byte of the tree-level update. -/
theorem Refines.hasherAbsorb {h h' : Hasher} {s : TreeState} {b : UInt8}
    (ref : Refines key mode h s) (step : hasherAbsorb h b = some h') :
    Refines key mode h' (treeAbsorb s b) := by
  obtain ⟨h1, push, rfl⟩ := hasherAbsorb_eq_some step
  obtain ⟨counter, flags⟩ := foldl_chunkStateAbsorb_fields
    { chunkStateInit key mode with chunkCounter := (stackLeaves s.stack).length } s.chunk
  have len : chunkStateLen h.chunk = s.chunk.length := by
    rw [ref.chunk_eq, chunkStateLen_foldl]
    exact Nat.zero_add _
  rcases hasherPushFullChunk_eq_some push with
    ⟨room, rfl⟩ | ⟨full, key1, chunk1, merged, loop, -, stack1⟩
  · -- the chunk has room: the byte joins it
    have notFull : s.chunk.length ≠ blake3ChunkLen := len ▸ room
    simp only [treeAbsorb, if_neg notFull]
    exact ⟨ref.key_eq, ref.stack_eq, by
      rw [ref.chunk_eq, List.foldl_append, List.foldl_cons, List.foldl_nil]⟩
  · -- a full chunk: its chaining value goes on the merged stack, and the byte starts the next
    have isFull : s.chunk.length = blake3ChunkLen := len ▸ full
    rw [ref.chunk_eq, counter, flags, ref.key_eq, ref.stack_eq] at loop
    have output : chunkStateOutput h.chunk =
        storeWords (specChunkCv key mode (stackLeaves s.stack).length s.chunk 0) := by
      rw [ref.chunk_eq]
      exact chunkStateOutput_eq_specChunkCv key mode _ s.chunk
    simp only [treeAbsorb, if_pos isFull]
    refine ⟨key1.trans ref.key_eq, ?_, ?_⟩
    · rw [stack1, output, mergeCvStackLoop_stackCvs key mode _ s.stack loop, stackCvs,
        stackLeaves_mergeTrees]
      rfl
    · rw [chunk1, ref.chunk_eq, counter, flags, ref.key_eq]
      simp only [stackLeaves, ChunkTree.leaves, List.length_append, stackLeaves_mergeTrees,
        List.length_singleton, List.foldl_cons, List.foldl_nil]
      rfl

/-- A whole update of the hasher refines the tree-level update over the same bytes. -/
theorem Refines.foldlM {h h' : Hasher} {s : TreeState} (ref : Refines key mode h s)
    {input : List UInt8} (run : input.foldlM Mining.Blake3.hasherAbsorb h = some h') :
    Refines key mode h' (input.foldl treeAbsorb s) := by
  induction input generalizing h s with
  | nil =>
      cases run
      exact ref
  | cons b input ih =>
      rw [List.foldlM_cons, Option.bind_eq_bind, Option.bind_eq_some] at run
      obtain ⟨h1, first, run⟩ := run
      exact ih (ref.hasherAbsorb first) run

/-- The fold of `finalize` over the stack's chaining values hashes the tree that the stack,
top entry first, and the tree `right` after it describe. -/
theorem hasherFinalizeFold_stackCvs (key : List UInt32) (mode : UInt8) {stack : List ChunkTree}
    (nonempty : stack ≠ []) (right : ChunkTree) :
    hasherFinalizeFold key mode (stackCvs key mode stack)
        (right.cv key mode (stackLeaves stack).length) =
      (stack.foldl (fun right left => .node left right) right).rootHash key mode := by
  induction stack generalizing right with
  | nil => exact absurd rfl nonempty
  | cons t below ih =>
      by_cases bottom : below = []
      · subst bottom
        rfl
      · have parent : storeWords (compressInPlace key
            (t.cv key mode (stackLeaves below).length ++
              right.cv key mode (stackLeaves (t :: below)).length) 64 0
            (mode ||| Flags.parent ||| 0)) =
            (ChunkTree.node t right).cv key mode (stackLeaves below).length := by
          rw [uint8_or_zero, ChunkTree.cv, stackLeaves, List.length_append]
        rw [stackCvs, hasherFinalizeFold, if_neg (by simpa only [ne_eq, ← List.length_eq_zero,
          length_stackCvs] using bottom), parent, List.foldl_cons]
        exact ih bottom _

/-- `finalize` with 32 bytes hashes the tree of the tree-level state the hasher refines. -/
theorem blake3HasherFinalize_of_refines {key : List UInt32} {mode : UInt8} {h : Hasher}
    {s : TreeState} (ref : Refines key mode h s) :
    blake3HasherFinalize h blake3OutLen = (finalTree s).rootHash key mode := by
  obtain ⟨counter, flags⟩ := foldl_chunkStateAbsorb_fields
    { chunkStateInit key mode with chunkCounter := (stackLeaves s.stack).length } s.chunk
  obtain ⟨stack, chunk⟩ := s
  cases stack with
  | nil =>
      -- one chunk: the root is its last block
      rw [show h = ⟨key, _, []⟩ from Hasher.ext ref.key_eq ref.chunk_eq ref.stack_eq,
        blake3HasherFinalize_one_chunk]
      exact congrArg storeWords (chunkCompress_eq_specChunkCv key mode 0 chunk Flags.root)
  | cons t below =>
      -- the stack folds onto the current chunk's chaining value
      have output : chunkStateOutput h.chunk =
          (ChunkTree.leaf chunk).cv key mode (stackLeaves (t :: below)).length := by
        rw [ref.chunk_eq]
        exact chunkStateOutput_eq_specChunkCv key mode _ chunk
      have fold := hasherFinalizeFold_stackCvs key mode (List.cons_ne_nil t below)
        (ChunkTree.leaf chunk)
      have root : hasherFinalizeFold h.key h.chunk.flags h.cvStack (chunkStateOutput h.chunk) =
          (finalTree ⟨t :: below, chunk⟩).rootHash key mode := by
        rw [ref.key_eq, ref.stack_eq, ref.chunk_eq, flags, ← ref.chunk_eq, output]
        exact fold
      have wide : (hasherFinalizeFold h.key h.chunk.flags h.cvStack
          (chunkStateOutput h.chunk)).length = 32 := by
        rw [hasherFinalizeFold_eq _ _ (by rw [ref.stack_eq]; exact List.cons_ne_nil _ _)]
        simp
      have pushed : h.cvStack.length ≠ 0 := by
        rw [ref.stack_eq, length_stackCvs]
        exact Nat.succ_ne_zero _
      simp only [blake3HasherFinalize, blake3HasherFinalizeSeek, blake3OutLen,
        if_neg (show (32 : Nat) ≠ 0 by decide), if_neg pushed, Nat.min_self]
      rw [List.take_of_length_le (Nat.le_of_eq wide), root]

end Refinement

/-! ## The leaves of the code's tree -/

theorem leaves_foldl_node (stack : List ChunkTree) (right : ChunkTree) :
    (stack.foldl (fun right left => .node left right) right).leaves =
      stackLeaves stack ++ right.leaves := by
  induction stack generalizing right with
  | nil => rfl
  | cons t below ih =>
      rw [List.foldl_cons, ih, stackLeaves, ChunkTree.leaves, List.append_assoc]

/-- The tree-level state after the bytes `input`: the chunks on the stack are full and,
followed by the current chunk, spell the input; a chunk is pushed only with a byte after it. -/
structure TreeState.Inv (input : List UInt8) (s : TreeState) : Prop where
  spells : (stackLeaves s.stack).flatten ++ s.chunk = input
  full : ∀ c ∈ stackLeaves s.stack, c.length = blake3ChunkLen
  chunk_le : s.chunk.length ≤ blake3ChunkLen
  started : s.stack ≠ [] → s.chunk ≠ []

theorem TreeState.Inv.init : TreeState.Inv [] ⟨[], []⟩ :=
  ⟨rfl, fun _ mem => absurd mem (List.not_mem_nil _), Nat.zero_le _, fun empty => absurd rfl empty⟩

theorem TreeState.Inv.treeAbsorb {input : List UInt8} {s : TreeState} (inv : s.Inv input)
    (b : UInt8) : (treeAbsorb s b).Inv (input ++ [b]) := by
  unfold Mining.Blake3.treeAbsorb
  split
  · rename_i isFull
    refine ⟨?_, ?_, by simp [blake3ChunkLen], fun _ => List.cons_ne_nil b []⟩
    · rw [← inv.spells]
      simp only [stackLeaves, stackLeaves_mergeTrees, ChunkTree.leaves, List.flatten_append,
        List.flatten_singleton, List.append_assoc]
    · intro c mem
      simp only [stackLeaves, stackLeaves_mergeTrees, ChunkTree.leaves, List.mem_append,
        List.mem_singleton] at mem
      rcases mem with stacked | rfl
      · exact inv.full c stacked
      · exact isFull
  · rename_i notFull
    have room := inv.chunk_le
    exact ⟨by rw [← List.append_assoc, inv.spells], inv.full,
      by rw [List.length_append, List.length_singleton]; omega,
      fun _ => List.append_ne_nil_of_right_ne_nil _ (List.cons_ne_nil b [])⟩

theorem TreeState.Inv.foldl {input : List UInt8} {s : TreeState} (inv : s.Inv input)
    (rest : List UInt8) : (rest.foldl Mining.Blake3.treeAbsorb s).Inv (input ++ rest) := by
  induction rest generalizing input s with
  | nil => simpa only [List.foldl_nil, List.append_nil] using inv
  | cons b rest ih =>
      rw [List.foldl_cons, ← List.singleton_append, ← List.append_assoc]
      exact ih (inv.treeAbsorb b)

/-- BLAKE3's chunks of an input, in order. -/
def specChunks (input : List UInt8) : List (List UInt8) :=
  (List.range (specChunkCount input)).map (specChunk input)

/-- Full chunks followed by a last chunk of at most 1024 bytes, nonempty after a full one,
are the spec's chunks of their concatenation. -/
theorem specChunks_of_full {chunks : List (List UInt8)} {last : List UInt8}
    (full : ∀ c ∈ chunks, c.length = blake3ChunkLen) (short : last.length ≤ blake3ChunkLen)
    (started : chunks ≠ [] → last ≠ []) :
    specChunks (chunks.flatten ++ last) = chunks ++ [last] := by
  induction chunks with
  | nil =>
      have one : specChunkCount last = 1 := by
        simp only [specChunkCount, blake3ChunkLen] at short ⊢
        omega
      simp only [specChunks, List.flatten_nil, List.nil_append, one, show List.range 1 = [0] from rfl, List.map_cons,
        List.map_nil, specChunk, Nat.mul_zero, List.drop_zero,
        List.take_of_length_le (show last.length ≤ 1024 from short)]
  | cons c chunks ih =>
      have width : c.length = 1024 := full c (List.mem_cons_self c chunks)
      have rest : 0 < (chunks.flatten ++ last).length := by
        by_cases none : chunks = []
        · subst none
          exact List.length_pos.2 (started (List.cons_ne_nil c []))
        · obtain ⟨d, more, rfl⟩ := List.exists_cons_of_ne_nil none
          have := full d (List.mem_cons_of_mem c (List.mem_cons_self d more))
          simp only [List.flatten_cons, List.length_append] at this ⊢
          simp only [blake3ChunkLen] at this
          omega
      have count : specChunkCount (c ++ (chunks.flatten ++ last)) =
          specChunkCount (chunks.flatten ++ last) + 1 := by
        simp only [specChunkCount, List.length_append, width] at rest ⊢
        omega
      have first : specChunk (c ++ (chunks.flatten ++ last)) 0 = c := by
        rw [specChunk, Nat.mul_zero, List.drop_zero, List.take_left' width]
      have later : ∀ i, specChunk (c ++ (chunks.flatten ++ last)) (i + 1) =
          specChunk (chunks.flatten ++ last) i := by
        intro i
        rw [specChunk, specChunk, show 1024 * (i + 1) = c.length + 1024 * i by omega,
          ← List.drop_drop, List.drop_left]
      rw [List.flatten_cons, List.append_assoc, specChunks, count, List.range_succ_eq_map,
        List.map_cons, List.map_map, first]
      simp only [Function.comp_def, Nat.succ_eq_add_one, later]
      rw [← specChunks, ih (fun d mem => full d (List.mem_cons_of_mem c mem))
        (fun _ => started (List.cons_ne_nil c chunks)), List.cons_append]

/-- The code's tree has the input's chunks as its leaves, in order, each once. -/
theorem leaves_codeTree (input : List UInt8) : (codeTree input).leaves = specChunks input := by
  have inv := TreeState.Inv.init.foldl input
  rw [List.nil_append] at inv
  have chunks := specChunks_of_full inv.full inv.chunk_le
    (fun pushed => inv.started fun empty => pushed (by rw [empty]; rfl))
  rw [inv.spells] at chunks
  rw [codeTree, finalTree, leaves_foldl_node, ChunkTree.leaves, chunks]

/-! ## BLAKE3's tree -/

/-- BLAKE3's tree over chunks `start ..< start + count` of an input;
the left subtree holds the largest power of two of chunks strictly below `count`. -/
def specTree (input : List UInt8) (start count : Nat) : ChunkTree :=
  if count ≤ 1 then .leaf (specChunk input start)
  else
    .node (specTree input start (specLeftCount count))
      (specTree input (start + specLeftCount count) (count - specLeftCount count))
termination_by count
decreasing_by
  · exact specLeftCount_lt (by omega)
  · have := specLeftCount_pos count
    omega

theorem specTree_of_le (input : List UInt8) (start : Nat) {count : Nat} (small : count ≤ 1) :
    specTree input start count = .leaf (specChunk input start) := by
  rw [specTree, if_pos small]

theorem specTree_of_lt (input : List UInt8) (start : Nat) {count : Nat} (large : 1 < count) :
    specTree input start count =
      .node (specTree input start (specLeftCount count))
        (specTree input (start + specLeftCount count) (count - specLeftCount count)) := by
  rw [specTree, if_neg (by omega)]

theorem leaves_specTree (input : List UInt8) (start : Nat) {count : Nat} (pos : 0 < count) :
    (specTree input start count).leaves = (List.range' start count).map (specChunk input) := by
  induction count using Nat.strongRecOn generalizing start with
  | ind count ih =>
    by_cases small : count ≤ 1
    · rw [specTree_of_le input start small, show count = 1 by omega]
      rfl
    · have left := specLeftCount_lt (show 1 < count by omega)
      have leftPos := specLeftCount_pos count
      rw [specTree_of_lt input start (by omega), ChunkTree.leaves, ih _ left start leftPos,
        ih _ (by omega) _ (by omega), ← List.map_append, List.range'_append_1,
        Nat.sub_add_cancel left.le]

/-- The BLAKE3 subtrees are the chaining values of `specTree`. -/
theorem specSubtree_eq_cv (key : List UInt32) (mode : UInt8) (input : List UInt8) (start : Nat)
    {count : Nat} (pos : 0 < count) :
    specSubtree (fun i => storeWords (specChunkCv key mode i (specChunk input i) 0))
        (fun left right =>
          storeWords (compressInPlace key (left ++ right) 64 0 (mode ||| Flags.parent)))
        start count =
      (specTree input start count).cv key mode start := by
  induction count using Nat.strongRecOn generalizing start with
  | ind count ih =>
    by_cases small : count ≤ 1
    · rw [specSubtree_of_le small, specTree_of_le input start small]
      rfl
    · have left := specLeftCount_lt (show 1 < count by omega)
      have leftPos := specLeftCount_pos count
      rw [specSubtree_of_lt (by omega), specTree_of_lt input start (by omega), ChunkTree.cv,
        leaves_specTree input start leftPos, List.length_map, List.length_range',
        ih _ left start leftPos, ih _ (by omega) _ (by omega)]

/-- BLAKE3's digest is the root hash of its tree over the input's chunks. -/
theorem specHash_eq_rootHash (key : List UInt32) (mode : UInt8) (input : List UInt8) :
    specHash key mode input =
      (specTree input 0 (specChunkCount input)).rootHash key mode := by
  by_cases small : specChunkCount input ≤ 1
  · rw [specHash, if_pos small, specTree_of_le input 0 small]
    rfl
  · have left := specLeftCount_lt (show 1 < specChunkCount input by omega)
    have leftPos := specLeftCount_pos (specChunkCount input)
    rw [specHash, if_neg small, specTree_of_lt input 0 (by omega), ChunkTree.rootHash,
      leaves_specTree input 0 leftPos, List.length_map, List.length_range',
      ← specSubtree_eq_cv key mode input 0 leftPos, Nat.zero_add,
      ← specSubtree_eq_cv key mode input _ (by omega)]

theorem leaves_specTree_chunks (input : List UInt8) :
    (specTree input 0 (specChunkCount input)).leaves = specChunks input := by
  rw [leaves_specTree input 0 (by unfold specChunkCount; omega), specChunks,
    List.range_eq_range']

/-! ## Where the two trees part -/

/-- A tree of at most two chunks is determined by its chunks. -/
theorem ChunkTree.eq_of_leaves_eq {t u : ChunkTree} (short : t.leaves.length ≤ 2)
    (same : t.leaves = u.leaves) : t = u := by
  have lengths := congrArg List.length same
  induction t generalizing u with
  | leaf c =>
      cases u with
      | leaf d =>
          simp only [leaves, List.cons.injEq, and_true] at same
          rw [same]
      | node l r =>
          have := l.length_leaves_pos
          have := r.length_leaves_pos
          simp only [leaves, List.length_append, List.length_singleton] at lengths
          omega
  | node l r ihl ihr =>
      have := l.length_leaves_pos
      have := r.length_leaves_pos
      cases u with
      | leaf d =>
          simp only [leaves, List.length_append, List.length_singleton] at lengths
          omega
      | node l' r' =>
          have := l'.length_leaves_pos
          have := r'.length_leaves_pos
          simp only [leaves, List.length_append] at short same lengths
          obtain ⟨sameLeft, sameRight⟩ := List.append_inj same (by omega)
          rw [ihl (by omega) sameLeft (by rw [sameLeft]), ihr (by omega) sameRight (by rw [sameRight])]

theorem mergeTrees_singleton (post : Nat) (t : ChunkTree) : mergeTrees post [t] = [t] := by
  rw [mergeTrees.eq_def]

/-- Merging leaves the bottom of the stack alone, unless it merges the whole stack into
one tree, which the target `popcount(chunk_counter + 1)` allows only when it is 1. -/
theorem mergeTrees_getLast? (post : Nat) (stack : List ChunkTree) :
    (mergeTrees post stack).getLast? = stack.getLast? ∨
      post ≤ 1 ∧ ∃ t, mergeTrees post stack = [t] ∧ t.leaves = stackLeaves stack := by
  induction stack using mergeTrees.induct post with
  | case1 right left rest more ih =>
      have same : stackLeaves (.node left right :: rest) = stackLeaves (right :: left :: rest) := by
        simp only [stackLeaves, ChunkTree.leaves, List.append_assoc]
      rw [mergeTrees, if_pos more]
      rcases ih with bottom | ⟨small, t, merged, leaves⟩
      · cases rest with
        | nil =>
            exact .inr ⟨by simpa only [List.length_nil] using Nat.le_of_lt_succ more,
              .node left right, mergeTrees_singleton post _, same⟩
        | cons below rest =>
            rw [bottom]
            exact .inl (by simp only [List.getLast?_cons_cons])
      · exact .inr ⟨small, t, merged, leaves.trans same⟩
  | case2 right left rest done => exact .inl (by rw [mergeTrees, if_neg done])
  | case3 stack short => exact .inl (by rw [mergeTrees.eq_def]; split <;> simp_all)

/-- `popcount(k + 1) = 1` with `k > 0` makes `k + 1` even. -/
theorem odd_of_popcount_succ_eq_one {k : Nat} (pos : 0 < k) (one : popcount (k + 1) = 1) :
    k % 2 = 1 := by
  rw [popcount_eq] at one
  by_cases odd : (k + 1) % 2 = 1
  · have half : popcount ((k + 1) / 2) = 0 := by omega
    have := popcount_pos (n := (k + 1) / 2)
    omega
  · omega

/-- The bottom entry of the stack holds an odd number of chunks. -/
def TreeState.OddBottom (s : TreeState) : Prop :=
  ∀ t ∈ s.stack.getLast?, t.leaves.length % 2 = 1

theorem TreeState.OddBottom.treeAbsorb {s : TreeState} (odd : s.OddBottom) (b : UInt8) :
    (treeAbsorb s b).OddBottom := by
  unfold Mining.Blake3.treeAbsorb
  split
  · intro t mem
    rw [List.getLast?_cons] at mem
    rcases mergeTrees_getLast? (popcount ((stackLeaves s.stack).length + 1)) s.stack with
      bottom | ⟨small, u, merged, leaves⟩
    · -- the bottom is the old bottom, or the new leaf on an empty stack
      rw [bottom] at mem
      cases last : s.stack.getLast? with
      | none =>
          rw [last, Option.getD_none, Option.mem_def, Option.some.injEq] at mem
          subst mem
          rfl
      | some v =>
          rw [last, Option.getD_some, Option.mem_def, Option.some.injEq] at mem
          subst mem
          exact odd v last
    · -- the whole stack merged into one tree: it holds `chunk_counter` chunks, an odd number
      rw [merged, List.getLast?_singleton, Option.getD_some, Option.mem_def,
        Option.some.injEq] at mem
      have pos := u.length_leaves_pos
      rw [← mem, leaves] at *
      exact odd_of_popcount_succ_eq_one pos (Nat.le_antisymm small (popcount_pos (Nat.succ_pos _)))
  · exact odd

theorem TreeState.OddBottom.foldl {s : TreeState} (odd : s.OddBottom) (input : List UInt8) :
    (input.foldl Mining.Blake3.treeAbsorb s).OddBottom := by
  induction input generalizing s with
  | nil => exact odd
  | cons b input ih => exact ih (odd.treeAbsorb b)

/-- The fold of `finalize` puts the bottom of the stack at the root's left. -/
theorem foldl_node_getLast {stack : List ChunkTree} (pushed : stack ≠ []) (right : ChunkTree) :
    ∃ r, stack.foldl (fun right left => .node left right) right = .node (stack.getLast pushed) r := by
  induction stack generalizing right with
  | nil => exact absurd rfl pushed
  | cons t below ih =>
      by_cases bottom : below = []
      · subst bottom
        exact ⟨right, rfl⟩
      · obtain ⟨r, root⟩ := ih bottom (.node t right)
        exact ⟨r, by rw [List.foldl_cons, root, List.getLast_cons bottom]⟩

/-- From three chunks on, BLAKE3's left subtree holds a positive power of two of chunks. -/
theorem specLeftCount_even {n : Nat} (large : 3 ≤ n) : specLeftCount n % 2 = 0 := by
  have deep : 1 ≤ Nat.log2 (n - 1) := (Nat.le_log2 (by omega)).2 (by omega)
  obtain ⟨j, hj⟩ := Nat.exists_eq_add_of_le deep
  rw [specLeftCount, hj, Nat.pow_add, Nat.pow_one, Nat.mul_mod_right]

/-- The code's tree is BLAKE3's tree exactly on inputs of at most two chunks. -/
theorem codeTree_eq_specTree_iff (input : List UInt8) :
    codeTree input = specTree input 0 (specChunkCount input) ↔ specChunkCount input ≤ 2 := by
  have sameLeaves := (leaves_codeTree input).trans (leaves_specTree_chunks input).symm
  have count : (codeTree input).leaves.length = specChunkCount input := by
    rw [leaves_codeTree, specChunks, List.length_map, List.length_range]
  constructor
  · intro same
    refine Classical.byContradiction fun large => ?_
    have odd := TreeState.OddBottom.foldl (s := ⟨[], []⟩) (fun _ none => nomatch none) input
    rw [codeTree, finalTree] at same count
    generalize input.foldl treeAbsorb ⟨[], []⟩ = s at same count odd
    obtain ⟨stack, chunk⟩ := s
    -- three chunks or more: some chunk was pushed, and the stack's bottom is the root's left
    have pushed : stack ≠ [] := fun empty => by
      subst empty
      simp only [List.foldl_nil, ChunkTree.leaves, List.length_singleton] at count
      omega
    obtain ⟨r, root⟩ := foldl_node_getLast pushed (.leaf chunk)
    rw [root, specTree_of_lt input 0 (by omega)] at same
    have left := congrArg (fun t => t.leaves.length) (ChunkTree.node.inj same).1
    have bottom := odd _ (List.getLast?_eq_getLast stack pushed)
    simp only [leaves_specTree input 0 (specLeftCount_pos _), List.length_map,
      List.length_range'] at left
    have := specLeftCount_even (show 3 ≤ specChunkCount input by omega)
    omega
  · exact fun small => ChunkTree.eq_of_leaves_eq (by omega) sameLeaves

/-! ## The digest -/

/-- For every key, mode bits and input that fits a `size_t`, `update` from a fresh hasher
and the 32-byte `finalize` compute the root hash of the code's tree over the input's chunks,
in order, each once. BLAKE3's digest is the root hash of its own tree over the same chunks,
and the two trees agree exactly on inputs of at most two chunks. -/
theorem digest_eq_codeTree_rootHash (key : List UInt32) (mode : UInt8) {input : List UInt8}
    (short : input.length < 2 ^ 64) :
    (blake3HasherUpdate ⟨key, chunkStateInit key mode, []⟩ input).map
        (blake3HasherFinalize · blake3OutLen) = some ((codeTree input).rootHash key mode) ∧
    (codeTree input).leaves = specChunks input ∧
    specHash key mode input = (specTree input 0 (specChunkCount input)).rootHash key mode ∧
    (specTree input 0 (specChunkCount input)).leaves = specChunks input ∧
    (codeTree input = specTree input 0 (specChunkCount input) ↔ specChunkCount input ≤ 2) := by
  obtain ⟨law, len, wf⟩ := fresh_cvStack_length key mode
  obtain ⟨h, run, -⟩ := foldlM_hasherAbsorb_isSome law input (by rw [len]; omega)
  refine ⟨?_, leaves_codeTree input, specHash_eq_rootHash key mode input,
    leaves_specTree_chunks input, codeTree_eq_specTree_iff input⟩
  rw [blake3HasherUpdate_eq_foldlM wf, run, Option.map_some']
  exact congrArg some (blake3HasherFinalize_of_refines ((Refines.fresh key mode).foldlM run))

/-- Under the key `sampleKey` in keyed mode, 3000 bytes: three chunks, where the two trees
part. -/
theorem digest_eq_codeTree_rootHash_three_chunks :
    (List.replicate 3000 (5 : UInt8)).length < 2 ^ 64 ∧
    (blake3HasherUpdate ⟨loadWords sampleKey, chunkStateInit (loadWords sampleKey) Flags.keyedHash,
        []⟩ (List.replicate 3000 5)).map (blake3HasherFinalize · blake3OutLen) =
      some ((codeTree (List.replicate 3000 5)).rootHash (loadWords sampleKey) Flags.keyedHash) ∧
    (codeTree (List.replicate 3000 5)).leaves = specChunks (List.replicate 3000 5) ∧
    specHash (loadWords sampleKey) Flags.keyedHash (List.replicate 3000 5) =
      (specTree (List.replicate 3000 5) 0 (specChunkCount (List.replicate 3000 5))).rootHash
        (loadWords sampleKey) Flags.keyedHash ∧
    (specTree (List.replicate 3000 5) 0 (specChunkCount (List.replicate 3000 5))).leaves =
      specChunks (List.replicate 3000 5) ∧
    (codeTree (List.replicate 3000 5) =
        specTree (List.replicate 3000 5) 0 (specChunkCount (List.replicate 3000 5)) ↔
      specChunkCount (List.replicate 3000 5) ≤ 2) :=
  have short : (List.replicate 3000 (5 : UInt8)).length < 2 ^ 64 := by
    rw [List.length_replicate]; decide
  ⟨short, digest_eq_codeTree_rootHash _ _ short⟩

end Mining.Blake3
