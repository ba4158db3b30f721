import Mining.Blake3.Reachable

/-!
# The CV stack

How long the CV stack of `blake3_hasher_update` gets, and why it stays inside its 55-entry
array. `blake3_hasher_update` pushes the chaining value of chunk `N - 1` with
`hasher_push_cv(self, cv, N)`: the stack is first merged down to `popcount(N)` entries,
then the new value goes on top. After `N` chunks the stack therefore holds `cvStackLen N`
entries: `N` for `N ≤ 1`, and `popcount(N) + 1` from two chunks on
(`Reachable.cvStack_length`), so every update from a reachable state that keeps the input
within `2^64` bytes completes (`Reachable.update_isSome`).

* `reachable_chunk_invariants`: in every state reachable by updates and resets, the chunk's
  buffer and counters stay in range, the buffer's tail stays zero, and key and flags stay
  those of the init;
* `blake3HasherReset_fresh`: a reset hasher is the variant's fresh hasher;
* `cvStack_in_bounds`: for every init variant, a run of updates with fewer than 2^64
  bytes in all completes, so no merge step reads below the array and no push writes past
  it, and the stack holds at most 55 entries;
* `cvStack_length_at_two_chunks`: after 2049 bytes, two chunks have been pushed and the
  stack holds two entries, one more than `popcount(2)`.
-/

namespace Mining.Blake3

/-! ## `popcount` -/

@[simp] theorem popcount_zero : popcount 0 = 0 := by
  rw [popcount, if_pos rfl]

theorem popcount_eq (n : Nat) : popcount n = n % 2 + popcount (n / 2) := by
  rw [popcount]
  split
  · subst_vars
    rw [Nat.zero_div, popcount_zero]
  · rfl

@[simp] theorem popcount_one : popcount 1 = 1 := by
  rw [popcount_eq, show 1 / 2 = 0 from rfl, popcount_zero]

@[simp] theorem popcount_two : popcount 2 = 1 := by
  rw [popcount_eq, show 2 / 2 = 1 from rfl, popcount_one]

theorem popcount_pos {n : Nat} (positive : 0 < n) : 0 < popcount n := by
  induction n using Nat.strongRecOn with
  | ind n ih =>
      rw [popcount_eq]
      by_cases odd : n % 2 = 1
      · omega
      · have := ih (n / 2) (by omega) (by omega)
        omega

/-- Adding one sets at most one more bit. -/
theorem popcount_succ_le (n : Nat) : popcount (n + 1) ≤ popcount n + 1 := by
  induction n using Nat.strongRecOn with
  | ind n ih =>
      rw [popcount_eq (n + 1), popcount_eq n]
      by_cases even : n % 2 = 0
      · have half : (n + 1) / 2 = n / 2 := by omega
        rw [half]
        omega
      · have half : (n + 1) / 2 = (n - 1) / 2 + 1 := by omega
        have prev : n / 2 = (n - 1) / 2 := by omega
        have := ih ((n - 1) / 2) (by omega)
        rw [half, prev]
        omega

theorem popcount_le_of_lt_two_pow {n k : Nat} (lt : n < 2 ^ k) : popcount n ≤ k := by
  induction k generalizing n with
  | zero =>
      have zero : n = 0 := by simpa using lt
      simp [zero]
  | succ k ih =>
      rw [popcount_eq]
      have := ih (n := n / 2) (by rw [Nat.pow_succ] at lt; omega)
      omega

/-! ## The stack length after `N` chunks -/

/-- The stack length the pushes of `blake3_hasher_update` leave after `n` chunks. -/
def cvStackLen (n : Nat) : Nat := if n ≤ 1 then n else popcount n + 1

/-- One push: merge down to `popcount(n + 1)`, then one more entry. -/
theorem cvStackLen_succ (n : Nat) :
    cvStackLen (n + 1) = min (cvStackLen n) (popcount (n + 1)) + 1 := by
  have bound := popcount_succ_le n
  unfold cvStackLen
  rcases Nat.lt_or_ge n 2 with small | large
  · obtain rfl | rfl : n = 0 ∨ n = 1 := by omega
    · simp
    · simp
  · rw [if_neg (by omega), if_neg (by omega)]
    omega

/-- The bytes absorbed so far: `chunk_counter` whole chunks and the current chunk. -/
def hasherLen (h : Hasher) : Nat := blake3ChunkLen * h.chunk.chunkCounter + chunkStateLen h.chunk

/-! ## One byte -/

theorem hasherLen_hasherAbsorb {h h' : Hasher} {b : UInt8} (step : hasherAbsorb h b = some h') :
    hasherLen h' = hasherLen h + 1 := by
  obtain ⟨h1, push, rfl⟩ := hasherAbsorb_eq_some step
  have absorbed : hasherLen { h1 with chunk := chunkStateAbsorb h1.chunk b } = hasherLen h1 + 1 := by
    simp only [hasherLen, chunkStateLen_chunkStateAbsorb, chunkStateAbsorb_chunkCounter]
    omega
  rw [absorbed]
  rcases hasherPushFullChunk_eq_some push with ⟨-, rfl⟩ | ⟨full, -, chunk, -⟩
  · rfl
  · simp only [hasherLen, chunk, chunkStateLen, chunkStateInit, blake3ChunkLen] at full ⊢
    omega

theorem cvStack_length_hasherAbsorb {h h' : Hasher} {b : UInt8}
    (law : h.cvStack.length = cvStackLen h.chunk.chunkCounter) (step : hasherAbsorb h b = some h') :
    h'.cvStack.length = cvStackLen h'.chunk.chunkCounter := by
  obtain ⟨h1, push, rfl⟩ := hasherAbsorb_eq_some step
  simp only [chunkStateAbsorb_chunkCounter]
  rcases hasherPushFullChunk_eq_some push with ⟨-, rfl⟩ | ⟨-, -, chunk, merged, loop, -, stack⟩
  · exact law
  · obtain ⟨merged', loop', length⟩ := mergeCvStackLoop_of_pos h.key h.chunk.flags
      (popcount_pos (by omega : 0 < h.chunk.chunkCounter + 1)) h.cvStack
    rw [loop, Option.some.injEq] at loop'
    rw [stack, chunk, List.length_cons, loop', length, law]
    exact (cvStackLen_succ _).symm

/-- Below 2^64 absorbed bytes a byte step never stops: a push merges onto at most
`popcount(chunk_counter + 1) ≤ 54` entries. -/
theorem hasherAbsorb_isSome {h : Hasher} (law : h.cvStack.length = cvStackLen h.chunk.chunkCounter)
    (short : hasherLen h < 2 ^ 64) (b : UInt8) : ∃ h', hasherAbsorb h b = some h' := by
  by_cases full : chunkStateLen h.chunk = blake3ChunkLen
  · obtain ⟨merged, loop, length⟩ := mergeCvStackLoop_of_pos h.key h.chunk.flags
      (popcount_pos (by omega : 0 < h.chunk.chunkCounter + 1)) h.cvStack
    have few : h.chunk.chunkCounter + 1 < 2 ^ 54 := by
      simp only [hasherLen, full, blake3ChunkLen] at short
      omega
    have room : merged.length ≤ blake3MaxDepth := by
      have := popcount_le_of_lt_two_pow few
      simp only [blake3MaxDepth]
      omega
    exact ⟨_, hasherAbsorb_of_push (hasherPushFullChunk_of_full full loop room) b⟩
  · exact ⟨_, hasherAbsorb_of_push (hasherPushFullChunk_of_ne full) b⟩

/-! ## Runs -/

theorem hasherLen_foldlM {h h' : Hasher} {input : List UInt8}
    (run : input.foldlM hasherAbsorb h = some h') : hasherLen h' = hasherLen h + input.length := by
  induction input generalizing h with
  | nil =>
      cases run
      rfl
  | cons b input ih =>
      rw [List.foldlM_cons, Option.bind_eq_bind, Option.bind_eq_some] at run
      obtain ⟨h1, step, run⟩ := run
      rw [ih run, hasherLen_hasherAbsorb step, List.length_cons]
      omega

/-- A run of fewer than `2^64 - hasherLen` bytes completes, keeping the stack law. -/
theorem foldlM_hasherAbsorb_isSome {h : Hasher}
    (law : h.cvStack.length = cvStackLen h.chunk.chunkCounter) (input : List UInt8)
    (short : hasherLen h + input.length ≤ 2 ^ 64) :
    ∃ h', input.foldlM hasherAbsorb h = some h' ∧
      h'.cvStack.length = cvStackLen h'.chunk.chunkCounter := by
  induction input generalizing h with
  | nil => exact ⟨h, rfl, law⟩
  | cons b input ih =>
      simp only [List.length_cons] at short
      obtain ⟨h1, step⟩ := hasherAbsorb_isSome law (by omega) b
      obtain ⟨h', run, law'⟩ :=
        ih (cvStack_length_hasherAbsorb law step) (by rw [hasherLen_hasherAbsorb step]; omega)
      exact ⟨h', by rw [List.foldlM_cons, step]; exact run, law'⟩

/-! ## Reachable states -/

/-- The length of a derived-key init's context: `size_t` in C. -/
def InitVariant.contextLen : InitVariant → Nat
  | .deriveKey context => context.length
  | _ => 0

/-- A fresh hasher: an empty stack and an empty chunk numbered 0. -/
theorem fresh_cvStack_length (key : List UInt32) (flags : UInt8) :
    let h : Hasher := { key := key, chunk := chunkStateInit key flags, cvStack := [] }
    h.cvStack.length = cvStackLen h.chunk.chunkCounter ∧ hasherLen h = 0 ∧ h.Wf :=
  ⟨rfl, rfl, (Hasher.Inv.fresh key flags).wf⟩

/-- Every init whose context fits in a `size_t` succeeds: the derived-key init's update of
its context stays inside the stack too. -/
theorem InitVariant.init_isSome {v : InitVariant} (fits : v.contextLen < 2 ^ 64) :
    ∃ h0, v.init = some h0 := by
  cases v with
  | default => exact ⟨_, rfl⟩
  | keyed key => exact ⟨_, rfl⟩
  | deriveKey context =>
      obtain ⟨law, len, wf⟩ := fresh_cvStack_length iv Flags.deriveKeyContext
      obtain ⟨h, run, -⟩ := foldlM_hasherAbsorb_isSome law context
        (by rw [len, Nat.zero_add]; exact Nat.le_of_lt fits)
      simp only [InitVariant.init, blake3HasherInitDeriveKeyRaw,
        blake3HasherUpdate_eq_foldlM wf, run, Option.map_some']
      exact ⟨_, rfl⟩

/-- After `N` chunks the stack holds `N` entries for `N ≤ 1` and `popcount(N) + 1` from
then on, in every state reachable from an init. -/
theorem Reachable.cvStack_length {v : InitVariant} {h0 h : Hasher} (start : v.init = some h0)
    (reach : Reachable v h) : h.cvStack.length = cvStackLen h.chunk.chunkCounter := by
  induction reach with
  | init first =>
      rw [start, Option.some.injEq] at first
      subst first
      rw [(InitVariant.init_eq start).1]
      exact (fresh_cvStack_length _ _).1
  | @update h h' input reach update ih =>
      rw [blake3HasherUpdate_eq_foldlM (reach.inv start).wf] at update
      exact foldlM_hasherAbsorb_of_step (fun law step => cvStack_length_hasherAbsorb law step) ih
        update
  | reset _ _ => rfl

/-- From every reachable state, an update that keeps the whole input within `2^64` bytes
completes, and the hasher has then absorbed its bytes too. -/
theorem Reachable.update_isSome {v : InitVariant} {h0 h : Hasher} (start : v.init = some h0)
    (reach : Reachable v h) (input : List UInt8) (short : hasherLen h + input.length ≤ 2 ^ 64) :
    ∃ h', blake3HasherUpdate h input = some h' ∧ hasherLen h' = hasherLen h + input.length := by
  obtain ⟨h', run, -⟩ := foldlM_hasherAbsorb_isSome (reach.cvStack_length start) input short
  exact ⟨h', by rw [blake3HasherUpdate_eq_foldlM (reach.inv start).wf, run], hasherLen_foldlM run⟩

theorem hasherLen_blake3HasherReset (h : Hasher) : hasherLen (blake3HasherReset h) = 0 := rfl

/-- A 32-byte key: the bytes 0 to 31. -/
def sampleKey : List UInt8 := (List.range 32).map Nat.toUInt8

/-- A 40-byte derive-key context: the bytes 0 to 39. -/
def sampleContext : List UInt8 := (List.range 40).map Nat.toUInt8

/-- For every state reachable from an init variant by updates and resets: the buffer holds
at most 64 bytes, at most 15 blocks have been compressed, the chunk holds
`64 * blocks_compressed + buf_len ≤ 1024` bytes, a non-empty chunk keeps its last bytes
buffered, a chunk after a pushed one is non-empty, the buffer is zero past `buf_len`, and
key and flags are the init's. -/
theorem reachable_chunk_invariants {v : InitVariant} {h0 h : Hasher} (start : v.init = some h0)
    (reach : Reachable v h) :
    h.chunk.bufLen ≤ blake3BlockLen ∧ h.chunk.blocksCompressed ≤ 15 ∧
      chunkStateLen h.chunk = blake3BlockLen * h.chunk.blocksCompressed + h.chunk.bufLen ∧
      chunkStateLen h.chunk ≤ blake3ChunkLen ∧
      (0 < chunkStateLen h.chunk → 1 ≤ h.chunk.bufLen) ∧
      (0 < h.chunk.chunkCounter ∨ 0 < h.cvStack.length → 1 ≤ chunkStateLen h.chunk) ∧
      h.chunk.buf.length = blake3BlockLen ∧
      (∀ i, h.chunk.bufLen ≤ i → h.chunk.buf.getD i 0 = 0) ∧
      h.key = h0.key ∧ h.chunk.flags = h0.chunk.flags := by
  obtain ⟨⟨⟨length, bufLen, tail⟩, len⟩, buffered, nonempty, key, flags⟩ := reach.inv start
  refine ⟨bufLen, ?_, rfl, len, buffered, fun pushed => nonempty ?_, length, ?_, key, flags⟩
  · simp only [chunkStateLen, blake3BlockLen, blake3ChunkLen] at *
    by_cases empty : 64 * h.chunk.blocksCompressed + h.chunk.bufLen = 0
    · omega
    · have := buffered (by omega)
      omega
  · exact pushed.imp id List.ne_nil_of_length_pos
  · intro i past
    have split : h.chunk.buf =
        h.chunk.buf.take h.chunk.bufLen ++ List.replicate (blake3BlockLen - h.chunk.bufLen) 0 := by
      rw [← tail, List.take_append_drop]
    rw [split, List.getD_append_right _ _ _ _ (by simp only [List.length_take]; omega)]
    simp

/-- A keyed hasher after 1500 bytes (one chunk pushed, a partial block buffered), a reset,
and 2100 more bytes (two chunks pushed): its chunk keeps the invariants. -/
theorem reachable_chunk_invariants_keyed :
    ∃ h1 h, blake3HasherUpdate (blake3HasherInitKeyed sampleKey) (List.replicate 1500 7) = some h1 ∧
      blake3HasherUpdate (blake3HasherReset h1) (List.replicate 2100 9) = some h ∧
      (InitVariant.keyed sampleKey).init = some (blake3HasherInitKeyed sampleKey) ∧
      Reachable (.keyed sampleKey) h ∧
      (h.chunk.bufLen ≤ blake3BlockLen ∧ h.chunk.blocksCompressed ≤ 15 ∧
        chunkStateLen h.chunk = blake3BlockLen * h.chunk.blocksCompressed + h.chunk.bufLen ∧
        chunkStateLen h.chunk ≤ blake3ChunkLen ∧
        (0 < chunkStateLen h.chunk → 1 ≤ h.chunk.bufLen) ∧
        (0 < h.chunk.chunkCounter ∨ 0 < h.cvStack.length → 1 ≤ chunkStateLen h.chunk) ∧
        h.chunk.buf.length = blake3BlockLen ∧
        (∀ i, h.chunk.bufLen ≤ i → h.chunk.buf.getD i 0 = 0) ∧
        h.key = (blake3HasherInitKeyed sampleKey).key ∧
        h.chunk.flags = (blake3HasherInitKeyed sampleKey).chunk.flags) := by
  have start : (InitVariant.keyed sampleKey).init = some (blake3HasherInitKeyed sampleKey) := rfl
  obtain ⟨h1, first, -⟩ := (Reachable.init start).update_isSome start (List.replicate 1500 7)
    (by rw [List.length_replicate]; decide)
  have reset := (Reachable.update _ (.init start) first).reset
  obtain ⟨h, second, -⟩ := reset.update_isSome start (List.replicate 2100 9)
    (by rw [hasherLen_blake3HasherReset, List.length_replicate]; decide)
  have reach := Reachable.update _ reset second
  exact ⟨h1, h, first, second, start, reach, reachable_chunk_invariants start reach⟩

/-- A reset hasher is its variant's fresh hasher. -/
theorem blake3HasherReset_eq_init {v : InitVariant} {h0 h : Hasher} (start : v.init = some h0)
    (reach : Reachable v h) : blake3HasherReset h = h0 := by
  have inv := reach.inv start
  obtain ⟨fresh, mask⟩ := InitVariant.init_eq start
  conv => rhs; rw [fresh]
  rw [blake3HasherReset, inv.key_eq, inv.flags_eq, ← resetMask, mask]

/-- After any history of updates and resets from an init variant, `blake3_hasher_reset`
yields the variant's fresh hasher: every later update and `finalize_seek` gives the same
bytes as on a fresh hasher. -/
theorem blake3HasherReset_fresh {v : InitVariant} {h0 h : Hasher} (start : v.init = some h0)
    (reach : Reachable v h) :
    blake3HasherReset h = h0 ∧
      ∀ input seek outLen,
        (blake3HasherUpdate (blake3HasherReset h) input).map
            (blake3HasherFinalizeSeek · seek outLen) =
          (blake3HasherUpdate h0 input).map (blake3HasherFinalizeSeek · seek outLen) := by
  have reset := blake3HasherReset_eq_init start reach
  exact ⟨reset, fun _ _ _ => by rw [reset]⟩

/-- A derived-key hasher (a 40-byte context) after 1500 and then 700 bytes, two chunks
pushed, is reset to the fresh hasher of its init. -/
theorem blake3HasherReset_fresh_derived :
    ∃ h0 h1 h, (InitVariant.deriveKey sampleContext).init = some h0 ∧
      blake3HasherUpdate h0 (List.replicate 1500 7) = some h1 ∧
      blake3HasherUpdate h1 (List.replicate 700 1) = some h ∧
      Reachable (.deriveKey sampleContext) h ∧
      (blake3HasherReset h = h0 ∧
        ∀ input seek outLen,
          (blake3HasherUpdate (blake3HasherReset h) input).map
              (blake3HasherFinalizeSeek · seek outLen) =
            (blake3HasherUpdate h0 input).map (blake3HasherFinalizeSeek · seek outLen)) := by
  obtain ⟨h0, start⟩ := @InitVariant.init_isSome (.deriveKey sampleContext) (by decide)
  have fresh : hasherLen h0 = 0 := by
    rw [(InitVariant.init_eq start).1]
    rfl
  obtain ⟨h1, first, len⟩ := (Reachable.init start).update_isSome start (List.replicate 1500 7)
    (by rw [fresh, List.length_replicate]; decide)
  have reach1 := Reachable.update _ (.init start) first
  obtain ⟨h, second, -⟩ := reach1.update_isSome start (List.replicate 700 1)
    (by rw [len, fresh, List.length_replicate, List.length_replicate]; decide)
  have reach := Reachable.update _ reach1 second
  exact ⟨h0, h1, h, start, first, second, reach, blake3HasherReset_fresh start reach⟩

/-- For every init variant and every run of updates with fewer than 2^64 bytes in all,
every update completes (no merge step reads below the stack array and no push writes past
it) and the stack holds at most `BLAKE3_MAX_DEPTH + 1 = 55` entries. -/
theorem cvStack_in_bounds {v : InitVariant} (fits : v.contextLen < 2 ^ 64)
    (inputs : List (List UInt8)) (short : inputs.flatten.length < 2 ^ 64) :
    ∃ h0 h, v.init = some h0 ∧ inputs.foldlM blake3HasherUpdate h0 = some h ∧
      h.cvStack.length ≤ blake3MaxDepth + 1 := by
  obtain ⟨h0, start⟩ := InitVariant.init_isSome fits
  have wf := ((Reachable.init start).inv start).wf
  have law := (Reachable.init start).cvStack_length start
  obtain ⟨fresh, -⟩ := InitVariant.init_eq start
  have empty : hasherLen h0 = 0 := by
    rw [fresh]
    rfl
  obtain ⟨h, run, law'⟩ := foldlM_hasherAbsorb_isSome law inputs.flatten
    (by rw [empty]; omega)
  have len := hasherLen_foldlM run
  refine ⟨h0, h, start, by rw [foldlM_blake3HasherUpdate wf, blake3HasherUpdate_eq_foldlM wf, run], ?_⟩
  have few : h.chunk.chunkCounter < 2 ^ 54 := by
    rw [empty] at len
    simp only [hasherLen, blake3ChunkLen] at len
    omega
  have := popcount_le_of_lt_two_pow few
  rw [law']
  unfold cvStackLen
  split <;> simp only [blake3MaxDepth] <;> omega

/-- A derived-key hasher (a 40-byte context) fed 1500 and then 2600 bytes: four chunks
pushed, the stack merged from three entries down to one before the fourth. -/
theorem cvStack_in_bounds_derived :
    (InitVariant.deriveKey sampleContext).contextLen < 2 ^ 64 ∧
      [List.replicate 1500 (7 : UInt8), List.replicate 2600 9].flatten.length < 2 ^ 64 ∧
      ∃ h0 h, (InitVariant.deriveKey sampleContext).init = some h0 ∧
        [List.replicate 1500 7, List.replicate 2600 9].foldlM blake3HasherUpdate h0 = some h ∧
        h.cvStack.length ≤ blake3MaxDepth + 1 :=
  have fits : (InitVariant.deriveKey sampleContext).contextLen < 2 ^ 64 := by decide
  have short : [List.replicate 1500 (7 : UInt8), List.replicate 2600 9].flatten.length < 2 ^ 64 := by
    simp only [List.flatten, List.append_nil, List.length_append, List.length_replicate]
    decide
  ⟨fits, short, cvStack_in_bounds fits _ short⟩

/-- After 2049 bytes in default mode, two chunks have been pushed and the stack holds two
entries, while `popcount(2) = 1`. -/
theorem cvStack_length_at_two_chunks :
    (blake3HasherUpdate blake3HasherInit (List.replicate 2049 0)).map
        (fun h => (h.chunk.chunkCounter, h.cvStack.length)) = some (2, 2) ∧ popcount 2 = 1 := by
  have start : InitVariant.default.init = some blake3HasherInit := rfl
  have wf := ((Reachable.init start).inv start).wf
  obtain ⟨h, run, law⟩ := foldlM_hasherAbsorb_isSome ((Reachable.init start).cvStack_length start)
    (List.replicate 2049 0) (by rw [List.length_replicate]; decide)
  have update : blake3HasherUpdate blake3HasherInit (List.replicate 2049 0) = some h := by
    rw [blake3HasherUpdate_eq_foldlM wf, run]
  have inv := (Reachable.update _ (.init start) update).inv start
  have len := hasherLen_foldlM run
  have nonempty := inv.nonempty
  have full := inv.wf.len_le
  have two : h.chunk.chunkCounter = 2 := by
    rw [show hasherLen blake3HasherInit = 0 from rfl, List.length_replicate] at len
    simp only [hasherLen, blake3ChunkLen] at len full nonempty
    rcases Nat.lt_or_ge h.chunk.chunkCounter 1 with zero | pos
    · omega
    · have := nonempty (.inl pos)
      omega
  refine ⟨?_, popcount_two⟩
  rw [update, Option.map_some', law, two]
  simp [cvStackLen]

end Mining.Blake3
