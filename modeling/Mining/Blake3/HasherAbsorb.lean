import Mining.Blake3.Hasher
import Mining.Blake3.ChunkAbsorb

/-!
# The hasher, one byte at a time

`hasherAbsorb` is the update loop's work for one byte: push the current chunk if it is
full, then absorb the byte into the chunk (`chunkStateAbsorb`). A chunk is pushed only
once the byte after it arrives, so the last chunk of any input stays in the chunk state
for `finalize`.

`blake3HasherUpdate_eq_foldlM` shows that `blake3_hasher_update` is this step folded over
the input, from every state whose chunk is well formed and holds at most 1024 bytes
(`Hasher.Wf`). Everything later about runs of the hasher (the invariants, the split
inputs, the stack) is proved of the byte step and carried to the C loop by this theorem.
-/

namespace Mining.Blake3

/-- One byte: push a full chunk, then absorb the byte into the chunk. -/
def hasherAbsorb (self : Hasher) (b : UInt8) : Option Hasher :=
  (hasherPushFullChunk self).map fun self => { self with chunk := chunkStateAbsorb self.chunk b }

/-- What the update loop needs of a state: a well-formed chunk of at most 1024 bytes. -/
structure Hasher.Wf (h : Hasher) : Prop where
  chunk : h.chunk.Wf
  len_le : chunkStateLen h.chunk ≤ blake3ChunkLen

/-! ## The merge loop and the push -/

/-- With a positive target the merge loop never runs dry: it stops at
`min(cv_stack_len, target)` entries. -/
theorem mergeCvStackLoop_of_pos (key : List UInt32) (flags : UInt8) {target : Nat}
    (positive : 0 < target) (stack : List (List UInt8)) :
    ∃ merged, mergeCvStackLoop key flags target stack = some merged ∧
      merged.length = min stack.length target := by
  induction stack using mergeCvStackLoop.induct key flags target with
  | case1 right left rest more ih =>
      obtain ⟨merged, loop, len⟩ := ih
      refine ⟨merged, by rw [mergeCvStackLoop.eq_def, if_pos more]; exact loop, ?_⟩
      simp only [List.length_cons] at more len ⊢
      omega
  | case2 stack more short =>
      match stack, short with
      | [], _ => simp at more
      | [_], _ => simp at more; omega
      | _ :: _ :: _, short => exact absurd rfl (short _ _ _)
  | case3 stack done =>
      exact ⟨stack, by rw [mergeCvStackLoop.eq_def, if_neg done], by omega⟩

/-- Everything a push of a full chunk can do: nothing, when the chunk is not full; else the
stack merged to `popcount(chunk_counter + 1)` entries with room left, the chunk's chaining
value on top, and a fresh chunk numbered `chunk_counter + 1`. -/
theorem hasherPushFullChunk_eq_some {h h' : Hasher} (push : hasherPushFullChunk h = some h') :
    (chunkStateLen h.chunk ≠ blake3ChunkLen ∧ h' = h) ∨
      (chunkStateLen h.chunk = blake3ChunkLen ∧ h'.key = h.key ∧
        h'.chunk = { chunkStateInit h.key h.chunk.flags with
          chunkCounter := h.chunk.chunkCounter + 1 } ∧
        ∃ merged, mergeCvStackLoop h.key h.chunk.flags (popcount (h.chunk.chunkCounter + 1))
            h.cvStack = some merged ∧ merged.length ≤ blake3MaxDepth ∧
          h'.cvStack = chunkStateOutput h.chunk :: merged) := by
  unfold hasherPushFullChunk at push
  split at push
  · rename_i full
    refine .inr ⟨full, ?_⟩
    unfold hasherPushCv hasherMergeCvStack at push
    cases loop : mergeCvStackLoop h.key h.chunk.flags (popcount (h.chunk.chunkCounter + 1))
      h.cvStack with
    | none => simp [loop] at push
    | some merged =>
        by_cases room : merged.length ≤ blake3MaxDepth
        · simp only [loop, Option.map_some', if_pos room, Option.some.injEq] at push
          subst push
          exact ⟨rfl, rfl, merged, rfl, room, rfl⟩
        · simp [loop, room] at push
  · exact .inl ⟨by assumption, (Option.some.inj push).symm⟩

/-- A push that succeeds leaves a well-formed chunk with room for the next byte. -/
theorem Hasher.Wf.hasherPushFullChunk {h h' : Hasher} (wf : h.Wf)
    (push : hasherPushFullChunk h = some h') :
    h'.chunk.Wf ∧ chunkStateLen h'.chunk < blake3ChunkLen := by
  rcases hasherPushFullChunk_eq_some push with ⟨room, rfl⟩ | ⟨-, -, chunk, -⟩
  · exact ⟨wf.chunk, Nat.lt_of_le_of_ne wf.len_le room⟩
  · rw [chunk]
    exact ⟨⟨by simp [chunkStateInit], by simp [chunkStateInit], by simp [chunkStateInit]⟩,
      by simp [chunkStateLen, chunkStateInit, blake3ChunkLen]⟩

/-- A full chunk whose merge succeeds with room left is pushed. -/
theorem hasherPushFullChunk_of_full {h : Hasher} (full : chunkStateLen h.chunk = blake3ChunkLen)
    {merged : List (List UInt8)}
    (loop : mergeCvStackLoop h.key h.chunk.flags (popcount (h.chunk.chunkCounter + 1)) h.cvStack =
      some merged)
    (room : merged.length ≤ blake3MaxDepth) :
    hasherPushFullChunk h = some ⟨h.key,
      { chunkStateInit h.key h.chunk.flags with chunkCounter := h.chunk.chunkCounter + 1 },
      chunkStateOutput h.chunk :: merged⟩ := by
  simp [hasherPushFullChunk, full, hasherPushCv, hasherMergeCvStack, loop, room]

theorem hasherPushFullChunk_of_ne {h : Hasher} (room : chunkStateLen h.chunk ≠ blake3ChunkLen) :
    hasherPushFullChunk h = some h := by
  simp [hasherPushFullChunk, room]

theorem hasherAbsorb_of_push {h h' : Hasher} (push : hasherPushFullChunk h = some h') (b : UInt8) :
    hasherAbsorb h b = some { h' with chunk := chunkStateAbsorb h'.chunk b } := by
  simp [hasherAbsorb, push]

/-- A byte step that succeeds pushed (or kept) the hasher, then absorbed the byte. -/
theorem hasherAbsorb_eq_some {h h' : Hasher} {b : UInt8} (step : hasherAbsorb h b = some h') :
    ∃ h1, hasherPushFullChunk h = some h1 ∧ h' = { h1 with chunk := chunkStateAbsorb h1.chunk b } := by
  simp only [hasherAbsorb, Option.map_eq_some'] at step
  obtain ⟨h1, push, rfl⟩ := step
  exact ⟨h1, push, rfl⟩

/-- What every successful byte step preserves holds after every successful run. -/
theorem foldlM_hasherAbsorb_of_step {P : Hasher → Prop}
    (step : ∀ {h h' : Hasher} {b : UInt8}, P h → hasherAbsorb h b = some h' → P h')
    {h h' : Hasher} (start : P h) {input : List UInt8}
    (run : input.foldlM hasherAbsorb h = some h') : P h' := by
  induction input generalizing h with
  | nil =>
      cases run
      exact start
  | cons b input ih =>
      rw [List.foldlM_cons, Option.bind_eq_bind, Option.bind_eq_some] at run
      obtain ⟨h1, first, run⟩ := run
      exact ih (step start first) run

theorem Hasher.Wf.hasherAbsorb {h h' : Hasher} (wf : h.Wf) {b : UInt8}
    (step : hasherAbsorb h b = some h') : h'.Wf := by
  obtain ⟨h1, push, rfl⟩ := hasherAbsorb_eq_some step
  obtain ⟨chunk, room⟩ := wf.hasherPushFullChunk push
  exact ⟨chunk.chunkStateAbsorb b, by
    rw [chunkStateLen_chunkStateAbsorb]
    exact room⟩

theorem Hasher.Wf.foldlM {h h' : Hasher} (wf : h.Wf) {input : List UInt8}
    (run : input.foldlM Mining.Blake3.hasherAbsorb h = some h') : h'.Wf :=
  foldlM_hasherAbsorb_of_step (fun wf step => wf.hasherAbsorb step) wf run

/-! ## The update loop -/

/-- Bytes that fit in the current chunk go straight into it. -/
theorem foldlM_hasherAbsorb_of_fits {h : Hasher} {input : List UInt8}
    (fits : chunkStateLen h.chunk + input.length ≤ blake3ChunkLen) :
    input.foldlM hasherAbsorb h =
      some { h with chunk := input.foldl chunkStateAbsorb h.chunk } := by
  induction input generalizing h with
  | nil => rfl
  | cons b input ih =>
      simp only [List.length_cons] at fits
      rw [List.foldlM_cons, hasherAbsorb_of_push (hasherPushFullChunk_of_ne (by omega)),
        Option.bind_eq_bind, Option.some_bind, ih (by
          simp only [chunkStateLen_chunkStateAbsorb]
          omega)]
      rfl

/-- `blake3_hasher_update` is `hasherAbsorb` folded over its input. -/
theorem blake3HasherUpdate_eq_foldlM {h : Hasher} (wf : h.Wf) (input : List UInt8) :
    blake3HasherUpdate h input = input.foldlM hasherAbsorb h := by
  induction h, input using blake3HasherUpdate.induct with
  | case1 h input more push =>
      obtain ⟨b, rest, rfl⟩ := List.exists_cons_of_length_pos more
      rw [blake3HasherUpdate, if_pos more, push, List.foldlM_cons]
      simp [hasherAbsorb, push]
  | case2 h input more h1 push take positive ih =>
      obtain ⟨chunk1, room⟩ := wf.hasherPushFullChunk push
      have fits : chunkStateLen h1.chunk + (input.take take).length ≤ blake3ChunkLen := by
        simp only [List.length_take, take]
        omega
      obtain ⟨b, rest, first⟩ := List.exists_cons_of_length_pos
        (by simp only [List.length_take, take] at positive ⊢; omega : 0 < (input.take take).length)
      have pass : (input.take take).foldlM hasherAbsorb h =
          some { h1 with chunk := chunkStateUpdate h1.chunk (input.take take) } := by
        rw [first] at fits ⊢
        simp only [List.length_cons] at fits
        rw [List.foldlM_cons, hasherAbsorb_of_push push, Option.bind_eq_bind, Option.some_bind,
          foldlM_hasherAbsorb_of_fits (by simp only [chunkStateLen_chunkStateAbsorb]; omega),
          chunkStateUpdate_eq_foldl chunk1]
        rfl
      have wf' : Hasher.Wf { h1 with chunk := chunkStateUpdate h1.chunk (input.take take) } :=
        ⟨by simpa only [chunkStateUpdate_eq_foldl chunk1] using chunk1.foldl _, by
          simpa only [chunkStateUpdate_eq_foldl chunk1, chunkStateLen_foldl] using fits⟩
      rw [blake3HasherUpdate, if_pos more, push]
      conv => rhs; rw [← List.take_append_drop take input]
      rw [List.foldlM_append, pass, Option.bind_eq_bind, Option.some_bind, ← ih wf']
      simp only [take, if_pos positive]
  | case3 h input more h1 push take stuck =>
      obtain ⟨-, room⟩ := wf.hasherPushFullChunk push
      simp only [take] at stuck
      omega
  | case4 h input done =>
      have empty : input = [] := List.eq_nil_of_length_eq_zero (by omega)
      subst empty
      rw [blake3HasherUpdate, if_neg done]
      rfl

end Mining.Blake3
