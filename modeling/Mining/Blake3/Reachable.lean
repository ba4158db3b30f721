import Mining.Blake3.HasherAbsorb

/-!
# Reachable hashers

A hasher is reachable from an init variant when some sequence of
`blake3_hasher_update` and `blake3_hasher_reset` calls leads to it from the variant's
init (`Reachable`). Through `blake3HasherUpdate_eq_foldlM` every update is a run of the
byte step, so what one byte preserves holds of every reachable state (`Reachable.inv`):
the chunk's buffer and counters stay in range, and key and flags stay those of the init.

* `blake3HasherUpdate_pieces`: updating piece by piece is updating with the
  concatenation, whatever the cut.

`Mining/Blake3/Stack.lean` shows that every update from a reachable state completes, and
states there what holds of every reachable state (`reachable_chunk_invariants`) and of a
reset (`blake3HasherReset_fresh`).
-/

namespace Mining.Blake3

/-- The init variants of `blake3.h`. -/
inductive InitVariant where
  | default
  | keyed (key : List UInt8)
  | deriveKey (context : List UInt8)
  deriving DecidableEq, Repr

/-- The hasher a variant's init function leaves; the derived-key variant hashes its
context first. -/
def InitVariant.init : InitVariant → Option Hasher
  | .default => some blake3HasherInit
  | .keyed key => some (blake3HasherInitKeyed key)
  | .deriveKey context => blake3HasherInitDeriveKeyRaw context

/-- States reachable from a variant's init by updates and resets. -/
inductive Reachable (v : InitVariant) : Hasher → Prop
  | init {h : Hasher} : v.init = some h → Reachable v h
  | update {h h' : Hasher} (input : List UInt8) :
      Reachable v h → blake3HasherUpdate h input = some h' → Reachable v h'
  | reset {h : Hasher} : Reachable v h → Reachable v (blake3HasherReset h)

/-- The invariant of the states reachable from an init with key `key` and flags `flags`. -/
structure Hasher.Inv (key : List UInt32) (flags : UInt8) (h : Hasher) : Prop where
  wf : h.Wf
  buffered : 0 < chunkStateLen h.chunk → 0 < h.chunk.bufLen
  nonempty : 0 < h.chunk.chunkCounter ∨ h.cvStack ≠ [] → 0 < chunkStateLen h.chunk
  key_eq : h.key = key
  flags_eq : h.chunk.flags = flags

/-- The mask `blake3_hasher_reset` keeps of the flags. -/
def resetMask : UInt8 := Flags.keyedHash ||| Flags.deriveKeyMaterial

/-- Every init leaves an empty fresh chunk under its key, with flags that survive the
reset mask. -/
theorem InitVariant.init_eq {v : InitVariant} {h0 : Hasher} (start : v.init = some h0) :
    h0 = { key := h0.key, chunk := chunkStateInit h0.key h0.chunk.flags, cvStack := [] } ∧
      h0.chunk.flags &&& resetMask = h0.chunk.flags := by
  cases v with
  | default =>
      cases start
      exact ⟨rfl, rfl⟩
  | keyed key =>
      cases start
      exact ⟨rfl, by simp only [blake3HasherInitKeyed, chunkStateInit]; decide⟩
  | deriveKey context =>
      simp only [InitVariant.init, blake3HasherInitDeriveKeyRaw, Option.map_eq_some'] at start
      obtain ⟨_, -, rfl⟩ := start
      exact ⟨rfl, by simp only [chunkStateInit]; decide⟩

/-! ## One byte, then whole runs -/

/-- The fresh state of an init, or of a reset, satisfies the invariant. -/
theorem Hasher.Inv.fresh (key : List UInt32) (flags : UInt8) :
    Hasher.Inv key flags { key := key, chunk := chunkStateInit key flags, cvStack := [] } :=
  ⟨⟨ChunkState.Wf.chunkStateInit key flags, by simp [chunkStateLen, chunkStateInit]⟩,
    by simp [chunkStateLen, chunkStateInit], by simp [chunkStateLen, chunkStateInit], rfl, rfl⟩

theorem Hasher.Inv.hasherAbsorb {key : List UInt32} {flags : UInt8} {h h' : Hasher}
    (inv : h.Inv key flags) {b : UInt8} (step : hasherAbsorb h b = some h') : h'.Inv key flags := by
  have wf' := inv.wf.hasherAbsorb step
  obtain ⟨h1, push, rfl⟩ := hasherAbsorb_eq_some step
  have same : h1.key = h.key ∧ h1.chunk.flags = h.chunk.flags := by
    rcases hasherPushFullChunk_eq_some push with ⟨-, rfl⟩ | ⟨-, key, chunk, -⟩
    · exact ⟨rfl, rfl⟩
    · exact ⟨key, by rw [chunk]; rfl⟩
  obtain ⟨full, room⟩ := chunkStateAbsorb_fields h1.chunk b
  have positive : 0 < (chunkStateAbsorb h1.chunk b).bufLen := by
    by_cases h64 : h1.chunk.bufLen = blake3BlockLen
    · rw [(full h64).1]
      decide
    · rw [(room h64).1]
      omega
  have length : 0 < chunkStateLen (chunkStateAbsorb h1.chunk b) := by
    rw [chunkStateLen_chunkStateAbsorb]
    omega
  exact ⟨wf', fun _ => positive, fun _ => length, same.1.trans inv.key_eq,
    (chunkStateAbsorb_flags h1.chunk b).trans (same.2.trans inv.flags_eq)⟩

theorem Hasher.Inv.foldlM {key : List UInt32} {flags : UInt8} {h h' : Hasher}
    (inv : h.Inv key flags) {input : List UInt8}
    (run : input.foldlM Mining.Blake3.hasherAbsorb h = some h') : h'.Inv key flags :=
  foldlM_hasherAbsorb_of_step (fun inv step => inv.hasherAbsorb step) inv run

theorem Hasher.Inv.blake3HasherUpdate {key : List UInt32} {flags : UInt8} {h h' : Hasher}
    (inv : h.Inv key flags) {input : List UInt8}
    (update : blake3HasherUpdate h input = some h') : h'.Inv key flags := by
  rw [blake3HasherUpdate_eq_foldlM inv.wf] at update
  exact inv.foldlM update

/-- Every state reachable from an init satisfies the invariant with the init's key and
flags. -/
theorem Reachable.inv {v : InitVariant} {h0 h : Hasher} (start : v.init = some h0)
    (reach : Reachable v h) : h.Inv h0.key h0.chunk.flags := by
  induction reach with
  | init first =>
      rw [start, Option.some.injEq] at first
      subst first
      rw [(InitVariant.init_eq start).1]
      exact Hasher.Inv.fresh _ _
  | update input _ update ih => exact ih.blake3HasherUpdate update
  | reset _ ih =>
      rw [blake3HasherReset, ih.key_eq, ih.flags_eq, ← resetMask, (InitVariant.init_eq start).2]
      exact Hasher.Inv.fresh _ _

/-! ## Updates in pieces -/

/-- Updating piece by piece is one update with the concatenation, from every well-formed
state. -/
theorem foldlM_blake3HasherUpdate {h : Hasher} (wf : h.Wf) (pieces : List (List UInt8)) :
    pieces.foldlM blake3HasherUpdate h = blake3HasherUpdate h pieces.flatten := by
  induction pieces generalizing h with
  | nil => rw [List.foldlM_nil, List.flatten_nil, blake3HasherUpdate_eq_foldlM wf]; rfl
  | cons piece pieces ih =>
      rw [List.foldlM_cons, List.flatten_cons, blake3HasherUpdate_eq_foldlM wf,
        blake3HasherUpdate_eq_foldlM wf, List.foldlM_append]
      cases run : piece.foldlM hasherAbsorb h with
      | none => rfl
      | some h' =>
          simp only [Option.bind_eq_bind, Option.some_bind]
          rw [ih (wf.foldlM run), blake3HasherUpdate_eq_foldlM (wf.foldlM run)]

/-- For every init variant and every cut of an input into pieces, updating with the pieces
in turn leaves the same hasher as one update with the whole input (key, chunk state,
stack); so every `finalize_seek` agrees, and in default mode the 32-byte finalize is
`blake3_hash` of the whole input. -/
theorem blake3HasherUpdate_pieces {v : InitVariant} {h0 : Hasher} (start : v.init = some h0)
    (pieces : List (List UInt8)) :
    pieces.foldlM blake3HasherUpdate h0 = blake3HasherUpdate h0 pieces.flatten ∧
      (∀ seek outLen,
        (pieces.foldlM blake3HasherUpdate h0).map (blake3HasherFinalizeSeek · seek outLen) =
          (blake3HasherUpdate h0 pieces.flatten).map (blake3HasherFinalizeSeek · seek outLen)) ∧
      (v = .default →
        (pieces.foldlM blake3HasherUpdate h0).map (blake3HasherFinalize · blake3OutLen) =
          blake3Hash pieces.flatten) := by
  have same := foldlM_blake3HasherUpdate ((Reachable.init start).inv start).wf pieces
  refine ⟨same, fun _ _ => by rw [same], ?_⟩
  rintro rfl
  cases start
  rw [same, blake3Hash]

theorem blake3HasherUpdate_pieces_default :
    InitVariant.default.init = some blake3HasherInit ∧
      ([[1, 2], [], [3]].foldlM blake3HasherUpdate blake3HasherInit =
          blake3HasherUpdate blake3HasherInit [[1, 2], [], [3]].flatten ∧
        (∀ seek outLen,
          ([[1, 2], [], [3]].foldlM blake3HasherUpdate blake3HasherInit).map
              (blake3HasherFinalizeSeek · seek outLen) =
            (blake3HasherUpdate blake3HasherInit [[1, 2], [], [3]].flatten).map
              (blake3HasherFinalizeSeek · seek outLen)) ∧
        (InitVariant.default = .default →
          ([[1, 2], [], [3]].foldlM blake3HasherUpdate blake3HasherInit).map
              (blake3HasherFinalize · blake3OutLen) =
            blake3Hash [[1, 2], [], [3]].flatten)) :=
  have start : InitVariant.default.init = some blake3HasherInit := rfl
  ⟨start, blake3HasherUpdate_pieces start _⟩

end Mining.Blake3
