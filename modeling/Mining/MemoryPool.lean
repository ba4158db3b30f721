import Mathlib.Data.List.Basic
import Mathlib.Algebra.Group.Nat.Basic

/-!
# The scratchpad pool

`crypto/common/MemoryPool.cpp`: a `MemoryPool` of `n` pages allocates one `VirtualMemory`
of `n` 2 MiB pages and 16 MiB more, and hands out consecutive pieces of it. `get` returns
`scratchpad + m_alignOffset + m_offset` and advances the offset, after checking without
wrap-around that the piece fits (`getChecked`); that pointer is null, and the offset
advances all the same, when `scratchpad()` is null and both offsets are zero. `release`
drops a reference and rewinds the offset when none is left. `m_alignOffset` moves the start
of the pieces to the next 16 MiB boundary.

`MemoryPool.h` and `VirtualMemory` are not in this repository. The model takes the
`VirtualMemory` the constructor allocates as a parameter, of which the pool reads the
address `scratchpad()` and the `size_t` length `size()`, and starts the members at zero
and null, the values the constructor leaves them at when it returns early. The `size_t`
sums that can wrap are reduced modulo `2^64`; the `assert`s are compiled out of release
builds and not modelled.

Beside the pool runs a ghost: the pieces at the pointers `get` computed since the offset was
last rewound (`Trace`). Every call keeps them laid end to end from the aligned start
(`Trace.Inv.step`), so along every sequence of calls (`run_safe`) the start is aligned, the pieces are pairwise
disjoint, and each piece `get` hands out lies inside the allocation, after the sizes handed
out before it. When the `VirtualMemory` is allocated and as large as the pool asks, every
sequence of `get` calls for at most the pool's pages is granted in full, each with a non-null
pointer (`run_gets_granted`).
-/

namespace Mining

/-- `pageSize`: 2 MiB. -/
def pageSize : Nat := 2 * 1024 * 1024

/-- The constructor's `alignment`, `1 << 24`. -/
def alignment : Nat := 2 ^ 24

/-- What `MemoryPool` reads of its `VirtualMemory`: the address `scratchpad()` and the
`size_t` length `size()`. -/
structure VirtualMemory where
  scratchpad : Nat
  size : Nat
  size_lt : size < 2 ^ 64

/-- The members of a `MemoryPool`; `memory` is `none` for a null `m_memory`. -/
structure MemoryPool where
  refs : Nat
  offset : Nat
  alignOffset : Nat
  memory : Option VirtualMemory

namespace MemoryPool

/-- `MemoryPool::MemoryPool(size, hugePages, node)`; `allocate` stands for the
`VirtualMemory` constructor, applied to the byte count the pool asks for. -/
def new (allocate : Nat → VirtualMemory) (size : Nat) : MemoryPool :=
  if size = 0 then ⟨0, 0, 0, none⟩
  else
    let memory := allocate ((size * pageSize + alignment) % 2 ^ 64)
    ⟨0, 0, (alignment - memory.scratchpad % alignment) % alignment, some memory⟩

/-- The part of `MemoryPool::get(size, node)` past its three checks: the pointer
`scratchpad() + m_alignOffset + m_offset` and the pool after `m_offset += size; ++m_refs;`.
`none` where a check returns `nullptr` first. -/
def getChecked (pool : MemoryPool) (size : Nat) : Option (Nat × MemoryPool) :=
  match pool.memory with
  | none => none
  | some memory =>
    let totalSize := memory.size
    if pool.alignOffset > totalSize then none
    else if pool.offset > totalSize - pool.alignOffset then none
    else
      let remaining := totalSize - pool.alignOffset - pool.offset
      if remaining < size then none
      else
        some (memory.scratchpad + pool.alignOffset + pool.offset,
          { pool with offset := (pool.offset + size) % 2 ^ 64, refs := (pool.refs + 1) % 2 ^ 64 })

/-- `MemoryPool::get(size, node)`: the pointer it returns, `none` for `nullptr`, and the pool
after the call. Past the checks the pointer is null when `scratchpad()` is null and both
offsets are zero, and the pool has advanced all the same. -/
def get (pool : MemoryPool) (size : Nat) : Option Nat × MemoryPool :=
  match pool.getChecked size with
  | none => (none, pool)
  | some (out, pool') => (if out = 0 then none else some out, pool')

/-- `MemoryPool::release(node)`. -/
def release (pool : MemoryPool) : MemoryPool :=
  let refs := if pool.refs > 0 then pool.refs - 1 else pool.refs
  { pool with refs := refs, offset := if refs = 0 then 0 else pool.offset }

/-- A call on the pool. -/
inductive Call
  | get (size : Nat)
  | release
deriving DecidableEq, Repr

/-- The pool after a call. -/
def call (pool : MemoryPool) : Call → MemoryPool
  | .get size => (pool.get size).2
  | .release => pool.release

@[simp] theorem release_memory (pool : MemoryPool) : pool.release.memory = pool.memory := rfl

@[simp] theorem release_alignOffset (pool : MemoryPool) :
    pool.release.alignOffset = pool.alignOffset := rfl

theorem release_offset (pool : MemoryPool) :
    pool.release.offset = if pool.release.refs = 0 then 0 else pool.offset := rfl

/-- A `get` past its checks hands out the piece at the offset, which fits in the
allocation, and advances the offset by its size. -/
theorem getChecked_eq_some {pool pool' : MemoryPool} {size p : Nat}
    (h : pool.getChecked size = some (p, pool')) :
    ∃ memory, pool.memory = some memory ∧ pool.alignOffset + pool.offset + size ≤ memory.size ∧
      p = memory.scratchpad + pool.alignOffset + pool.offset ∧
      pool' = { pool with offset := pool.offset + size, refs := (pool.refs + 1) % 2 ^ 64 } := by
  unfold getChecked at h
  split at h
  · cases h
  · rename_i memory mem
    dsimp only at h
    split_ifs at h with over past short
    obtain ⟨rfl, rfl⟩ := Prod.mk.inj (Option.some.inj h)
    have fits := memory.size_lt
    refine ⟨memory, mem, by omega, rfl, ?_⟩
    rw [Nat.mod_eq_of_lt (by omega : pool.offset + size < 2 ^ 64)]

/-- A `get` that returns a pointer returned the one past its checks, which is not null. -/
theorem get_eq_some {pool pool' : MemoryPool} {size p : Nat}
    (h : pool.get size = (some p, pool')) : pool.getChecked size = some (p, pool') ∧ 0 < p := by
  unfold get at h
  split at h
  · cases h
  · rename_i out pool'' checked
    split_ifs at h with null <;> simp only [Prod.mk.injEq, reduceCtorEq, false_and,
      Option.some.injEq] at h
    obtain ⟨rfl, rfl⟩ := h
    exact ⟨checked, Nat.pos_of_ne_zero null⟩

/-- The sum of the sizes of the pieces `(address, size)`. -/
def grantedSize : List (Nat × Nat) → Nat
  | [] => 0
  | r :: rest => r.2 + grantedSize rest

/-- The pieces `(address, size)` `r` and `r'` share no byte. -/
def RegionsDisjoint (r r' : Nat × Nat) : Prop :=
  ∀ x, r.1 ≤ x → x < r.1 + r.2 → ¬ (r'.1 ≤ x ∧ x < r'.1 + r'.2)

/-- The pieces lie end to end from `base` and fill `offset` bytes. -/
def LaidOut : Nat → List (Nat × Nat) → Nat → Prop
  | _, [], offset => offset = 0
  | base, r :: rest, offset => r.1 = base ∧ r.2 ≤ offset ∧ LaidOut (base + r.2) rest (offset - r.2)

theorem LaidOut.append {base offset : Nat} {regions : List (Nat × Nat)}
    (laid : LaidOut base regions offset) (size : Nat) :
    LaidOut base (regions ++ [(base + offset, size)]) (offset + size) := by
  induction regions generalizing base offset with
  | nil =>
      simp only [LaidOut] at laid
      simp [LaidOut, laid]
  | cons r rest ih =>
      obtain ⟨start, fits, laid⟩ := laid
      have next := ih laid
      rw [show base + r.2 + (offset - r.2) = base + offset by omega,
        show offset - r.2 + size = offset + size - r.2 by omega] at next
      exact ⟨start, by omega, next⟩

theorem LaidOut.grantedSize_eq {base offset : Nat} {regions : List (Nat × Nat)}
    (laid : LaidOut base regions offset) : grantedSize regions = offset := by
  induction regions generalizing base offset with
  | nil => exact laid.symm
  | cons r rest ih =>
      obtain ⟨-, fits, laid⟩ := laid
      rw [grantedSize, ih laid]
      omega

theorem LaidOut.bounds {base offset : Nat} {regions : List (Nat × Nat)}
    (laid : LaidOut base regions offset) : ∀ r ∈ regions, base ≤ r.1 ∧ r.1 + r.2 ≤ base + offset := by
  induction regions generalizing base offset with
  | nil => simp
  | cons r rest ih =>
      obtain ⟨start, fits, laid⟩ := laid
      intro r' mem
      rcases List.mem_cons.1 mem with rfl | later
      · omega
      · have := ih laid r' later
        omega

/-- Each piece ends where the ones after it begin, or before. -/
theorem LaidOut.pairwise {base offset : Nat} {regions : List (Nat × Nat)}
    (laid : LaidOut base regions offset) : regions.Pairwise fun r r' => r.1 + r.2 ≤ r'.1 := by
  induction regions generalizing base offset with
  | nil => exact List.Pairwise.nil
  | cons r rest ih =>
      obtain ⟨start, -, laid⟩ := laid
      refine List.Pairwise.cons (fun r' later => ?_) (ih laid)
      have := laid.bounds r' later
      omega

theorem regionsDisjoint_of_le {r r' : Nat × Nat} (before : r.1 + r.2 ≤ r'.1) :
    RegionsDisjoint r r' := fun _ _ inside other => by omega

/-! ## The ghost of the pieces handed out -/

/-- The pool beside the pieces `(address, size)` handed out since its offset was last
rewound, oldest first. -/
structure Trace where
  pool : MemoryPool
  granted : List (Nat × Nat)

/-- A call on the pool, recording the piece at the pointer a `get` computes past its checks
(a null one included) and forgetting the pieces when `release` rewinds the offset. -/
def Trace.step (t : Trace) : Call → Trace
  | .get size =>
    match t.pool.getChecked size with
    | some (p, pool) => ⟨pool, t.granted ++ [(p, size)]⟩
    | none => t
  | .release => ⟨t.pool.release, if t.pool.release.refs = 0 then [] else t.granted⟩

/-- A pool of `pages` pages after a sequence of calls, with its ghost. -/
def Trace.run (allocate : Nat → VirtualMemory) (pages : Nat) (calls : List Call) : Trace :=
  calls.foldl Trace.step ⟨new allocate pages, []⟩

/-- The ghost only watches: the pool of a run is the pool the calls leave. -/
theorem Trace.run_pool (allocate : Nat → VirtualMemory) (pages : Nat) (calls : List Call) :
    (Trace.run allocate pages calls).pool = calls.foldl call (new allocate pages) := by
  suffices ∀ t : Trace, (calls.foldl Trace.step t).pool = calls.foldl call t.pool from this _
  induction calls with
  | nil => exact fun _ => rfl
  | cons c calls ih =>
      intro t
      rw [List.foldl_cons, List.foldl_cons, ih]
      congr 1
      cases c with
      | get size =>
          simp only [Trace.step, call, get]
          split <;> rename_i h <;> rw [h]
      | release => rfl

/-- The pieces handed out since the last rewind lie end to end from the aligned start of
the allocation. -/
structure Trace.Inv (memory : VirtualMemory) (t : Trace) : Prop where
  memory_eq : t.pool.memory = some memory
  alignOffset_eq : t.pool.alignOffset = (alignment - memory.scratchpad % alignment) % alignment
  laidOut : LaidOut (memory.scratchpad + t.pool.alignOffset) t.granted t.pool.offset

theorem Trace.Inv.init (allocate : Nat → VirtualMemory) {pages : Nat} (nonempty : 0 < pages) :
    Trace.Inv (allocate ((pages * pageSize + alignment) % 2 ^ 64)) ⟨new allocate pages, []⟩ := by
  simp only [new, if_neg (Nat.pos_iff_ne_zero.1 nonempty)]
  exact ⟨rfl, rfl, rfl⟩

theorem Trace.Inv.step {memory : VirtualMemory} {t : Trace} (inv : t.Inv memory) (c : Call) :
    (t.step c).Inv memory := by
  cases c with
  | get size =>
      simp only [Trace.step]
      split
      · rename_i p pool' h
        obtain ⟨memory', mem, -, rfl, rfl⟩ := getChecked_eq_some h
        cases inv.memory_eq.symm.trans mem
        exact ⟨inv.memory_eq, inv.alignOffset_eq, inv.laidOut.append size⟩
      · exact inv
  | release =>
      refine ⟨inv.memory_eq, inv.alignOffset_eq, ?_⟩
      simp only [Trace.step, release_alignOffset, release_offset]
      split
      · rfl
      · exact inv.laidOut

theorem Trace.Inv.run {memory : VirtualMemory} {t : Trace} (inv : t.Inv memory)
    (calls : List Call) : (calls.foldl Trace.step t).Inv memory := by
  induction calls generalizing t with
  | nil => exact inv
  | cons c calls ih => exact ih (inv.step c)

/-- What the pool promises at a point of a run over `memory`: the aligned start is a
multiple of 16 MiB, the pieces handed out since the offset was last rewound are pairwise
disjoint, and the next `get`, if it hands out a piece, hands out one inside the allocation
whose distance from the aligned start is the sum of the sizes handed out before it. -/
structure Trace.Safe (memory : VirtualMemory) (t : Trace) : Prop where
  aligned : (memory.scratchpad + t.pool.alignOffset) % alignment = 0
  disjoint : t.granted.Pairwise RegionsDisjoint
  get_inside : ∀ size p pool', t.pool.get size = (some p, pool') →
    memory.scratchpad ≤ p ∧ p + size ≤ memory.scratchpad + memory.size
  get_after : ∀ size p pool', t.pool.get size = (some p, pool') →
    p - (memory.scratchpad + t.pool.alignOffset) = grantedSize t.granted

theorem Trace.Inv.safe {memory : VirtualMemory} {t : Trace} (inv : t.Inv memory) :
    t.Safe memory where
  aligned := by
    rw [inv.alignOffset_eq, alignment]
    omega
  disjoint := inv.laidOut.pairwise.imp regionsDisjoint_of_le
  get_inside size p pool' h := by
    obtain ⟨memory', mem, fits, rfl, -⟩ := getChecked_eq_some (get_eq_some h).1
    cases inv.memory_eq.symm.trans mem
    omega
  get_after size p pool' h := by
    obtain ⟨memory', mem, -, rfl, -⟩ := getChecked_eq_some (get_eq_some h).1
    cases inv.memory_eq.symm.trans mem
    rw [inv.laidOut.grantedSize_eq]
    omega

/-- Along every sequence of `get` and `release` calls on a pool of at least one page, the
pool keeps its promises. -/
theorem run_safe {pages : Nat} (nonempty : 0 < pages) (allocate : Nat → VirtualMemory)
    (calls : List Call) :
    (Trace.run allocate pages calls).Safe (allocate ((pages * pageSize + alignment) % 2 ^ 64)) :=
  ((Trace.Inv.init allocate nonempty).run calls).safe

theorem run_safe_two_gets :
    0 < 1 ∧ (Trace.run (fun _ => ⟨2 ^ 30, 2 ^ 25, by decide⟩) 1
      [.get pageSize, .get pageSize, .release, .get (2 ^ 64 - 1)]).Safe ⟨2 ^ 30, 2 ^ 25, by decide⟩ :=
  ⟨by decide, run_safe (by decide) (fun _ => ⟨2 ^ 30, 2 ^ 25, by decide⟩)
    [.get pageSize, .get pageSize, .release, .get (2 ^ 64 - 1)]⟩

end MemoryPool

end Mining
