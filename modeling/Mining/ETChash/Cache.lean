import Mining.ETChash.Epoch

/-!
# The light cache of ETChash and Ethash

`crypto/etchash/ETCCache.cpp`: `ETCCache::init(epoch, isETC)` computes the light cache of an
epoch into a `VirtualMemory`, reusing the memory when it is large enough, and returns at once
when the cache already holds that epoch for the same flag. The OpenCL runner calls it on one
of two shared instances, `s_etcCache` and `s_ethCache`.

libethash's tables `cache_sizes` and `dag_sizes`, `ethash_get_seedhash` and
`ethash_compute_cache_nodes`, and xmrig's `VirtualMemory`, are not in this repository: the
model takes them as the fields of `ETCCache.Env`, and `ETCCache.Env.Wf` states the two facts
about them that `init` relies on.

* `ETCCache.init_of_le`, `ETCCache.init_of_lt`: an epoch past the table is refused and
  changes nothing; any other epoch is accepted and named by the cache.
* `ETCCache.Coherent`: a cache that names an epoch holds that epoch's nodes, for
  `cache_sizes[epoch]` bytes, in a memory large enough for them. Every `init` keeps it, so it
  holds after every run of calls from `ETCCache()` (`ETCCache.Coherent.run`), and the memo
  path of `init` returns the right nodes (`init_after_run`).
-/

namespace Mining

/-- What `ETCCache` reads of a `VirtualMemory`: its `size()` and the bytes the light cache
computation wrote at `raw()`. -/
structure ETCCache.VirtualMemory where
  size : Nat
  raw : List UInt8
  deriving DecidableEq, Repr

/-- An `ETCCache`: `m_memory` (`none` while null), `m_size`, `m_epoch` and `m_isETC`. -/
structure ETCCache where
  memory : Option ETCCache.VirtualMemory
  size : Nat
  epoch : Nat
  isETC : Bool
  deriving DecidableEq, Repr

namespace ETCCache

/-- What `ETCCache` calls outside this repository. -/
structure Env where
  /-- libethash's `cache_sizes` table. -/
  cacheSizes : List Nat
  /-- libethash's `dag_sizes` table. -/
  dagSizes : List Nat
  /-- `ethash_get_seedhash(epoch)`. -/
  getSeedhash : Nat → List UInt8
  /-- The bytes `ethash_compute_cache_nodes(raw, size, &seed)` writes at `raw`. -/
  computeCacheNodes : Nat → List UInt8 → List UInt8
  /-- `size()` of a `new VirtualMemory(size, false, false, false)`. -/
  virtualMemorySize : Nat → Nat

/-- What `init` relies on: a new memory holds the bytes asked for, and no index of
`cache_sizes` is the `uint32_t` sentinel `0xFFFFFFFF` of a new cache. -/
structure Env.Wf (env : Env) : Prop where
  virtualMemorySize_ge : ∀ size, size ≤ env.virtualMemorySize size
  cacheSizes_length : env.cacheSizes.length ≤ 0xFFFFFFFF

/-- `ETCCache()`: the member initialisers. -/
def new : ETCCache := ⟨none, 0, 0xFFFFFFFF, true⟩

section

variable (env : Env)

/-- `ETCCache::cacheSize`. -/
def cacheSize (epoch : Nat) : Nat :=
  if env.cacheSizes.length ≤ epoch then 0 else env.cacheSizes.getD epoch 0

/-- `ETCCache::dagSize`. -/
def dagSize (epoch : Nat) : Nat :=
  if env.dagSizes.length ≤ epoch then 0 else env.dagSizes.getD epoch 0

/-- `ETCCache::seedHash`: the loop's stores into `seed` are all overwritten by the final
`ethash_get_seedhash(epoch)`. -/
def seedHash (epoch : Nat) : List UInt8 := env.getSeedhash epoch

/-- `ETCCache::init`: the result and the cache after it. -/
def init (self : ETCCache) (epoch : Nat) (isETC : Bool) : Bool × ETCCache :=
  if env.cacheSizes.length ≤ epoch then (false, self)
  else if self.epoch = epoch ∧ self.isETC = isETC then (true, self)
  else
    let size := env.cacheSizes.getD epoch 0
    let memorySize := match self.memory with
      | some memory => if memory.size < size then env.virtualMemorySize size else memory.size
      | none => env.virtualMemorySize size
    (true, ⟨some ⟨memorySize, env.computeCacheNodes size (seedHash env epoch)⟩, size, epoch, isETC⟩)

/-- `ETCCache::data()`: the bytes at `raw()`, `none` for `nullptr`. -/
def data (self : ETCCache) : Option (List UInt8) := self.memory.map (·.raw)

/-- A run of `init` calls, each an epoch and a flag. -/
def run (self : ETCCache) (calls : List (Nat × Bool)) : ETCCache :=
  calls.foldl (fun self call => (init env self call.1 call.2).2) self

/-- A cache that names an epoch holds that epoch's nodes, computed for `cache_sizes[epoch]`
bytes, in a memory of at least that many bytes. -/
def Coherent (self : ETCCache) : Prop :=
  self.epoch ≠ 0xFFFFFFFF →
    self.epoch < env.cacheSizes.length ∧ self.size = cacheSize env self.epoch ∧
      ∃ memory, self.memory = some memory ∧ self.size ≤ memory.size ∧
        memory.raw = env.computeCacheNodes self.size (seedHash env self.epoch)

theorem coherent_new : Coherent env new := fun named => absurd rfl named

/-- An epoch past the table is refused and changes nothing. -/
theorem init_of_le {epoch : Nat} (past : env.cacheSizes.length ≤ epoch) (self : ETCCache)
    (isETC : Bool) : init env self epoch isETC = (false, self) := by
  rw [init, if_pos past]

theorem cacheSize_of_lt {epoch : Nat} (within : epoch < env.cacheSizes.length) :
    cacheSize env epoch = env.cacheSizes.getD epoch 0 := by
  rw [cacheSize, if_neg (by omega)]

/-- An epoch inside the table is accepted: the cache then names the epoch and the flag, and
holds `cache_sizes[epoch]` bytes, in the same memory when the cache already held them. -/
theorem init_of_lt {epoch : Nat} (within : epoch < env.cacheSizes.length) (self : ETCCache)
    (isETC : Bool) :
    (init env self epoch isETC).1 = true ∧ (init env self epoch isETC).2.epoch = epoch ∧
      (init env self epoch isETC).2.isETC = isETC ∧
      ((self.epoch = epoch ∧ self.isETC = isETC) → (init env self epoch isETC).2 = self) := by
  unfold init
  rw [if_neg (by omega)]
  split_ifs with hit
  · exact ⟨rfl, hit.1, hit.2, fun _ => rfl⟩
  · exact ⟨rfl, rfl, rfl, fun same => absurd same hit⟩

variable {env}

/-- Every `init` keeps a cache coherent. -/
theorem Coherent.init (wf : env.Wf) {self : ETCCache} (coherent : Coherent env self)
    (epoch : Nat) (isETC : Bool) :
    Coherent env (init env self epoch isETC).2 := by
  by_cases past : env.cacheSizes.length ≤ epoch
  · rw [init_of_le env past]
    exact coherent
  · unfold Mining.ETCCache.init
    rw [if_neg past]
    split_ifs with hit
    · exact coherent
    · have within : epoch < env.cacheSizes.length := by omega
      intro _
      dsimp only
      refine ⟨within, (cacheSize_of_lt env within).symm, _, rfl, ?_, rfl⟩
      split
      · split_ifs with grow
        · exact wf.virtualMemorySize_ge _
        · exact Nat.le_of_not_lt grow
      · exact wf.virtualMemorySize_ge _

theorem Coherent.run (wf : env.Wf) {self : ETCCache} (coherent : Coherent env self)
    (calls : List (Nat × Bool)) : Coherent env (run env self calls) := by
  induction calls generalizing self with
  | nil => exact coherent
  | cons call calls ih => exact ih (coherent.init wf call.1 call.2)

/-- After any run of `init` calls from `ETCCache()`, the next call succeeds exactly when the epoch is inside `cache_sizes`. On success the cache names the epoch
and the flag and holds that epoch's nodes, for `cache_sizes[epoch]` bytes, in a memory large
enough for them, whether it computed them now or on an earlier call; on failure the cache is
unchanged. -/
theorem init_after_run (wf : env.Wf) (calls : List (Nat × Bool)) (epoch : Nat) (isETC : Bool) :
    ((init env (run env new calls) epoch isETC).1 = true ↔ epoch < env.cacheSizes.length) ∧
    ((init env (run env new calls) epoch isETC).1 = true →
      (init env (run env new calls) epoch isETC).2.epoch = epoch ∧
      (init env (run env new calls) epoch isETC).2.isETC = isETC ∧
      (init env (run env new calls) epoch isETC).2.size = cacheSize env epoch ∧
      ∃ memory, (init env (run env new calls) epoch isETC).2.memory = some memory ∧
        cacheSize env epoch ≤ memory.size ∧
        (init env (run env new calls) epoch isETC).2.data =
          some (env.computeCacheNodes (cacheSize env epoch) (seedHash env epoch))) ∧
    ((init env (run env new calls) epoch isETC).1 = false →
      (init env (run env new calls) epoch isETC).2 = run env new calls) := by
  by_cases past : env.cacheSizes.length ≤ epoch
  · rw [init_of_le env past]
    exact ⟨by simp only [Bool.false_eq_true, false_iff]; omega, fun ok => absurd ok Bool.false_ne_true,
      fun _ => rfl⟩
  · obtain ⟨ok, named, flag, -⟩ := init_of_lt env (by omega : epoch < _) (run env new calls) isETC
    have coherent := ((coherent_new env).run wf calls).init wf epoch isETC
    obtain ⟨-, size, memory, held, fits, raw⟩ :=
      coherent (by rw [named]; have := wf.cacheSizes_length; omega)
    rw [named] at size raw
    refine ⟨⟨fun _ => by omega, fun _ => ok⟩, fun _ => ⟨named, flag, size, memory, held,
      size ▸ fits, ?_⟩, fun failed => Bool.noConfusion (ok.symm.trans failed)⟩
    rw [data, held, Option.map_some', raw, size]

end

/-- Two epochs, with stand-ins for libethash's functions, to instantiate the theorems on. -/
def sampleEnv : Env := ⟨[16, 32], [64, 128], fun epoch => [UInt8.ofNat epoch],
  fun size seed => List.replicate size 0 ++ seed, id⟩

theorem sampleEnv_wf : sampleEnv.Wf := ⟨fun _ => le_refl _, by decide⟩

theorem init_after_run_sample :
    sampleEnv.Wf ∧
    ((init sampleEnv (run sampleEnv new [(0, true)]) 1 false).1 = true ↔ 1 < sampleEnv.cacheSizes.length) ∧
    ((init sampleEnv (run sampleEnv new [(0, true)]) 1 false).1 = true →
      (init sampleEnv (run sampleEnv new [(0, true)]) 1 false).2.epoch = 1 ∧
      (init sampleEnv (run sampleEnv new [(0, true)]) 1 false).2.isETC = false ∧
      (init sampleEnv (run sampleEnv new [(0, true)]) 1 false).2.size = cacheSize sampleEnv 1 ∧
      ∃ memory, (init sampleEnv (run sampleEnv new [(0, true)]) 1 false).2.memory = some memory ∧
        cacheSize sampleEnv 1 ≤ memory.size ∧
        (init sampleEnv (run sampleEnv new [(0, true)]) 1 false).2.data =
          some (sampleEnv.computeCacheNodes (cacheSize sampleEnv 1) (seedHash sampleEnv 1))) ∧
    ((init sampleEnv (run sampleEnv new [(0, true)]) 1 false).1 = false →
      (init sampleEnv (run sampleEnv new [(0, true)]) 1 false).2 = run sampleEnv new [(0, true)]) :=
  ⟨sampleEnv_wf, init_after_run sampleEnv_wf [(0, true)] 1 false⟩

end ETCCache

end Mining
