import Mining.ETChash.Cache

/-!
# The OpenCL ETChash runner and the shared light caches

`backend/opencl/runners/OclEtchashRunner.cpp`: on every job, `set` computes the epoch of the
job's height, grows the DAG buffer when the epoch's DAG does not fit, and on a new epoch
initialises one of the two shared caches (`s_etcCache` for ETChash, `s_ethCache` for Ethash),
uploads its bytes to the device's light cache buffer, and runs the DAG kernel over them.

Every device has its own runner, and the runners share the two caches. The part of `set`
that touches a cache runs under `ETCCache::s_cacheMutex`, and the rest touches only the
runner's own members and device buffers, so a call of `set` is one step of `Devices`
whatever the interleaving of the threads.

The DAG kernel and `VirtualMemory::align` are not in this repository; `Env` takes them as
fields, beside those of `ETCCache.Env`.

* `Runner.Inv.set`: every `set` keeps a runner's invariant: on an epoch inside the table its
  light cache buffer holds that epoch's nodes and its DAG buffer the DAG computed from them,
  each in a buffer large enough, and the search program keeps the DAG element count of
  epoch 0 that `build()` compiled into it.
* `Devices.Inv.run`: across every sequence of jobs on any runners, the shared caches stay
  coherent and every runner keeps its invariant (`runners_after_jobs`); the runner that takes
  a job is then on the job's epoch and holds its light cache and DAG (`runner_after_job`).
-/

namespace Mining.OclEtchashRunner

/-- What the runner calls outside this repository besides what `ETCCache` calls. -/
structure Env extends ETCCache.Env where
  /-- `VirtualMemory::align(pos, align)`. -/
  align : Nat → Nat → Nat
  /-- The default `align` argument of `VirtualMemory::align`. -/
  defaultAlignment : Nat
  /-- The bytes `Etchash_CalculateDAGKernel` writes to `m_dag` from the light cache bytes,
  `dag_words` and the light cache's node count. -/
  calculateDag : List UInt8 → Nat → Nat → List UInt8

/-- What `set` relies on: `ETCCache.Env.Wf`, and an aligned size holds the size. -/
structure Env.Wf (env : Env) : Prop where
  cache : env.toEnv.Wf
  align_ge : ∀ pos, pos ≤ env.align pos (16 * 1024 * 1024) ∧ pos ≤ env.align pos env.defaultAlignment

/-- The members of an `OclEtchashRunner` that `set` reads or writes. The device buffers are
the bytes written to them, `none` for a buffer just created. -/
structure Runner where
  /-- `m_isETC`. -/
  isETC : Bool
  /-- `m_epoch`. -/
  epoch : Nat
  /-- `m_lightCacheSize`. -/
  lightCacheSize : Nat
  /-- `m_lightCacheCapacity`. -/
  lightCacheCapacity : Nat
  /-- The bytes in `m_lightCache`. -/
  lightCache : Option (List UInt8)
  /-- `m_dagCapacity`. -/
  dagCapacity : Nat
  /-- The bytes in `m_dag`. -/
  dag : Option (List UInt8)
  /-- The `PROGPOW_DAG_ELEMENTS` the search program was built with. -/
  dagElements : Nat
  deriving DecidableEq, Repr

/-- A runner after its constructor and `build()`: `build()` compiles the search program for
the DAG of epoch 0, `dag_sizes[0] / 256` elements. -/
def Runner.new (env : Env) (isETC : Bool) : Runner :=
  ⟨isETC, 0xFFFFFFFF, 0, 0, none, 0, none, env.dagSizes.getD 0 0 / 256⟩

/-- The DAG buffer check of `set`: a new buffer, aligned to 16 MiB, when the epoch's DAG
does not fit. -/
def growDag (env : Env) (r : Runner) (dagSize : Nat) : Runner :=
  if r.dagCapacity < dagSize then
    { r with dagCapacity := env.align dagSize (16 * 1024 * 1024), dag := none }
  else r

/-- The new-epoch block of `set` after `cache.init`: a new light cache buffer when the cache
does not fit, the cache's `size()` bytes uploaded from `data()`, and the DAG kernel run over
them with the `uint32_t` `dag_words = dag_size / sizeof(node)`. -/
def loadEpoch (env : Env) (r : Runner) (epoch dagSize : Nat) (cache : ETCCache) : Runner :=
  let r := if r.lightCacheCapacity < cache.size then
      { r with lightCacheCapacity := env.align cache.size env.defaultAlignment, lightCache := none }
    else r
  let lightCache := cache.data.map (·.take cache.size)
  { r with
    epoch := epoch
    lightCacheSize := cache.size
    lightCache := lightCache
    dag := lightCache.map fun light =>
      env.calculateDag light (dagSize / 64 % 2 ^ 32) (cache.size / 64) }

/-- `OclEtchashRunner::set` on the runner and the two shared caches; the job's height is
cast to `uint32_t`. -/
def set (env : Env) (etcCache ethCache : ETCCache) (r : Runner) (height : Nat) :
    ETCCache × ETCCache × Runner :=
  let epoch := calculateEpoch (height % 2 ^ 32) r.isETC
  let dagSize := ETCCache.dagSize env.toEnv epoch
  let r := growDag env r dagSize
  if epoch ≠ r.epoch then
    let cache := (ETCCache.init env.toEnv (if r.isETC then etcCache else ethCache) epoch r.isETC).2
    if r.isETC then (cache, ethCache, loadEpoch env r epoch dagSize cache)
    else (etcCache, cache, loadEpoch env r epoch dagSize cache)
  else (etcCache, ethCache, r)

/-- The light cache bytes of an epoch: the first `cache_sizes[epoch]` bytes of its nodes. -/
def lightCacheBytes (env : Env) (epoch : Nat) : List UInt8 :=
  (env.computeCacheNodes (ETCCache.cacheSize env.toEnv epoch)
    (ETCCache.seedHash env.toEnv epoch)).take (ETCCache.cacheSize env.toEnv epoch)

/-- What a runner keeps: on an epoch inside the table, that epoch's light cache and the DAG
computed from it, in buffers large enough for them; and the DAG element count of epoch 0 in
the search program. -/
structure Runner.Inv (env : Env) (r : Runner) : Prop where
  coherent : r.epoch < env.cacheSizes.length →
    r.lightCacheSize = ETCCache.cacheSize env.toEnv r.epoch ∧
    r.lightCacheSize ≤ r.lightCacheCapacity ∧
    r.lightCache = some (lightCacheBytes env r.epoch) ∧
    ETCCache.dagSize env.toEnv r.epoch ≤ r.dagCapacity ∧
    r.dag = some (env.calculateDag (lightCacheBytes env r.epoch)
      (ETCCache.dagSize env.toEnv r.epoch / 64 % 2 ^ 32) (ETCCache.cacheSize env.toEnv r.epoch / 64))
  dagElements_eq : r.dagElements = env.dagSizes.getD 0 0 / 256

theorem Runner.Inv.new {env : Env} (wf : env.Wf) (isETC : Bool) :
    (Runner.new env isETC).Inv env :=
  ⟨fun named => absurd named (by have := wf.cache.cacheSizes_length; simp only [Runner.new]; omega),
    rfl⟩

section

variable {env : Env}

/-- The DAG check changes only the DAG buffer. -/
theorem growDag_eq (r : Runner) (dagSize : Nat) :
    ∃ capacity dag, growDag env r dagSize = { r with dagCapacity := capacity, dag := dag } := by
  unfold growDag
  split
  · exact ⟨_, _, rfl⟩
  · exact ⟨r.dagCapacity, r.dag, rfl⟩

theorem dagSize_le_growDag (wf : env.Wf) (r : Runner) (dagSize : Nat) :
    dagSize ≤ (growDag env r dagSize).dagCapacity := by
  unfold growDag
  split
  · exact (wf.align_ge dagSize).1
  · omega

theorem growDag_of_le {r : Runner} {dagSize : Nat} (fits : dagSize ≤ r.dagCapacity) :
    growDag env r dagSize = r := by
  rw [growDag, if_neg (by omega)]

@[simp] theorem loadEpoch_isETC (r : Runner) (epoch dagSize : Nat) (cache : ETCCache) :
    (loadEpoch env r epoch dagSize cache).isETC = r.isETC := by
  unfold loadEpoch; split <;> rfl

@[simp] theorem loadEpoch_epoch (r : Runner) (epoch dagSize : Nat) (cache : ETCCache) :
    (loadEpoch env r epoch dagSize cache).epoch = epoch := rfl

/-- `set` keeps the runner on its algorithm and moves it to the epoch of the job's height. -/
theorem set_isETC_epoch (etcCache ethCache : ETCCache) (r : Runner) (height : Nat) :
    (set env etcCache ethCache r height).2.2.isETC = r.isETC ∧
    (set env etcCache ethCache r height).2.2.epoch = calculateEpoch (height % 2 ^ 32) r.isETC := by
  obtain ⟨capacity, dag, grown⟩ := @growDag_eq env r
    (ETCCache.dagSize env.toEnv (calculateEpoch (height % 2 ^ 32) r.isETC))
  unfold Mining.OclEtchashRunner.set
  dsimp only
  rw [grown]
  dsimp only
  split_ifs with moved
  all_goals simp only [loadEpoch_isETC, loadEpoch_epoch, true_and]
  exact (not_not.mp moved).symm

/-- Loading an epoch that the cache names, when the epoch's DAG fits, leaves the runner
holding that epoch's light cache and DAG. -/
theorem Runner.Inv.loadEpoch (wf : env.Wf) {r : Runner} {epoch dagSize : Nat}
    (fits : dagSize ≤ r.dagCapacity) (dagElements : r.dagElements = env.dagSizes.getD 0 0 / 256)
    (dagSizeEq : dagSize = ETCCache.dagSize env.toEnv epoch)
    {cache : ETCCache} (coherent : ETCCache.Coherent env.toEnv cache)
    (named : epoch < env.cacheSizes.length → cache.epoch = epoch) :
    (loadEpoch env r epoch dagSize cache).Inv env := by
  refine ⟨fun within => ?_, by unfold Mining.OclEtchashRunner.loadEpoch; split <;> exact dagElements⟩
  change epoch < _ at within
  have limit := wf.cache.cacheSizes_length
  obtain ⟨-, size, memory, held, -, raw⟩ := coherent (by rw [named within]; omega)
  rw [named within] at size raw
  have upload : cache.data.map (·.take cache.size) = some (lightCacheBytes env epoch) := by
    rw [ETCCache.data, held, Option.map_some', Option.map_some', raw, size]
    rfl
  unfold Mining.OclEtchashRunner.loadEpoch
  split
  all_goals refine ⟨size, ?_, upload, dagSizeEq ▸ fits, ?_⟩
  · exact (wf.align_ge _).2
  · dsimp only; rw [upload, Option.map_some', size, dagSizeEq]
  · exact Nat.le_of_not_lt ‹_›
  · dsimp only; rw [upload, Option.map_some', size, dagSizeEq]

/-- Every `set` keeps both shared caches coherent and the runner's invariant. -/
theorem Runner.Inv.set (wf : env.Wf) {etcCache ethCache : ETCCache}
    (etc : ETCCache.Coherent env.toEnv etcCache) (eth : ETCCache.Coherent env.toEnv ethCache)
    {r : Runner} (inv : r.Inv env) (height : Nat) :
    ETCCache.Coherent env.toEnv (set env etcCache ethCache r height).1 ∧
    ETCCache.Coherent env.toEnv (set env etcCache ethCache r height).2.1 ∧
    (set env etcCache ethCache r height).2.2.Inv env := by
  obtain ⟨capacity, dag, grown⟩ := @growDag_eq env r
    (ETCCache.dagSize env.toEnv (calculateEpoch (height % 2 ^ 32) r.isETC))
  have fits := dagSize_le_growDag wf r
    (ETCCache.dagSize env.toEnv (calculateEpoch (height % 2 ^ 32) r.isETC))
  rw [grown] at fits
  unfold Mining.OclEtchashRunner.set
  dsimp only
  rw [grown]
  dsimp only
  split_ifs with moved flag
  · -- a new ETChash epoch: `s_etcCache` is initialised and loaded
    have cache := etc.init wf.cache (calculateEpoch (height % 2 ^ 32) r.isETC) r.isETC
    exact ⟨cache, eth, Runner.Inv.loadEpoch wf fits inv.dagElements_eq rfl cache
      fun within => (ETCCache.init_of_lt env.toEnv within _ _).2.1⟩
  · -- a new Ethash epoch: `s_ethCache`
    have cache := eth.init wf.cache (calculateEpoch (height % 2 ^ 32) r.isETC) r.isETC
    exact ⟨etc, cache, Runner.Inv.loadEpoch wf fits inv.dagElements_eq rfl cache
      fun within => (ETCCache.init_of_lt env.toEnv within _ _).2.1⟩
  · -- the same epoch: nothing but, possibly, a DAG buffer that no coherent runner needs
    refine ⟨etc, eth, fun within => ?_, inv.dagElements_eq⟩
    rw [← grown, growDag_of_le (by rw [not_not.mp moved]; exact (inv.coherent within).2.2.2.1)]
    exact inv.coherent within
end

/-- The two shared caches and the runner of every OpenCL device. -/
structure Devices where
  etcCache : ETCCache
  ethCache : ETCCache
  runners : List Runner
  deriving DecidableEq, Repr

namespace Devices

/-- The caches as `ETCCache()` leaves them, and a runner after `build()` for every device,
`true` for a device on ETChash. -/
def init (env : Env) (devices : List Bool) : Devices :=
  ⟨ETCCache.new, ETCCache.new, devices.map (Runner.new env)⟩

/-- A job of height `height` for the device at `index`: that runner's `set`, its cache part
under `s_cacheMutex`. A job for no device changes nothing. -/
def step (env : Env) (d : Devices) (job : Nat × Nat) : Devices :=
  match d.runners[job.1]? with
  | some r =>
    let next := set env d.etcCache d.ethCache r job.2
    ⟨next.1, next.2.1, d.runners.set job.1 next.2.2⟩
  | none => d

/-- The jobs in the order the devices' threads took the mutex. -/
def run (env : Env) (d : Devices) (jobs : List (Nat × Nat)) : Devices :=
  jobs.foldl (step env) d

/-- Both shared caches are coherent and every runner keeps its invariant. -/
structure Inv (env : Env) (d : Devices) : Prop where
  etcCoherent : ETCCache.Coherent env.toEnv d.etcCache
  ethCoherent : ETCCache.Coherent env.toEnv d.ethCache
  runners : ∀ r ∈ d.runners, r.Inv env

section

variable {env : Env}

theorem Inv.init (wf : env.Wf) (devices : List Bool) : (init env devices).Inv env := by
  refine ⟨ETCCache.coherent_new _, ETCCache.coherent_new _, ?_⟩
  simp only [Devices.init, List.mem_map]
  rintro _ ⟨isETC, -, rfl⟩
  exact Runner.Inv.new wf isETC

theorem Inv.step (wf : env.Wf) {d : Devices} (inv : d.Inv env) (job : Nat × Nat) :
    (step env d job).Inv env := by
  unfold Devices.step
  split
  · rename_i r found
    obtain ⟨etc, eth, runner⟩ :=
      Runner.Inv.set wf inv.etcCoherent inv.ethCoherent (inv.runners r (List.getElem?_mem found)) job.2
    refine ⟨etc, eth, fun r' mem => ?_⟩
    rcases List.mem_or_eq_of_mem_set mem with old | rfl
    · exact inv.runners r' old
    · exact runner
  · exact inv

theorem run_append (d : Devices) (jobs more : List (Nat × Nat)) :
    run env d (jobs ++ more) = run env (run env d jobs) more :=
  List.foldl_append _ _ _ _

theorem Inv.run (wf : env.Wf) {d : Devices} (inv : d.Inv env) (jobs : List (Nat × Nat)) :
    (run env d jobs).Inv env := by
  induction jobs generalizing d with
  | nil => exact inv
  | cons job jobs ih => exact ih (inv.step wf job)

private theorem set_of_getElem? {α : Type} {l : List α} {i : Nat} {a : α} (found : l[i]? = some a) :
    l.set i a = l := by
  induction l generalizing i with
  | nil => cases found
  | cons b l ih =>
    cases i with
    | zero => rw [List.getElem?_cons_zero, Option.some.injEq] at found; rw [found]; rfl
    | succ i => exact congrArg (b :: ·) (ih (by rwa [List.getElem?_cons_succ] at found))

/-- A step leaves every device on its algorithm. -/
theorem isETC_step (d : Devices) (job : Nat × Nat) :
    (step env d job).runners.map Runner.isETC = d.runners.map Runner.isETC := by
  unfold Devices.step
  split
  · rename_i r found
    rw [List.map_set, (set_isETC_epoch _ _ r job.2).1]
    exact set_of_getElem? (by rw [List.getElem?_map, found]; rfl)
  · rfl

theorem isETC_run (d : Devices) (jobs : List (Nat × Nat)) :
    (run env d jobs).runners.map Runner.isETC = d.runners.map Runner.isETC := by
  induction jobs generalizing d with
  | nil => rfl
  | cons job jobs ih => exact (ih _).trans (isETC_step d job)

theorem isETC_run_init (devices : List Bool) (jobs : List (Nat × Nat)) :
    ((init env devices).run env jobs).runners.map Runner.isETC = devices := by
  rw [isETC_run, init, List.map_map]
  exact List.map_id _

end

end Devices

/-- `ETCCache.sampleEnv`, with stand-ins for the DAG kernel and `VirtualMemory::align`. -/
def sampleEnv : Env :=
  { toEnv := ETCCache.sampleEnv, align := fun pos _ => pos, defaultAlignment := 64,
    calculateDag := fun light _ _ => light }

theorem sampleEnv_wf : sampleEnv.Wf := ⟨ETCCache.sampleEnv_wf, fun _ => ⟨le_refl _, le_refl _⟩⟩

section

variable {env : Env}

/-- Whatever jobs the devices' threads run, in whatever order they take the cache mutex, both
shared caches stay coherent, every device stays on its algorithm, and every runner holds, for
its epoch inside the table, that epoch's light cache and the DAG computed from it, in buffers
large enough for them. -/
theorem runners_after_jobs (wf : env.Wf) (devices : List Bool) (jobs : List (Nat × Nat)) :
    ETCCache.Coherent env.toEnv ((Devices.init env devices).run env jobs).etcCache ∧
    ETCCache.Coherent env.toEnv ((Devices.init env devices).run env jobs).ethCache ∧
    ((Devices.init env devices).run env jobs).runners.map Runner.isETC = devices ∧
    ∀ r ∈ ((Devices.init env devices).run env jobs).runners, r.Inv env := by
  have inv := (Devices.Inv.init wf devices).run wf jobs
  exact ⟨inv.etcCoherent, inv.ethCoherent, Devices.isETC_run_init devices jobs, inv.runners⟩

theorem runners_after_jobs_sample :
    sampleEnv.Wf ∧
    ETCCache.Coherent sampleEnv.toEnv
      ((Devices.init sampleEnv [true, false]).run sampleEnv [(0, 0), (1, 40000), (0, 90000)]).etcCache ∧
    ETCCache.Coherent sampleEnv.toEnv
      ((Devices.init sampleEnv [true, false]).run sampleEnv [(0, 0), (1, 40000), (0, 90000)]).ethCache ∧
    ((Devices.init sampleEnv [true, false]).run sampleEnv
      [(0, 0), (1, 40000), (0, 90000)]).runners.map Runner.isETC = [true, false] ∧
    ∀ r ∈ ((Devices.init sampleEnv [true, false]).run sampleEnv
      [(0, 0), (1, 40000), (0, 90000)]).runners, r.Inv sampleEnv :=
  ⟨sampleEnv_wf, runners_after_jobs sampleEnv_wf [true, false] [(0, 0), (1, 40000), (0, 90000)]⟩

/-- The runner that takes a job, after any jobs before it on any devices, is on the epoch of
the job's height for its device's algorithm, and when that epoch is inside the table it holds
the epoch's light cache bytes and the DAG computed from them. -/
theorem runner_after_job (wf : env.Wf) (devices : List Bool) (jobs : List (Nat × Nat))
    {index : Nat} (onDevice : index < devices.length) (height : Nat) :
    ∃ r, ((Devices.init env devices).run env (jobs ++ [(index, height)])).runners[index]? = some r ∧
      r.isETC = devices[index] ∧ r.epoch = calculateEpoch (height % 2 ^ 32) devices[index] ∧
      (r.epoch < env.cacheSizes.length →
        r.lightCache = some (lightCacheBytes env r.epoch) ∧
        r.dag = some (env.calculateDag (lightCacheBytes env r.epoch)
          (ETCCache.dagSize env.toEnv r.epoch / 64 % 2 ^ 32) (ETCCache.cacheSize env.toEnv r.epoch / 64))) := by
  have inv := (Devices.Inv.init wf devices).run wf jobs
  have flags := @Devices.isETC_run_init env devices jobs
  rw [Devices.run_append]
  generalize (Devices.init env devices).run env jobs = d at inv flags ⊢
  obtain ⟨r, found⟩ : ∃ r, d.runners[index]? = some r :=
    ⟨_, List.getElem?_eq_getElem (by rw [← List.length_map d.runners Runner.isETC, flags]; exact onDevice)⟩
  have flag : some r.isETC = some devices[index] := by
    rw [← List.getElem?_eq_getElem onDevice, ← flags, List.getElem?_map, found]; rfl
  obtain ⟨-, -, runner⟩ :=
    Runner.Inv.set wf inv.etcCoherent inv.ethCoherent (inv.runners r (List.getElem?_mem found)) height
  obtain ⟨isETC, epoch⟩ := @set_isETC_epoch env d.etcCache d.ethCache r height
  refine ⟨_, ?_, isETC.trans (Option.some.inj flag), Option.some.inj flag ▸ epoch,
    fun within => ⟨(runner.coherent within).2.2.1, (runner.coherent within).2.2.2.2⟩⟩
  simp only [Devices.run, List.foldl, Devices.step, found]
  exact List.getElem?_set_self (List.getElem?_eq_some_iff.1 found).1

theorem runner_after_job_sample :
    sampleEnv.Wf ∧ 1 < [true, false].length ∧
    ∃ r, ((Devices.init sampleEnv [true, false]).run sampleEnv ([(0, 0)] ++ [(1, 40000)])).runners[1]? =
        some r ∧
      r.isETC = [true, false][1] ∧ r.epoch = calculateEpoch (40000 % 2 ^ 32) [true, false][1] ∧
      (r.epoch < sampleEnv.cacheSizes.length →
        r.lightCache = some (lightCacheBytes sampleEnv r.epoch) ∧
        r.dag = some (sampleEnv.calculateDag (lightCacheBytes sampleEnv r.epoch)
          (ETCCache.dagSize sampleEnv.toEnv r.epoch / 64 % 2 ^ 32)
          (ETCCache.cacheSize sampleEnv.toEnv r.epoch / 64))) :=
  ⟨sampleEnv_wf, by decide, runner_after_job sampleEnv_wf [true, false] [(0, 0)] (by decide) 40000⟩

end

end Mining.OclEtchashRunner
