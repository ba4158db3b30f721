import Mathlib.Data.List.Basic
import Mathlib.Algebra.Group.Nat.Basic

/-!
# The proxy's miner counters

`proxy/Counters.h`: `Counters::add` counts a miner with `m_miners.fetch_add`, then raises
`m_maxMiners` to the count it produced with a `compare_exchange_weak` loop, and
`Counters::remove` uncounts it with `m_miners.fetch_sub`. All accesses are relaxed atomics
on shared counters, and threads interleave at every atomic step.

The model is a step function on the shared counters and the place of every thread
(`System.step`): each thread runs `add` and `remove` in turn, one atomic step at a time, in
any order the scheduler picks, and each compare-and-swap may fail spuriously. The counters
are `uint32_t` and `uint64_t` and wrap, as `Fin (2 ^ 32)` and `Fin (2 ^ 64)` do.

A ghost list beside the system holds the threads whose miner `m_miners` counts. Every step
keeps `m_miners` equal to the starting count plus the counted threads, modulo `2^64`
(`Ghost.Counts.step`), so with no call under way it counts exactly the connected threads
(`run_miners_eq_connected`). Every step also keeps the capped count at most `m_maxMiners` or
at most the count some counted thread's `fetch_add` produced (`Ghost.Inv.step`). A returned
`add` has raised the maximum to its own count, so once every call has returned the maximum
is at least the count (`run_maxSafe`).
-/

namespace Mining.Counters

/-- The atomics `add` and `remove` touch. -/
structure Shared where
  added : Fin (2 ^ 32)
  removed : Fin (2 ^ 32)
  maxMiners : Fin (2 ^ 64)
  miners : Fin (2 ^ 64)
deriving DecidableEq, Repr

/-- Where a thread stands in `add` and `remove`: each constructor names the thread's next
atomic step. A thread calls `add` and `remove` in turn. -/
inductive Pc
  /-- Outside both calls: `add`'s `m_miners.fetch_add` comes next. -/
  | idle
  /-- `add` holds `current`; `m_added.fetch_add` comes next. -/
  | countAdded (current : Fin (2 ^ 64))
  /-- `m_maxMiners.load` comes next. -/
  | loadMax (current : Fin (2 ^ 64))
  /-- The loop test with the expected value `maxVal`, and the compare-and-swap. -/
  | loop (current maxVal : Fin (2 ^ 64))
  /-- `add` has returned; the model keeps the count it produced as a label. `remove`'s
  `m_miners.fetch_sub` comes next. -/
  | connected (current : Fin (2 ^ 64))
  /-- `m_removed.fetch_add` comes next. -/
  | countRemoved
deriving DecidableEq, Repr

/-- One atomic step of a thread at `pc`: the counters after it and the thread's next place.
`spurious` makes a `compare_exchange_weak` fail although the value was the expected one; a
failed one loads the value into `maxVal`. -/
def threadStep (s : Shared) (spurious : Bool) : Pc → Shared × Pc
  | .idle => ({ s with miners := s.miners + 1 }, .countAdded (s.miners + 1))
  | .countAdded current => ({ s with added := s.added + 1 }, .loadMax current)
  | .loadMax current => (s, .loop current s.maxMiners)
  | .loop current maxVal =>
      if current > maxVal then
        if s.maxMiners = maxVal ∧ spurious = false then
          ({ s with maxMiners := current }, .connected current)
        else (s, .loop current s.maxMiners)
      else (s, .connected current)
  | .connected _ => ({ s with miners := s.miners - 1 }, .countRemoved)
  | .countRemoved => ({ s with removed := s.removed + 1 }, .idle)

/-- The counters and the place of every thread. -/
structure System where
  shared : Shared
  pc : Nat → Pc

/-- The scheduler runs one atomic step of `thread`. -/
def System.step (sys : System) (thread : Nat) (spurious : Bool) : System :=
  let next := threadStep sys.shared spurious (sys.pc thread)
  ⟨next.1, fun t => if t = thread then next.2 else sys.pc t⟩

/-- Every thread outside both calls, with the counters at `shared`. -/
def System.init (shared : Shared) : System := ⟨shared, fun _ => .idle⟩

/-- The steps of a schedule, each a thread and whether a compare-and-swap at that step fails
spuriously. -/
def System.run (sys : System) (schedule : List (Nat × Bool)) : System :=
  schedule.foldl (fun sys step => sys.step step.1 step.2) sys

/-- No call is under way: every thread is outside both calls or between them. -/
def System.Quiescent (sys : System) : Prop :=
  ∀ t, sys.pc t = .idle ∨ ∃ current, sys.pc t = .connected current

/-- What `Counters` promises of `m_maxMiners`: it does not decrease at the next step, every
returned `add` has left it at least the count its own `fetch_add` produced, and with no call
under way `maxMiners() ≥ miners()`. -/
structure System.MaxSafe (sys : System) : Prop where
  max_monotone : ∀ thread spurious, sys.shared.maxMiners ≤ (sys.step thread spurious).shared.maxMiners
  add_returned : ∀ thread current, sys.pc thread = .connected current → current ≤ sys.shared.maxMiners
  quiescent : sys.Quiescent → sys.shared.miners ≤ sys.shared.maxMiners

/-! ## One thread's step -/

/-- Whether the thread's miner is counted in `m_miners`: after `add`'s `fetch_add`, before
`remove`'s `fetch_sub`. -/
def Pc.counted : Pc → Bool
  | .idle | .countRemoved => false
  | _ => true

/-- The count the thread's `add` produced, while its miner is counted. -/
def Pc.current : Pc → Nat
  | .countAdded current | .loadMax current | .loop current _ | .connected current => current.val
  | .idle | .countRemoved => 0

/-- The labels bounded by `m_maxMiners`: the expected value of a pending compare-and-swap,
and the count of a returned `add`. -/
def Pc.Below (max : Nat) : Pc → Prop
  | .loop _ maxVal => maxVal.val ≤ max
  | .connected current => current.val ≤ max
  | _ => True

theorem Pc.Below.mono {pc : Pc} {a b : Nat} (below : pc.Below a) (le : a ≤ b) : pc.Below b := by
  cases pc <;> simp only [Pc.Below] at below ⊢ <;> omega

/-- A compare-and-swap only raises `m_maxMiners`. -/
theorem threadStep_maxMiners_le (s : Shared) (spurious : Bool) (pc : Pc) :
    s.maxMiners.val ≤ (threadStep s spurious pc).1.maxMiners.val := by
  cases pc with
  | loop current maxVal =>
      simp only [threadStep]
      split_ifs with more cas
      · rw [cas.1]
        exact Nat.le_of_lt more
      all_goals exact Nat.le_refl _
  | _ => exact Nat.le_refl _

theorem threadStep_below {s : Shared} {pc : Pc} (below : pc.Below s.maxMiners.val)
    (spurious : Bool) :
    (threadStep s spurious pc).2.Below (threadStep s spurious pc).1.maxMiners.val := by
  cases pc with
  | loop current maxVal =>
      simp only [Pc.Below] at below
      simp only [threadStep]
      split_ifs with more cas
      · exact Nat.le_refl _
      · exact Nat.le_refl _
      · simp only [Pc.Below]
        exact Nat.le_trans (Nat.le_of_not_lt more) below
  | loadMax current => exact Nat.le_refl _
  | _ => trivial

/-- The steps other than the two counting ones keep the count and the labels. -/
theorem threadStep_keeps {s : Shared} {pc : Pc} (notIdle : pc ≠ .idle)
    (notConnected : ∀ c, pc ≠ .connected c) (spurious : Bool) :
    (threadStep s spurious pc).1.miners = s.miners ∧
      (threadStep s spurious pc).2.counted = pc.counted ∧
      (threadStep s spurious pc).2.current = pc.current := by
  cases pc with
  | idle => exact absurd rfl notIdle
  | connected c => exact absurd rfl (notConnected c)
  | loop current maxVal =>
      simp only [threadStep]
      split_ifs <;> exact ⟨rfl, rfl, rfl⟩
  | _ => exact ⟨rfl, rfl, rfl⟩

/-! ## The ghost of the counted threads -/

/-- The threads whose miner is counted after `thread` steps from `pc`: `fetch_add` counts it
and `fetch_sub` uncounts it. -/
def holdersStep (holders : List Nat) (thread : Nat) : Pc → List Nat
  | .idle => thread :: holders
  | .connected _ => holders.erase thread
  | _ => holders

/-- The system beside the threads whose miner `m_miners` counts. -/
structure Ghost where
  sys : System
  holders : List Nat

def Ghost.step (g : Ghost) (thread : Nat) (spurious : Bool) : Ghost :=
  ⟨g.sys.step thread spurious, holdersStep g.holders thread (g.sys.pc thread)⟩

/-- The count the miners started from plus the counted threads, capped at `2^64 - 1`. -/
def Ghost.level (start : Nat) (g : Ghost) : Nat := min (start + g.holders.length) (2 ^ 64 - 1)

/-- The counted threads: each listed once, exactly the threads between `fetch_add` and
`fetch_sub`, and `m_miners` is the unreduced count modulo `2^64`. -/
structure Ghost.Counts (start : Nat) (g : Ghost) : Prop where
  nodup : g.holders.Nodup
  holders_iff : ∀ t, t ∈ g.holders ↔ (g.sys.pc t).counted = true
  miners_eq : g.sys.shared.miners.val = (start + g.holders.length) % 2 ^ 64

/-- Beside the counts, the capped count is at most `m_maxMiners` or at most the count of a
counted thread, and every label is bounded by `m_maxMiners`. -/
structure Ghost.Inv (start : Nat) (g : Ghost) extends g.Counts start : Prop where
  reach : g.level start ≤ g.sys.shared.maxMiners.val ∨ ∃ t ∈ g.holders, g.level start ≤ (g.sys.pc t).current
  below : ∀ t, (g.sys.pc t).Below g.sys.shared.maxMiners.val

theorem Ghost.step_pc_of_ne (g : Ghost) {thread t : Nat} (spurious : Bool) (ne : t ≠ thread) :
    (g.step thread spurious).sys.pc t = g.sys.pc t := if_neg ne

theorem Ghost.step_pc_self (g : Ghost) (thread : Nat) (spurious : Bool) :
    (g.step thread spurious).sys.pc thread = (threadStep g.sys.shared spurious (g.sys.pc thread)).2 :=
  if_pos rfl

@[simp] theorem val_one_uint64 : (1 : Fin (2 ^ 64)).val = 1 := rfl

theorem Ghost.step_of_idle {g : Ghost} {thread : Nat} (spurious : Bool)
    (idle : g.sys.pc thread = .idle) :
    g.step thread spurious =
      ⟨⟨{ g.sys.shared with miners := g.sys.shared.miners + 1 },
        fun t => if t = thread then .countAdded (g.sys.shared.miners + 1) else g.sys.pc t⟩,
        thread :: g.holders⟩ := by
  simp only [Ghost.step, System.step, idle, threadStep, holdersStep]

theorem Ghost.step_of_connected {g : Ghost} {thread : Nat} (spurious : Bool) {current : Fin (2 ^ 64)}
    (connected : g.sys.pc thread = .connected current) :
    g.step thread spurious =
      ⟨⟨{ g.sys.shared with miners := g.sys.shared.miners - 1 },
        fun t => if t = thread then .countRemoved else g.sys.pc t⟩, g.holders.erase thread⟩ := by
  simp only [Ghost.step, System.step, connected, threadStep, holdersStep]

theorem holdersStep_keeps {pc : Pc} (notIdle : pc ≠ .idle) (notConnected : ∀ c, pc ≠ .connected c)
    (holders : List Nat) (thread : Nat) : holdersStep holders thread pc = holders := by
  cases pc with
  | idle => exact absurd rfl notIdle
  | connected c => exact absurd rfl (notConnected c)
  | _ => rfl

/-- The other steps keep the counted threads and their counts. -/
theorem Ghost.step_keeps {g : Ghost} {thread : Nat} (spurious : Bool)
    (notIdle : g.sys.pc thread ≠ .idle) (notConnected : ∀ c, g.sys.pc thread ≠ .connected c) :
    (g.step thread spurious).holders = g.holders ∧
      (g.step thread spurious).sys.shared.miners = g.sys.shared.miners ∧
      ∀ t, ((g.step thread spurious).sys.pc t).counted = (g.sys.pc t).counted ∧
        ((g.step thread spurious).sys.pc t).current = (g.sys.pc t).current := by
  obtain ⟨miners, counted, current⟩ := threadStep_keeps (s := g.sys.shared) notIdle notConnected spurious
  refine ⟨holdersStep_keeps notIdle notConnected g.holders thread, miners, fun t => ?_⟩
  by_cases eq : t = thread
  · subst eq
    rw [g.step_pc_self]
    exact ⟨counted, current⟩
  · rw [g.step_pc_of_ne spurious eq]
    exact ⟨rfl, rfl⟩

/-! ## The counts -/

/-- `add`'s `fetch_add` counts the thread. -/
theorem Ghost.Counts.step_idle {start : Nat} {g : Ghost} (counts : g.Counts start) {thread : Nat}
    (spurious : Bool) (idle : g.sys.pc thread = .idle) : (g.step thread spurious).Counts start := by
  have fresh : thread ∉ g.holders := by simp [counts.holders_iff, idle, Pc.counted]
  rw [g.step_of_idle spurious idle]
  refine ⟨List.nodup_cons.2 ⟨fresh, counts.nodup⟩, fun t => ?_, ?_⟩
  · by_cases same : t = thread
    · simp [same, Pc.counted]
    · simp [same, counts.holders_iff]
  · simp only [Fin.val_add, val_one_uint64, counts.miners_eq, List.length_cons]
    omega

/-- `remove`'s `fetch_sub` uncounts the thread. -/
theorem Ghost.Counts.step_connected {start : Nat} {g : Ghost} (counts : g.Counts start)
    {thread : Nat} (spurious : Bool) {current : Fin (2 ^ 64)}
    (connected : g.sys.pc thread = .connected current) : (g.step thread spurious).Counts start := by
  have held : thread ∈ g.holders := by simp [counts.holders_iff, connected, Pc.counted]
  have length := List.length_erase_of_mem held
  have pos := List.length_pos_of_mem held
  rw [g.step_of_connected spurious connected]
  refine ⟨counts.nodup.erase thread, fun t => ?_, ?_⟩
  · by_cases same : t = thread
    · simp [same, Pc.counted, List.Nodup.mem_erase_iff counts.nodup]
    · simp [same, counts.holders_iff, List.Nodup.mem_erase_iff counts.nodup]
  · simp only [Fin.coe_sub, val_one_uint64, counts.miners_eq, length]
    omega

theorem Ghost.Counts.step {start : Nat} {g : Ghost} (counts : g.Counts start) (thread : Nat)
    (spurious : Bool) : (g.step thread spurious).Counts start := by
  cases pc : g.sys.pc thread with
  | idle => exact counts.step_idle spurious pc
  | connected current => exact counts.step_connected spurious pc
  | _ =>
      obtain ⟨holders, miners, same⟩ := g.step_keeps spurious (by rw [pc]; exact nofun)
        (by rw [pc]; exact fun _ => nofun)
      refine ⟨holders ▸ counts.nodup, fun t => ?_, ?_⟩
      · rw [holders, (same t).1, counts.holders_iff]
      · rw [holders, miners, counts.miners_eq]

/-! ## The maximum -/

theorem Ghost.Inv.step_below {start : Nat} {g : Ghost} (inv : g.Inv start) (thread : Nat)
    (spurious : Bool) (t : Nat) :
    ((g.step thread spurious).sys.pc t).Below (g.step thread spurious).sys.shared.maxMiners.val := by
  by_cases self : t = thread
  · subst self
    rw [g.step_pc_self]
    exact threadStep_below (inv.below t) spurious
  · rw [g.step_pc_of_ne spurious self]
    exact (inv.below t).mono (threadStep_maxMiners_le g.sys.shared spurious (g.sys.pc thread))

/-- After `fetch_add`, the thread's own count reaches the capped count, unless the count was
already capped. -/
theorem Ghost.Inv.reach_idle {start : Nat} {g : Ghost} (inv : g.Inv start) {thread : Nat}
    (spurious : Bool) (idle : g.sys.pc thread = .idle) :
    (g.step thread spurious).level start ≤ (g.step thread spurious).sys.shared.maxMiners.val ∨
      ∃ t ∈ (g.step thread spurious).holders,
        (g.step thread spurious).level start ≤ ((g.step thread spurious).sys.pc t).current := by
  have fresh : thread ∉ g.holders := by simp [inv.holders_iff, idle, Pc.counted]
  have miners := inv.miners_eq
  rw [g.step_of_idle spurious idle]
  simp only [Ghost.level, List.length_cons, List.mem_cons]
  by_cases room : start + g.holders.length + 1 < 2 ^ 64
  · refine Or.inr ⟨thread, Or.inl rfl, ?_⟩
    simp only [↓reduceIte, Pc.current, Fin.val_add, val_one_uint64, miners]
    omega
  · rcases inv.reach with le | ⟨t, mem, le⟩
    · simp only [Ghost.level] at le
      exact Or.inl (by omega)
    · have ne : t ≠ thread := fun same => fresh (same ▸ mem)
      refine Or.inr ⟨t, Or.inr mem, ?_⟩
      simp only [if_neg ne]
      simp only [Ghost.level] at le
      omega

/-- After `fetch_sub`, the capped count is one less; the thread's own count was bounded by
the maximum, since its `add` had returned. -/
theorem Ghost.Inv.reach_connected {start : Nat} {g : Ghost} (inv : g.Inv start) {thread : Nat}
    (spurious : Bool) {current : Fin (2 ^ 64)} (connected : g.sys.pc thread = .connected current) :
    (g.step thread spurious).level start ≤ (g.step thread spurious).sys.shared.maxMiners.val ∨
      ∃ t ∈ (g.step thread spurious).holders,
        (g.step thread spurious).level start ≤ ((g.step thread spurious).sys.pc t).current := by
  have held : thread ∈ g.holders := by simp [inv.holders_iff, connected, Pc.counted]
  have returned : current.val ≤ g.sys.shared.maxMiners.val := by
    simpa [connected, Pc.Below] using inv.below thread
  have length := List.length_erase_of_mem held
  rw [g.step_of_connected spurious connected]
  simp only [Ghost.level, length]
  rcases inv.reach with le | ⟨t, mem, le⟩
  · simp only [Ghost.level] at le
    exact Or.inl (by omega)
  · by_cases same : t = thread
    · subst same
      simp only [Ghost.level, connected, Pc.current] at le
      exact Or.inl (by omega)
    · refine Or.inr ⟨t, (List.Nodup.mem_erase_iff inv.nodup).2 ⟨same, mem⟩, ?_⟩
      simp only [if_neg same]
      simp only [Ghost.level] at le
      omega

theorem Ghost.Inv.step {start : Nat} {g : Ghost} (inv : g.Inv start) (thread : Nat)
    (spurious : Bool) : (g.step thread spurious).Inv start := by
  refine ⟨inv.toCounts.step thread spurious, ?_, inv.step_below thread spurious⟩
  cases pc : g.sys.pc thread with
  | idle => exact inv.reach_idle spurious pc
  | connected current => exact inv.reach_connected spurious pc
  | _ =>
      obtain ⟨holders, -, same⟩ := g.step_keeps spurious (by rw [pc]; exact nofun)
        (by rw [pc]; exact fun _ => nofun)
      have maxLe := threadStep_maxMiners_le g.sys.shared spurious (g.sys.pc thread)
      simp only [Ghost.level, holders]
      rcases inv.reach with le | ⟨t, mem, le⟩
      · exact Or.inl (Nat.le_trans le maxLe)
      · exact Or.inr ⟨t, mem, (same t).2 ▸ le⟩

theorem Ghost.Inv.quiescent {start : Nat} {g : Ghost} (inv : g.Inv start)
    (quiet : g.sys.Quiescent) : g.sys.shared.miners ≤ g.sys.shared.maxMiners := by
  show g.sys.shared.miners.val ≤ g.sys.shared.maxMiners.val
  have capped : g.sys.shared.miners.val ≤ g.level start := by
    rw [inv.miners_eq, Ghost.level]
    omega
  rcases inv.reach with le | ⟨t, mem, le⟩
  · omega
  · have returned := inv.below t
    rcases quiet t with idle | ⟨current, connected⟩
    · have := (inv.holders_iff t).1 mem
      rw [idle] at this
      cases this
    · rw [connected] at le returned
      simp only [Pc.current, Pc.Below] at le returned
      omega

/-! ## Every run -/

/-- The ghost only watches: the system of a ghost run is the system's run. -/
theorem Ghost.run_sys (g : Ghost) (schedule : List (Nat × Bool)) :
    (schedule.foldl (fun g step => g.step step.1 step.2) g).sys = g.sys.run schedule := by
  induction schedule generalizing g with
  | nil => rfl
  | cons step schedule ih => exact ih (g.step step.1 step.2)

theorem Ghost.Counts.run {start : Nat} {g : Ghost} (counts : g.Counts start)
    (schedule : List (Nat × Bool)) :
    (schedule.foldl (fun g step => g.step step.1 step.2) g).Counts start := by
  induction schedule generalizing g with
  | nil => exact counts
  | cons step schedule ih => exact ih (counts.step step.1 step.2)

theorem Ghost.Inv.run {start : Nat} {g : Ghost} (inv : g.Inv start) (schedule : List (Nat × Bool)) :
    (schedule.foldl (fun g step => g.step step.1 step.2) g).Inv start := by
  induction schedule generalizing g with
  | nil => exact inv
  | cons step schedule ih => exact ih (inv.step step.1 step.2)

theorem Ghost.Counts.init (shared : Shared) :
    Ghost.Counts shared.miners.val ⟨System.init shared, []⟩ where
  nodup := List.nodup_nil
  holders_iff _ := by simp [System.init, Pc.counted]
  miners_eq := (Nat.mod_eq_of_lt shared.miners.isLt).symm

theorem Ghost.Inv.init {shared : Shared} (start : shared.miners ≤ shared.maxMiners) :
    Ghost.Inv shared.miners.val ⟨System.init shared, []⟩ where
  toCounts := Ghost.Counts.init shared
  reach := Or.inl (by simp only [Ghost.level, List.length_nil, Nat.add_zero]; exact Nat.le_trans (Nat.min_le_left _ _) start)
  below _ := trivial

theorem System.maxMiners_le_step (sys : System) (thread : Nat) (spurious : Bool) :
    sys.shared.maxMiners ≤ (sys.step thread spurious).shared.maxMiners :=
  threadStep_maxMiners_le sys.shared spurious (sys.pc thread)

/-- From counters with `m_miners ≤ m_maxMiners` and every thread outside both calls, every
interleaving of `add` and `remove` keeps the maximum. -/
theorem run_maxSafe {shared : Shared} (start : shared.miners ≤ shared.maxMiners)
    (schedule : List (Nat × Bool)) : ((System.init shared).run schedule).MaxSafe := by
  have inv := (Ghost.Inv.init start).run schedule
  have sys : (schedule.foldl (fun (g : Ghost) step => g.step step.1 step.2) ⟨System.init shared, []⟩).sys =
      (System.init shared).run schedule := Ghost.run_sys _ schedule
  rw [← sys]
  refine ⟨fun thread spurious => System.maxMiners_le_step _ thread spurious,
    fun thread current connected => ?_, inv.quiescent⟩
  have returned := inv.below thread
  rw [connected] at returned
  exact returned

theorem run_maxSafe_two_threads :
    (⟨0, 0, 0, 0⟩ : Shared).miners ≤ (⟨0, 0, 0, 0⟩ : Shared).maxMiners ∧
      ((System.init ⟨0, 0, 0, 0⟩).run
        [(0, false), (1, false), (0, false), (1, false), (0, false), (1, false), (1, true),
          (0, false), (1, false)]).MaxSafe :=
  ⟨by decide, run_maxSafe (by decide) _⟩

/-- With no call under way, `m_miners` is the starting count plus the threads between `add`
and `remove`, modulo `2^64`: no `fetch_add` or `fetch_sub` is lost. -/
theorem run_miners_eq_connected (shared : Shared) (schedule : List (Nat × Bool)) :
    let sys := (System.init shared).run schedule
    sys.Quiescent → ∃ connected : List Nat, connected.Nodup ∧
      (∀ t, t ∈ connected ↔ ∃ current, sys.pc t = .connected current) ∧
      sys.shared.miners.val = (shared.miners.val + connected.length) % 2 ^ 64 := by
  intro sys quiet
  set g := schedule.foldl (fun (g : Ghost) step => g.step step.1 step.2) ⟨System.init shared, []⟩
  have counts : g.Counts shared.miners.val := (Ghost.Counts.init shared).run schedule
  have run : g.sys = sys := Ghost.run_sys _ schedule
  refine ⟨g.holders, counts.nodup, fun t => ?_, by rw [← run]; exact counts.miners_eq⟩
  rw [counts.holders_iff, run]
  rcases quiet t with idle | ⟨current, connected⟩
  · simp [idle, Pc.counted]
  · simp [connected, Pc.counted]

/-- Thread 1 adds and removes its miner while thread 0 adds its own, and one of thread 1's
compare-and-swaps fails spuriously: at the end thread 0 is connected and thread 1 idle. -/
theorem run_miners_eq_connected_one_left :
    let sys := (System.init ⟨0, 0, 0, 0⟩).run
      [(0, false), (1, false), (0, false), (1, false), (0, false), (1, false), (1, true),
        (0, false), (1, false), (1, false), (1, false), (1, false)]
    sys.Quiescent ∧ ∃ connected : List Nat, connected.Nodup ∧
      (∀ t, t ∈ connected ↔ ∃ current, sys.pc t = .connected current) ∧
      sys.shared.miners.val = ((⟨0, 0, 0, 0⟩ : Shared).miners.val + connected.length) % 2 ^ 64 :=
  have quiet : ((System.init ⟨0, 0, 0, 0⟩).run
      [(0, false), (1, false), (0, false), (1, false), (0, false), (1, false), (1, true),
        (0, false), (1, false), (1, false), (1, false), (1, false)]).Quiescent := by
    intro t
    rcases t with _ | _ | t
    · exact .inr ⟨_, rfl⟩
    · exact .inl rfl
    · exact .inl rfl
  ⟨quiet, run_miners_eq_connected _ _ quiet⟩

end Mining.Counters
