import Mathlib.Data.List.Basic

/-!
# The proxy's controller and its `Proxy` object

`proxy/src/core/Controller.cpp`: `init()` allocates the `Proxy` once `Base::init()`
succeeds, `stop()` and the destructor delete it and clear `m_proxy`, and every other member
reaches the `Proxy` only after checking `m_proxy` for null. `Base` and `Proxy` are not in this
repository; the model keeps of them what the controller does to the `Proxy` object: a call of
one of its members, or its deletion.

The heap of `Proxy` objects is the list of those allocated and not yet deleted. A call of a
member through a pointer to no live object, or a `delete` of one, is undefined behaviour, and
the model returns `none` there.

* `Inv.step_cases`: a call on a controller whose `m_proxy` is null or live is defined, and it
  changes nothing, allocates a new `Proxy` into `m_proxy`, or deletes the one `m_proxy` holds.
* `run_destroy_safe`: so no sequence of calls followed by the destructor deletes or uses a
  freed `Proxy`, and the destructor leaves `m_proxy` null.
* `init_twice_leaks`: a second successful `init()` without `stop()` overwrites `m_proxy`; the
  `Proxy` the first one allocated is then never deleted, whatever calls follow, the destructor
  included.
-/

namespace Mining

/-- `m_proxy` (the `Proxy` it points at, `none` for `nullptr`), the `Proxy` objects allocated
and not deleted, and the name the next `new Proxy` gets. -/
structure Controller where
  proxy : Option Nat
  live : List Nat
  next : Nat
  deriving DecidableEq, Repr

namespace Controller

/-- A new `Controller`: `m_proxy(nullptr)`, and no `Proxy` allocated yet. -/
def new : Controller := ⟨none, [], 0⟩

/-- `m_proxy = new Proxy(this)`: the next name, now live. -/
def allocate (c : Controller) : Controller := ⟨some c.next, c.next :: c.live, c.next + 1⟩

/-- A call of a member of the `Proxy` at `p`: undefined unless `p` is live. -/
def use (c : Controller) (p : Nat) : Option Controller := if p ∈ c.live then some c else none

/-- `delete m_proxy; m_proxy = nullptr;`: deleting `nullptr` does nothing, and deleting a
pointer to no live object is undefined. -/
def deleteProxy (c : Controller) : Option Controller :=
  match c.proxy with
  | none => some c
  | some p => if p ∈ c.live then some ⟨none, c.live.erase p, c.next⟩ else none

/-- The member functions of `Controller` that touch `m_proxy`; `init` carries the result of
`Base::init()`. -/
inductive Call where
  | init (rc : Int)
  | start
  | stop
  | statsData
  | workers
  | miners
  | execCommand (command : Char)
  deriving DecidableEq, Repr

/-- A member call guarded by `m_proxy ? … : empty` or `if (m_proxy)`. -/
def useIfSet (c : Controller) : Option Controller :=
  match c.proxy with
  | some p => use c p
  | none => some c

/-- The commands `execCommand` forwards to the `Proxy` in a release build. -/
def proxyCommands : List Char := ['h', 'H', 'c', 'C', 'd', 'D', 'w', 'W']

/-- One call of a member function. -/
def step (c : Controller) : Call → Option Controller
  | .init rc => if rc ≠ 0 then some c else some c.allocate
  | .start => useIfSet c
  | .stop => deleteProxy c
  | .statsData => useIfSet c
  | .workers => useIfSet c
  | .miners => useIfSet c
  | .execCommand command =>
    if command = 'v' ∨ command = 'V' then some c
    else if c.proxy = none then some c
    else if command ∈ proxyCommands then useIfSet c
    else some c

/-- A sequence of calls; `none` once one is undefined. -/
def run (c : Controller) (calls : List Call) : Option Controller := calls.foldlM step c

/-- `~Controller()`: `if (m_proxy) { delete m_proxy; m_proxy = nullptr; }`. -/
def destroy (c : Controller) : Option Controller := deleteProxy c

/-- `m_proxy` is null or points at a live `Proxy`, the live objects are distinct, and every
name is below the next one. -/
structure Inv (c : Controller) : Prop where
  proxy_live : ∀ p, c.proxy = some p → p ∈ c.live
  nodup : c.live.Nodup
  lt_next : ∀ p ∈ c.live, p < c.next

/-- A `Proxy` that is allocated and that `m_proxy` no longer holds. -/
structure Orphaned (p : Nat) (c : Controller) : Prop where
  inv : Inv c
  live : p ∈ c.live
  unset : c.proxy ≠ some p

theorem Inv.new : Inv new :=
  ⟨fun _ none => Option.noConfusion none, List.nodup_nil, fun _ mem => absurd mem (List.not_mem_nil _)⟩

/-- Every run whose calls are defined and keep a property from one controller to the next. -/
theorem run_of_step {P : Controller → Prop}
    (step_keeps : ∀ {c}, P c → ∀ call, ∃ c', step c call = some c' ∧ P c') {c : Controller}
    (start : P c) (calls : List Call) : ∃ c', run c calls = some c' ∧ P c' := by
  induction calls generalizing c with
  | nil => exact ⟨c, rfl, start⟩
  | cons call calls ih =>
    obtain ⟨next, stepped, kept⟩ := step_keeps start call
    obtain ⟨c', rest, kept'⟩ := ih kept
    exact ⟨c', by rw [run, List.foldlM_cons, stepped]; exact rest, kept'⟩

theorem run_append (c : Controller) (calls calls' : List Call) :
    run c (calls ++ calls') = (run c calls).bind fun c' => run c' calls' :=
  List.foldlM_append _ _ _ _

section

variable {c : Controller}

theorem Inv.allocate (inv : Inv c) : Inv c.allocate where
  proxy_live _ set := by cases set; exact List.mem_cons_self _ _
  nodup := List.nodup_cons.2 ⟨fun mem => Nat.lt_irrefl _ (inv.lt_next _ mem), inv.nodup⟩
  lt_next q mem := by
    rcases List.mem_cons.1 mem with rfl | old
    · exact Nat.lt_succ_self _
    · exact Nat.lt_succ_of_lt (inv.lt_next q old)

theorem Inv.erase (inv : Inv c) (p : Nat) : Inv ⟨none, c.live.erase p, c.next⟩ :=
  ⟨fun _ none => Option.noConfusion none, inv.nodup.erase p,
    fun q mem => inv.lt_next q (List.mem_of_mem_erase mem)⟩

theorem Inv.useIfSet (inv : Inv c) : Controller.useIfSet c = some c := by
  unfold Controller.useIfSet use
  split
  · rw [if_pos (inv.proxy_live _ ‹_›)]
  · rfl

/-- `delete m_proxy` on an invariant controller: nothing if it is null, else the `Proxy` it
holds is freed. -/
theorem Inv.deleteProxy_cases (inv : Inv c) :
    Controller.deleteProxy c = some c ∧ c.proxy = none ∨
      ∃ p, c.proxy = some p ∧ Controller.deleteProxy c = some ⟨none, c.live.erase p, c.next⟩ := by
  unfold Controller.deleteProxy
  split
  · exact .inl ⟨rfl, ‹_›⟩
  · rename_i p set
    exact .inr ⟨p, set, if_pos (inv.proxy_live p set)⟩

/-- `delete` on an invariant controller is defined, clears `m_proxy` and keeps the invariant. -/
theorem Inv.deleteProxy (inv : Inv c) :
    ∃ c', Controller.deleteProxy c = some c' ∧ c'.proxy = none ∧ Inv c' := by
  rcases inv.deleteProxy_cases with ⟨kept, unset⟩ | ⟨p, -, deleted⟩
  · exact ⟨c, kept, unset, inv⟩
  · exact ⟨_, deleted, rfl, inv.erase p⟩

/-- What one call can do to an invariant controller: it is defined, and it changes nothing,
allocates a new `Proxy` into `m_proxy`, or frees the `Proxy` that `m_proxy` holds. -/
theorem Inv.step_cases (inv : Inv c) (call : Call) :
    step c call = some c ∨ step c call = some c.allocate ∨
      ∃ p, c.proxy = some p ∧ step c call = some ⟨none, c.live.erase p, c.next⟩ := by
  cases call with
  | init rc =>
    by_cases failed : rc ≠ 0
    · exact .inl (if_pos failed)
    · exact .inr (.inl (if_neg failed))
  | stop => exact inv.deleteProxy_cases.imp (fun deleted => deleted.1) .inr
  | execCommand command =>
    show (if command = 'v' ∨ command = 'V' then some c else if c.proxy = none then some c
      else if command ∈ proxyCommands then Controller.useIfSet c else some c) = some c ∨ _
    split_ifs
    · exact .inl rfl
    · exact .inl rfl
    · exact .inl inv.useIfSet
    · exact .inl rfl
  | start => exact .inl inv.useIfSet
  | statsData => exact .inl inv.useIfSet
  | workers => exact .inl inv.useIfSet
  | miners => exact .inl inv.useIfSet

/-- Every call on an invariant controller is defined and keeps the invariant. -/
theorem Inv.step (inv : Inv c) (call : Call) : ∃ c', step c call = some c' ∧ Inv c' := by
  rcases inv.step_cases call with same | allocated | ⟨p, -, deleted⟩
  · exact ⟨c, same, inv⟩
  · exact ⟨_, allocated, inv.allocate⟩
  · exact ⟨_, deleted, inv.erase p⟩

/-- No call frees an orphaned `Proxy` or makes `m_proxy` hold it again: the only `delete`
goes through `m_proxy`, and a new `Proxy` gets a name above every live one. -/
theorem Orphaned.step {p : Nat} (orphaned : Orphaned p c) (call : Call) :
    ∃ c', step c call = some c' ∧ Orphaned p c' := by
  have inv := orphaned.inv
  rcases inv.step_cases call with same | allocated | ⟨q, set, deleted⟩
  · exact ⟨c, same, orphaned⟩
  · refine ⟨_, allocated, inv.allocate, List.mem_cons_of_mem _ orphaned.live, fun held => ?_⟩
    exact (inv.lt_next p orphaned.live).ne (Option.some.inj held).symm
  · have other : p ≠ q := by rintro rfl; exact orphaned.unset set
    exact ⟨_, deleted, inv.erase q, (List.mem_erase_of_ne other).2 orphaned.live,
      Option.noConfusion⟩

end

/-- From a new controller, no sequence of calls followed by the destructor calls a member of
a deleted `Proxy` or deletes one twice: the whole run is defined, and it ends with `m_proxy`
null and every `Proxy` left alive distinct and allocated by the run. -/
theorem run_destroy_safe (calls : List Call) :
    ∃ c, (run new calls).bind destroy = some c ∧ c.proxy = none ∧ Inv c := by
  obtain ⟨c, ran, inv⟩ := run_of_step Inv.step Inv.new calls
  obtain ⟨c', destroyed, unset, inv'⟩ := inv.deleteProxy
  exact ⟨c', by rw [ran, Option.some_bind]; exact destroyed, unset, inv'⟩

/-- Two successful `init()` calls in a row, after any calls and before any others: the
`Proxy` the first of them stores in `m_proxy` is still live after the destructor. -/
theorem init_twice_leaks (pre post : List Call) :
    ∃ allocated c, run new (pre ++ [.init 0]) = some allocated ∧
      (run new (pre ++ .init 0 :: .init 0 :: post)).bind destroy = some c ∧
      ∃ p, allocated.proxy = some p ∧ p ∈ c.live := by
  obtain ⟨c, ran, inv⟩ := run_of_step Inv.step Inv.new pre
  have orphaned : Orphaned c.next c.allocate.allocate :=
    ⟨inv.allocate.allocate, List.mem_cons_of_mem _ (List.mem_cons_self _ _),
      fun held => Nat.succ_ne_self _ (Option.some.inj held)⟩
  obtain ⟨d, ran', orphaned'⟩ := run_of_step Orphaned.step orphaned post
  obtain ⟨e, destroyed, orphaned''⟩ := orphaned'.step .stop
  refine ⟨c.allocate, e, by rw [run_append, ran]; rfl, ?_, c.next, rfl, orphaned''.live⟩
  calc (run new (pre ++ .init 0 :: .init 0 :: post)).bind destroy
      = (run c.allocate.allocate post).bind destroy := by rw [run_append, ran]; rfl
    _ = some e := by rw [ran']; exact destroyed

/-- Two successful `init()` calls leave the first `Proxy` alive after the destructor. -/
example : (run new [.init 0, .init 0]).bind destroy = some ⟨none, [0], 2⟩ := by decide

end Controller

end Mining
