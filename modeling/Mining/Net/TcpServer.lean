import Mathlib.Algebra.Group.Nat.Basic
import Mathlib.Logic.Function.Basic

/-!
# Per-IP connection limits of the TCP server

`base/net/tools/TcpServer.cpp`: `checkConnectionLimit(ip)` admits a connection from `ip`
while fewer than `kMaxConnectionsPerIP` are counted for it, and counts it;
`releaseConnection(ip)` gives a slot back and erases the IP's entry when its count drops to
zero. Both run under `s_connectionMutex` on the static map `s_connectionCount`, so each call
is one atomic step whatever the threads. An empty IP (the peer's name could not be read) is
always admitted and never counted.

`kMaxConnectionsPerIP` is declared in `TcpServer.h` and the listeners that call the two
functions are elsewhere; neither is in this repository. The model takes the limit as a
parameter, below `2^32` as the `uint32_t` counts, and a run as any sequence of admissions and
closes in which a close from an IP ends a connection admitted earlier and still open
(`Live.matched`).

What the limiter is for is `Live`: the number of open admitted connections of each IP, and a
connection admitted exactly when its IP is empty or has fewer than the limit open.

* `Abstracts.checkConnectionLimit`, `Abstracts.releaseConnection`: each call keeps the map
  equal to the open connections of every IP, with no zero entry when the limit is positive.
* `limits_after_run`: from the empty map, over every matched run, the code admits exactly the
  connections `Live` admits, the map counts every IP's open connections, and no IP has more
  than the limit open.
-/

namespace Mining.TcpServer

/-- `s_connectionCount[ip]`: the count, after inserting a zero entry when there is none. -/
def subscript (counts : String → Option Nat) (ip : String) : Nat × (String → Option Nat) :=
  ((counts ip).getD 0, Function.update counts ip (some ((counts ip).getD 0)))

/-- `TcpServer::checkConnectionLimit`: whether the connection is admitted, and the map after. -/
def checkConnectionLimit (kMaxConnectionsPerIP : Nat) (counts : String → Option Nat)
    (ip : String) : Bool × (String → Option Nat) :=
  if ip.isEmpty then (true, counts)
  else
    let (count, counts) := subscript counts ip
    if count ≥ kMaxConnectionsPerIP then (false, counts)
    else (true, Function.update counts ip (some ((count + 1) % 2 ^ 32)))

/-- `TcpServer::releaseConnection`. -/
def releaseConnection (counts : String → Option Nat) (ip : String) : String → Option Nat :=
  if ip.isEmpty then counts
  else
    match counts ip with
    | none => counts
    | some count =>
      let count := if count > 0 then count - 1 else count
      if count = 0 then Function.update counts ip none
      else Function.update counts ip (some count)

/-- A call of the limiter: a new connection from an IP, or the close of one. -/
inductive Event where
  | connect (ip : String)
  | close (ip : String)
  deriving DecidableEq, Repr

/-- A run of calls: the answers to the connections, in order, and the map after. -/
def run (kMaxConnectionsPerIP : Nat) :
    (String → Option Nat) → List Event → List Bool × (String → Option Nat)
  | counts, [] => ([], counts)
  | counts, .connect ip :: events =>
    let next := checkConnectionLimit kMaxConnectionsPerIP counts ip
    let rest := run kMaxConnectionsPerIP next.2 events
    (next.1 :: rest.1, rest.2)
  | counts, .close ip :: events => run kMaxConnectionsPerIP (releaseConnection counts ip) events

/-! ## What the limiter is for -/

namespace Live

variable (kMaxConnectionsPerIP : Nat)

/-- A connection is admitted when its IP is empty or has fewer than the limit open. -/
def admits (live : String → Nat) (ip : String) : Bool :=
  ip.isEmpty || decide (live ip < kMaxConnectionsPerIP)

/-- The open admitted connections after a call; an empty IP is never counted. -/
def step (live : String → Nat) : Event → String → Nat
  | .connect ip =>
    if ip.isEmpty = false ∧ live ip < kMaxConnectionsPerIP then
      Function.update live ip (live ip + 1)
    else live
  | .close ip => if ip.isEmpty then live else Function.update live ip (live ip - 1)

/-- The answers to the connections of a run, and the open connections after it. -/
def run : (String → Nat) → List Event → List Bool × (String → Nat)
  | live, [] => ([], live)
  | live, .connect ip :: events =>
    let rest := run (step kMaxConnectionsPerIP live (.connect ip)) events
    (admits kMaxConnectionsPerIP live ip :: rest.1, rest.2)
  | live, .close ip :: events => run (step kMaxConnectionsPerIP live (.close ip)) events

/-- Every close from a nonempty IP ends one of its open connections. -/
def matched : (String → Nat) → List Event → Bool
  | _, [] => true
  | live, .connect ip :: events => matched (step kMaxConnectionsPerIP live (.connect ip)) events
  | live, .close ip :: events =>
    (ip.isEmpty || decide (0 < live ip)) && matched (step kMaxConnectionsPerIP live (.close ip)) events

end Live

/-! ## The map counts the open connections -/

/-- The map holds each IP's number of open connections, none for the empty IP, and, under a
positive limit, no zero entry. -/
structure Abstracts (kMaxConnectionsPerIP : Nat) (counts : String → Option Nat)
    (live : String → Nat) : Prop where
  getD_eq : ∀ ip, (counts ip).getD 0 = live ip
  empty : live "" = 0
  ne_zero : 0 < kMaxConnectionsPerIP → ∀ ip, counts ip ≠ some 0

section

variable {kMaxConnectionsPerIP : Nat} {counts : String → Option Nat} {live : String → Nat}

theorem Abstracts.init : Abstracts kMaxConnectionsPerIP (fun _ => none) (fun _ => 0) :=
  ⟨fun _ => rfl, rfl, fun _ _ => Option.noConfusion⟩

/-- Setting one nonempty IP's entry to a value that is a count of its open connections. -/
theorem Abstracts.update (abstracts : Abstracts kMaxConnectionsPerIP counts live) {ip : String}
    (nonempty : ip.isEmpty = false) {entry : Option Nat} (n : Nat) (counted : entry.getD 0 = n)
    (positive : 0 < kMaxConnectionsPerIP → entry ≠ some 0) :
    Abstracts kMaxConnectionsPerIP (Function.update counts ip entry) (Function.update live ip n) := by
  have other : "" ≠ ip := fun same => by rw [← same] at nonempty; exact Bool.noConfusion nonempty
  refine ⟨fun ip' => ?_, by rw [Function.update_noteq other]; exact abstracts.empty,
    fun limit ip' => ?_⟩
  · by_cases same : ip' = ip
    · rw [same, Function.update_same, Function.update_same, counted]
    · rw [Function.update_noteq same, Function.update_noteq same, abstracts.getD_eq]
  · by_cases same : ip' = ip
    · rw [same, Function.update_same]; exact positive limit
    · rw [Function.update_noteq same]; exact abstracts.ne_zero limit ip'

/-- One admission check answers as `Live` does and keeps the map counting, while every IP has
at most the limit open. -/
theorem Abstracts.checkConnectionLimit (abstracts : Abstracts kMaxConnectionsPerIP counts live)
    (small : kMaxConnectionsPerIP < 2 ^ 32) (ip : String) :
    (checkConnectionLimit kMaxConnectionsPerIP counts ip).1 = Live.admits kMaxConnectionsPerIP live ip ∧
    Abstracts kMaxConnectionsPerIP (checkConnectionLimit kMaxConnectionsPerIP counts ip).2
      (Live.step kMaxConnectionsPerIP live (.connect ip)) := by
  cases nonempty : ip.isEmpty
  · have count := abstracts.getD_eq ip
    simp only [TcpServer.checkConnectionLimit, Live.admits, Live.step, nonempty, subscript,
      Bool.false_eq_true, if_false, Bool.false_or, true_and, count, ge_iff_le]
    by_cases room : live ip < kMaxConnectionsPerIP
    · rw [if_neg (Nat.not_le.2 room), if_pos room, Function.update_idem]
      exact ⟨(decide_eq_true room).symm, abstracts.update nonempty _
        (by rw [Option.getD_some, Nat.mod_eq_of_lt (by omega)])
        (fun _ => by rw [Ne, Option.some.injEq]; omega)⟩
    · rw [if_pos (Nat.le_of_not_lt room), if_neg room]
      have kept := abstracts.update nonempty (live ip) (Option.getD_some)
        (fun _ => by rw [Ne, Option.some.injEq]; omega)
      rw [Function.update_eq_self] at kept
      exact ⟨(decide_eq_false room).symm, kept⟩
  · simp only [TcpServer.checkConnectionLimit, Live.admits, Live.step, nonempty, if_true,
      Bool.true_or, Bool.not_eq_false, false_and, if_false, true_and]
    exact abstracts

/-- The close of an open connection, or of one from the empty IP, keeps the map counting. -/
theorem Abstracts.releaseConnection (abstracts : Abstracts kMaxConnectionsPerIP counts live)
    {ip : String} (closing : ip.isEmpty = true ∨ 0 < live ip) :
    Abstracts kMaxConnectionsPerIP (TcpServer.releaseConnection counts ip)
      (Live.step kMaxConnectionsPerIP live (.close ip)) := by
  cases nonempty : ip.isEmpty
  · have count := abstracts.getD_eq ip
    have positive : 0 < live ip := closing.resolve_left (by rw [nonempty]; exact Bool.false_ne_true)
    simp only [TcpServer.releaseConnection, Live.step, nonempty, Bool.false_eq_true, if_false]
    cases entry : counts ip with
    | none => rw [entry, Option.getD_none] at count; omega
    | some n =>
      rw [entry, Option.getD_some] at count
      dsimp only
      rw [if_pos (show n > 0 by omega), ← count]
      split_ifs with last
      · exact abstracts.update nonempty _ (by rw [last]; rfl) (fun _ => Option.noConfusion)
      · exact abstracts.update nonempty _ rfl (fun _ => by rw [Ne, Option.some.injEq]; exact last)
  · simp only [TcpServer.releaseConnection, Live.step, nonempty, if_true]
    exact abstracts

/-- No call takes an IP past the limit. -/
theorem Live.step_le (bounded : ∀ ip, live ip ≤ kMaxConnectionsPerIP) (event : Event) (ip' : String) :
    Live.step kMaxConnectionsPerIP live event ip' ≤ kMaxConnectionsPerIP := by
  have kept := bounded ip'
  cases event with
  | connect ip =>
    simp only [Live.step]
    split_ifs with room
    · rw [Function.update_apply]
      split_ifs with same
      · exact same ▸ room.2
      · exact kept
    · exact kept
  | close ip =>
    simp only [Live.step]
    split_ifs
    · exact kept
    · rw [Function.update_apply]
      split_ifs with same
      · have := bounded ip; omega
      · exact kept

/-- Over a matched run, the code answers every connection as `Live` does, keeps the map
counting the open connections, and no IP goes past the limit. -/
theorem Abstracts.run (small : kMaxConnectionsPerIP < 2 ^ 32)
    (abstracts : Abstracts kMaxConnectionsPerIP counts live)
    (bounded : ∀ ip, live ip ≤ kMaxConnectionsPerIP) (events : List Event)
    (matched : Live.matched kMaxConnectionsPerIP live events = true) :
    (run kMaxConnectionsPerIP counts events).1 = (Live.run kMaxConnectionsPerIP live events).1 ∧
    Abstracts kMaxConnectionsPerIP (run kMaxConnectionsPerIP counts events).2
      (Live.run kMaxConnectionsPerIP live events).2 ∧
    ∀ ip, (Live.run kMaxConnectionsPerIP live events).2 ip ≤ kMaxConnectionsPerIP := by
  induction events generalizing counts live with
  | nil => exact ⟨rfl, abstracts, bounded⟩
  | cons event events ih =>
    cases event with
    | connect ip =>
      obtain ⟨answer, next⟩ := abstracts.checkConnectionLimit small ip
      obtain ⟨answers, rest⟩ := ih next (Live.step_le bounded _) matched
      simp only [TcpServer.run, Live.run]
      exact ⟨by rw [answer, answers], rest⟩
    | close ip =>
      rw [Live.matched, Bool.and_eq_true, Bool.or_eq_true, decide_eq_true_eq] at matched
      exact ih (abstracts.releaseConnection matched.1) (Live.step_le bounded _) matched.2

end

/-- From the empty map, over every run in which each close ends an open connection, the code
admits a connection exactly when its IP is empty or has fewer than `kMaxConnectionsPerIP`
connections open; the map then holds every IP's number of open connections, which never
exceeds the limit, and, for a positive limit, no zero entry. -/
theorem limits_after_run {kMaxConnectionsPerIP : Nat} (small : kMaxConnectionsPerIP < 2 ^ 32)
    (events : List Event) (matched : Live.matched kMaxConnectionsPerIP (fun _ => 0) events = true) :
    (run kMaxConnectionsPerIP (fun _ => none) events).1 =
      (Live.run kMaxConnectionsPerIP (fun _ => 0) events).1 ∧
    ∀ ip, ((run kMaxConnectionsPerIP (fun _ => none) events).2 ip).getD 0 =
        (Live.run kMaxConnectionsPerIP (fun _ => 0) events).2 ip ∧
      (Live.run kMaxConnectionsPerIP (fun _ => 0) events).2 ip ≤ kMaxConnectionsPerIP ∧
      (0 < kMaxConnectionsPerIP → (run kMaxConnectionsPerIP (fun _ => none) events).2 ip ≠ some 0) := by
  obtain ⟨answers, abstracts, bounded⟩ :=
    Abstracts.init.run small (fun _ => Nat.zero_le _) events matched
  exact ⟨answers, fun ip => ⟨abstracts.getD_eq ip, bounded ip, fun limit => abstracts.ne_zero limit ip⟩⟩

theorem limits_after_run_third_refused :
    2 < 2 ^ 32 ∧
    Live.matched 2 (fun _ => 0) [.connect "10.0.0.1", .connect "10.0.0.1", .connect "10.0.0.1",
      .close "10.0.0.1", .connect "10.0.0.1", .connect ""] = true ∧
    (run 2 (fun _ => none) [.connect "10.0.0.1", .connect "10.0.0.1", .connect "10.0.0.1",
      .close "10.0.0.1", .connect "10.0.0.1", .connect ""]).1 =
      (Live.run 2 (fun _ => 0) [.connect "10.0.0.1", .connect "10.0.0.1", .connect "10.0.0.1",
        .close "10.0.0.1", .connect "10.0.0.1", .connect ""]).1 ∧
    ∀ ip, ((run 2 (fun _ => none) [.connect "10.0.0.1", .connect "10.0.0.1", .connect "10.0.0.1",
        .close "10.0.0.1", .connect "10.0.0.1", .connect ""]).2 ip).getD 0 =
        (Live.run 2 (fun _ => 0) [.connect "10.0.0.1", .connect "10.0.0.1", .connect "10.0.0.1",
          .close "10.0.0.1", .connect "10.0.0.1", .connect ""]).2 ip ∧
      (Live.run 2 (fun _ => 0) [.connect "10.0.0.1", .connect "10.0.0.1", .connect "10.0.0.1",
        .close "10.0.0.1", .connect "10.0.0.1", .connect ""]).2 ip ≤ 2 ∧
      (0 < 2 → (run 2 (fun _ => none) [.connect "10.0.0.1", .connect "10.0.0.1",
        .connect "10.0.0.1", .close "10.0.0.1", .connect "10.0.0.1", .connect ""]).2 ip ≠ some 0) :=
  ⟨by decide, by decide, limits_after_run (by decide) _ (by decide)⟩

/-- Under a limit of two, the third connection from an IP is refused until one closes. -/
example : (run 2 (fun _ => none) [.connect "10.0.0.1", .connect "10.0.0.1", .connect "10.0.0.1",
    .close "10.0.0.1", .connect "10.0.0.1", .connect ""]).1 = [true, true, false, true, true] := by
  decide

end Mining.TcpServer
