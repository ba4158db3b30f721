import Mathlib.Data.Nat.Bitwise
import Mathlib.Data.List.Chain
import Mathlib.Data.List.Iterate

/-!
# Authentication of the HTTP API

`base/api/Httpd.cpp`: `Httpd::auth` decides whether a request may use the API, and slows
down repeated failures through two statics, the failure counter `s_failedAuthAttempts`
(`uint32_t`) and the time of the last failure `s_lastFailedAttempt` (milliseconds of the
steady clock, `int64_t`).

A call first clears the counter once a minute has passed since the last failure, and from
five failures on sleeps `min(100u << (n - 5), 2000u)` ms. Then it decides: without an
`authorization` header the request passes unless the configuration requires auth (401);
with one, a null configured token gives 401, and otherwise the header must be `"Bearer "`
followed by exactly the token, compared in constant time (403 if not, counted as a failure).

* `auth_status`: the status on every configuration, header map and state.
* `authDelay_eq`: the delay on every count; `100u << (n - 5)` wraps modulo `2^32` from
  `n = 31` on, is 0 at `n = 35, 36`, and shifts by 32 or more bits from `n = 37` on.
* `authRun_rejected`: consecutive rejected calls inside the window count up one by one, so
  every count up to 37 is reached (`auth_delay_after_failures`).
* `onHttpData_request_iff`: `Httpd::onHttpData` hands a request to the API exactly when `auth`
  accepts it and, for a method other than `GET`, the API is unrestricted and the request is
  JSON; `OPTIONS`, the favicon and the other methods are answered before `auth`, and every
  other request is answered exactly when `auth`'s delay is defined.

The configuration (`Http`, in `base/net/http/`) and `HttpData` are not in this repository;
the model takes the two values `auth` reads of each, and `onHttpData` also reads the method,
the URL and `isRestricted()`. llhttp's method numbers and the header constants of `HttpData`
are written out. Header values, the token and the prefix
are byte lists. Times are the steady clock's readings as `Int`; the `int64_t` difference of
two readings, both nonnegative, cannot overflow.
-/

namespace Mining.Httpd

/-- `kAuthorization`: the header `auth` looks up. -/
def kAuthorization : String := "authorization"

/-- `kMaxFailedAttempts`. -/
def kMaxFailedAttempts : Nat := 5

/-- `kRateLimitWindowMs`: one minute. -/
def kRateLimitWindowMs : Int := 60000

/-- `kBearerPrefix`, the bytes of `"Bearer "` without the NUL. -/
def kBearerPrefix : List UInt8 := [66, 101, 97, 114, 101, 114, 32]

/-- What `auth` reads of the HTTP configuration: `isAuthRequired()` and `token()`, `none` when
the token is null. -/
structure Http where
  authRequired : Bool
  token : Option (List UInt8)
deriving DecidableEq, Repr

/-- What `auth` reads of a request: its header map. -/
structure HttpData where
  headers : List (String × List UInt8)
deriving DecidableEq, Repr

/-- The statics `s_failedAuthAttempts` and `s_lastFailedAttempt`. -/
structure RateLimit where
  failedAuthAttempts : Nat
  lastFailedAttempt : Int
deriving DecidableEq, Repr

/-- The statics at program start. -/
def RateLimit.init : RateLimit := ⟨0, 0⟩

/-- A failed attempt: `fetch_add(1)` on the `uint32_t` counter, and the time stored. -/
def RateLimit.fail (s : RateLimit) (now : Int) : RateLimit :=
  ⟨(s.failedAuthAttempts + 1) % 2 ^ 32, now⟩

/-- The byte loop of the prefix check and of `constantTimeCompare`:
`result |= a[i] ^ b[i]` over the pairs, from 0. -/
def xorAccumulate (a b : List UInt8) : UInt8 :=
  (a.zip b).foldl (fun result p => result ||| (p.1 ^^^ p.2)) 0

/-- `constantTimeCompare(a, b, len)`. -/
def constantTimeCompare (a b : List UInt8) (len : Nat) : Bool :=
  xorAccumulate (a.take len) (b.take len) = 0

/-- `x << shift` on `unsigned int`: undefined for `shift ≥ 32`, modulo `2^32` below. -/
def shiftLeft32 (x shift : Nat) : Option Nat :=
  if shift < 32 then some (x <<< shift % 2 ^ 32) else none

/-- The window check: the counter is cleared once more than a minute has passed since the last
failure. -/
def rateLimitWindow (s : RateLimit) (now : Int) : RateLimit :=
  if now - s.lastFailedAttempt > kRateLimitWindowMs then { s with failedAuthAttempts := 0 } else s

/-- The progressive delay on `failedAttempts` failures: `some none` without a sleep,
`some (some d)` for a sleep of `d` ms, `none` where the shift is undefined. -/
def authDelay (failedAttempts : Nat) : Option (Option Nat) :=
  if failedAttempts ≥ kMaxFailedAttempts then
    (shiftLeft32 100 (failedAttempts - kMaxFailedAttempts)).map fun shifted => some (min shifted 2000)
  else some none

/-- The decision of `auth` after its sleep: the status and the statics after it. -/
def authCheck (config : Http) (req : HttpData) (now : Int) (s : RateLimit) : Nat × RateLimit :=
  match req.headers.lookup kAuthorization with
  | none => (if config.authRequired then 401 else 200, s)
  | some token =>
    match config.token with
    | none => (401, s)
    | some configToken =>
      if token.length < 8 ∨ configToken.length ≠ token.length - 7 then (403, s.fail now)
      else
        let prefixResult := xorAccumulate (token.take 7) kBearerPrefix
        let tokenValid := constantTimeCompare configToken (token.drop 7) configToken.length
        if prefixResult = 0 ∧ tokenValid = true then (200, { s with failedAuthAttempts := 0 })
        else (403, s.fail now)

/-- What one call of `auth` does: the status, the sleep, and the statics after it. -/
structure AuthResult where
  status : Nat
  delay : Option Nat
  state : RateLimit
deriving DecidableEq, Repr

/-- `Httpd::auth` at time `now`; `none` where the delay's shift is undefined. -/
def auth (config : Http) (req : HttpData) (now : Int) (s : RateLimit) : Option AuthResult := do
  let s := rateLimitWindow s now
  let delay ← authDelay s.failedAuthAttempts
  let (status, s) := authCheck config req now s
  pure ⟨status, delay, s⟩

/-- A run of calls, each a configuration, a request and a time; it stops at a call whose
delay is undefined. -/
def authRun (s : RateLimit) (calls : List (Http × HttpData × Int)) : Option RateLimit :=
  calls.foldlM (fun s call => (auth call.1 call.2.1 call.2.2 s).map (·.state)) s

/-! ## Constant-time comparison -/

theorem nat_or_eq_zero {n m : Nat} : n ||| m = 0 ↔ n = 0 ∧ m = 0 := by
  refine ⟨fun zero => ?_, fun ⟨left, right⟩ => by rw [left, right]; rfl⟩
  have bits (i : Nat) : n.testBit i = false ∧ m.testBit i = false := by
    simpa only [Nat.testBit_or, Nat.zero_testBit, Bool.or_eq_false_iff] using
      congrArg (Nat.testBit · i) zero
  exact ⟨Nat.eq_of_testBit_eq fun i => by rw [(bits i).1, Nat.zero_testBit],
    Nat.eq_of_testBit_eq fun i => by rw [(bits i).2, Nat.zero_testBit]⟩

theorem uint8_eq_iff {x y : UInt8} : x = y ↔ x.toNat = y.toNat :=
  ⟨congrArg UInt8.toNat, UInt8.toNat.inj⟩

theorem uint8_or_eq_zero {x y : UInt8} : x ||| y = 0 ↔ x = 0 ∧ y = 0 := by
  have toNat_or : (x ||| y).toNat = x.toNat ||| y.toNat := BitVec.toNat_or _ _
  rw [uint8_eq_iff, uint8_eq_iff, uint8_eq_iff, toNat_or, UInt8.toNat_zero, nat_or_eq_zero]

theorem uint8_xor_eq_zero {x y : UInt8} : x ^^^ y = 0 ↔ x = y := by
  have toNat_xor : (x ^^^ y).toNat = x.toNat ^^^ y.toNat := BitVec.toNat_xor _ _
  rw [uint8_eq_iff, uint8_eq_iff, toNat_xor, UInt8.toNat_zero, Nat.xor_eq_zero]

/-- The loop's result is 0 exactly when it starts at 0 and every pair is equal. -/
theorem foldl_xor_eq_zero {a b : List UInt8} (sameLength : a.length = b.length) (start : UInt8) :
    (a.zip b).foldl (fun result p => result ||| (p.1 ^^^ p.2)) start = 0 ↔ start = 0 ∧ a = b := by
  induction a generalizing b start with
  | nil =>
    rw [List.length_nil, eq_comm, List.length_eq_zero] at sameLength
    subst sameLength
    simp
  | cons x a ih =>
    cases b with
    | nil => exact absurd sameLength (by simp)
    | cons y b =>
      rw [List.zip_cons_cons, List.foldl_cons, ih (by simpa using sameLength), uint8_or_eq_zero,
        uint8_xor_eq_zero, List.cons.injEq, and_assoc]

theorem xorAccumulate_eq_zero {a b : List UInt8} (sameLength : a.length = b.length) :
    xorAccumulate a b = 0 ↔ a = b := by
  rw [xorAccumulate, foldl_xor_eq_zero sameLength, and_iff_right rfl]

theorem length_kBearerPrefix : kBearerPrefix.length = 7 := rfl

/-- The format check, the prefix loop and `constantTimeCompare` together accept exactly the
header `"Bearer "` followed by the whole token, which is then nonempty. -/
theorem bearer_valid_iff (token configToken : List UInt8) :
    (¬ (token.length < 8 ∨ configToken.length ≠ token.length - 7) ∧
      xorAccumulate (token.take 7) kBearerPrefix = 0 ∧
      constantTimeCompare configToken (token.drop 7) configToken.length = true) ↔
    1 ≤ configToken.length ∧ token = kBearerPrefix ++ configToken := by
  constructor
  · rintro ⟨format, prefixOk, tokenOk⟩
    have rest : configToken.length = (token.drop 7).length := by
      rw [List.length_drop]
      omega
    rw [xorAccumulate_eq_zero (by rw [List.length_take, length_kBearerPrefix]; omega)] at prefixOk
    rw [constantTimeCompare, decide_eq_true_iff, List.take_length,
      List.take_of_length_le (Nat.le_of_eq rest.symm), xorAccumulate_eq_zero rest] at tokenOk
    refine ⟨by omega, ?_⟩
    rw [← List.take_append_drop 7 token, prefixOk, tokenOk]
  · rintro ⟨nonempty, rfl⟩
    have long : (kBearerPrefix ++ configToken).length = 7 + configToken.length := by
      rw [List.length_append, length_kBearerPrefix]
    have prefixLength : ((kBearerPrefix ++ configToken).take 7).length = kBearerPrefix.length := by
      rw [List.length_take, long, length_kBearerPrefix]
      omega
    refine ⟨by omega, (xorAccumulate_eq_zero prefixLength).2 (List.take_left' length_kBearerPrefix),
      ?_⟩
    rw [constantTimeCompare, List.drop_left' length_kBearerPrefix, decide_eq_true_iff]
    exact (xorAccumulate_eq_zero rfl).2 rfl

/-! ## The status -/

/-- A request the API should let through: it carries no `authorization` header and auth is
not required, or its header is `"Bearer "` followed by the whole configured token, which is
nonempty. -/
def Accepted (config : Http) (req : HttpData) : Prop :=
  (req.headers.lookup kAuthorization = none ∧ config.authRequired = false) ∨
    ∃ t, config.token = some t ∧ 1 ≤ t.length ∧
      req.headers.lookup kAuthorization = some (kBearerPrefix ++ t)

/-- A request the API should answer 401: it carries no `authorization` header where auth is
required, or it carries one where no token is configured. -/
def Unauthorized (config : Http) (req : HttpData) : Prop :=
  (req.headers.lookup kAuthorization = none ∧ config.authRequired = true) ∨
    (req.headers.lookup kAuthorization ≠ none ∧ config.token = none)

/-- The status `authCheck` returns depends on the configuration and the header only. -/
theorem authCheck_status (config : Http) (req : HttpData) (now : Int) (s : RateLimit) :
    ((authCheck config req now s).1 = 200 ↔ Accepted config req) ∧
    ((authCheck config req now s).1 = 401 ↔ Unauthorized config req) ∧
    ((authCheck config req now s).1 = 403 ↔ ¬ Accepted config req ∧ ¬ Unauthorized config req) := by
  cases header : req.headers.lookup kAuthorization with
  | none =>
    have accepted : Accepted config req ↔ config.authRequired = false := by
      simp only [Accepted, header, reduceCtorEq, and_false, exists_false, or_false, true_and]
    have unauthorized : Unauthorized config req ↔ config.authRequired = true := by
      simp only [Unauthorized, header, ne_eq, not_true_eq_false, false_and, or_false, true_and]
    simp only [authCheck, header, accepted, unauthorized]
    cases config.authRequired <;> decide
  | some token =>
    cases configToken : config.token with
    | none => simp [authCheck, Accepted, Unauthorized, header, configToken]
    | some t =>
      have accepted : Accepted config req ↔ 1 ≤ t.length ∧ token = kBearerPrefix ++ t := by
        simp only [Accepted, header, configToken, reduceCtorEq, false_and, false_or,
          Option.some.injEq, exists_eq_left']
      have authorized : ¬ Unauthorized config req := by
        simp [Unauthorized, header, configToken]
      rw [accepted]
      simp only [authorized, iff_false, not_false_eq_true, and_true, authCheck, header,
        configToken]
      have valid := bearer_valid_iff token t
      by_cases ok : 1 ≤ t.length ∧ token = kBearerPrefix ++ t
      · obtain ⟨format, prefixOk, tokenOk⟩ := valid.2 ok
        rw [if_neg format, if_pos ⟨prefixOk, tokenOk⟩]
        simp [ok]
      · split_ifs with format decided
        · simp [ok]
        · exact absurd (valid.1 ⟨format, decided⟩) ok
        · simp [ok]

/-- One call: the delay of the count after the window check, then the decision. -/
theorem auth_eq (config : Http) (req : HttpData) (now : Int) (s : RateLimit) :
    auth config req now s = (authDelay (rateLimitWindow s now).failedAuthAttempts).map fun delay =>
      ⟨(authCheck config req now (rateLimitWindow s now)).1, delay,
        (authCheck config req now (rateLimitWindow s now)).2⟩ := by
  simp only [auth]
  cases authDelay (rateLimitWindow s now).failedAuthAttempts <;> rfl

/-- `auth` is defined exactly when its delay is, and then its status is 200 when the request
has no `authorization` header and auth is not required, or when the header is `"Bearer "`
followed by the whole non-null nonempty token; 401 when the header is missing and auth is
required, or present under a null token; 403 otherwise. -/
theorem auth_status (config : Http) (req : HttpData) (now : Int) (s : RateLimit) :
    (auth config req now s).isSome = (authDelay (rateLimitWindow s now).failedAuthAttempts).isSome ∧
    ∀ r ∈ auth config req now s,
      (r.status = 200 ↔ Accepted config req) ∧ (r.status = 401 ↔ Unauthorized config req) ∧
      (r.status = 403 ↔ ¬ Accepted config req ∧ ¬ Unauthorized config req) := by
  rw [auth_eq]
  refine ⟨Option.isSome_map', fun r called => ?_⟩
  obtain ⟨delay, -, rfl⟩ := Option.mem_map.1 called
  exact authCheck_status config req now _

/-! ## The delay -/

/-- `min(100u << (n - 5), 2000u)` on every count from five on: the shifted value is taken
modulo `2^32`, and from `n = 37` on the shift is by 32 or more bits. -/
theorem authDelay_eq {n : Nat} (many : kMaxFailedAttempts ≤ n) :
    authDelay n = if n < 37 then some (some (min (100 * 2 ^ (n - 5) % 2 ^ 32) 2000)) else none := by
  rw [authDelay, if_pos many, shiftLeft32, Nat.shiftLeft_eq, kMaxFailedAttempts]
  by_cases small : n < 37
  · rw [if_pos (show n - 5 < 32 by omega), if_pos small]
    rfl
  · rw [if_neg (show ¬ n - 5 < 32 by omega), if_neg small]
    rfl

/-! ## Runs of rejected calls -/

/-- A request whose header is not `"Bearer "` followed by the whole nonempty token is answered
403 and counted as a failure. -/
theorem authCheck_rejected {config : Http} {req : HttpData} {t token : List UInt8}
    (configToken : config.token = some t) (header : req.headers.lookup kAuthorization = some token)
    (wrong : ¬ (1 ≤ t.length ∧ token = kBearerPrefix ++ t)) (now : Int) (s : RateLimit) :
    authCheck config req now s = (403, s.fail now) := by
  unfold authCheck
  rw [header, configToken]
  dsimp only
  split_ifs with format decided
  · rfl
  · exact absurd ((bearer_valid_iff token t).1 ⟨format, decided⟩) wrong
  · rfl

/-- A call inside the window of the last failure keeps the count; a rejected call with a
defined delay then counts one more failure at its time. -/
theorem auth_rejected {config : Http} {req : HttpData}
    (rejected : ∀ now s, authCheck config req now s = (403, s.fail now)) {s : RateLimit} {now : Int}
    (inWindow : now - s.lastFailedAttempt ≤ kRateLimitWindowMs) (few : s.failedAuthAttempts < 37) :
    (auth config req now s).map (·.state) = some (s.fail now) := by
  have window : rateLimitWindow s now = s := by
    rw [rateLimitWindow, if_neg (by omega)]
  by_cases many : kMaxFailedAttempts ≤ s.failedAuthAttempts
  · rw [auth_eq, window, authDelay_eq many, if_pos few, rejected]
    rfl
  · rw [auth_eq, window, authDelay, if_neg many, rejected]
    rfl

/-- Rejected calls, each less than a minute after the previous failure, count up one by one
while the delay stays defined. -/
theorem authRun_rejected {config : Http} {req : HttpData}
    (rejected : ∀ now s, authCheck config req now s = (403, s.fail now)) :
    ∀ (times : List Int) (s : RateLimit),
      times.Chain (fun last now => now - last ≤ kRateLimitWindowMs) s.lastFailedAttempt →
      s.failedAuthAttempts + times.length ≤ 37 →
      authRun s (times.map fun now => (config, req, now)) =
        some ⟨s.failedAuthAttempts + times.length, times.getLastD s.lastFailedAttempt⟩
  | [], s, _, _ => rfl
  | now :: times, s, spaced, few => by
    rw [List.chain_cons] at spaced
    rw [List.length_cons] at few
    have counted : (s.fail now).failedAuthAttempts = s.failedAuthAttempts + 1 :=
      Nat.mod_eq_of_lt (by omega)
    have step : (auth config req now s).map (·.state) = some (s.fail now) :=
      auth_rejected rejected spaced.1 (by omega)
    have rest : authRun (s.fail now) (times.map fun now => (config, req, now)) =
        some ⟨s.failedAuthAttempts + 1 + times.length, times.getLastD now⟩ := by
      rw [← counted]
      exact authRun_rejected rejected times (s.fail now) spaced.2 (by rw [counted]; omega)
    simp only [authRun, List.map_cons, List.foldlM_cons] at rest ⊢
    rw [step]
    exact rest.trans (by rw [List.getLastD_cons, List.length_cons, Nat.add_assoc, Nat.add_comm 1])

/-- Calls `gap ≤` a minute apart, the first inside the window, stay inside the window. -/
theorem chain_iterate_add {gap : Int} (short : gap ≤ kRateLimitWindowMs) :
    ∀ (k : Nat) (last first : Int), first - last ≤ kRateLimitWindowMs →
      (List.iterate (· + gap) first k).Chain (fun last now => now - last ≤ kRateLimitWindowMs) last
  | 0, _, _, _ => List.Chain.nil
  | k + 1, _, first, inWindow =>
    List.Chain.cons inWindow (chain_iterate_add short k first (first + gap) (by omega))

/-- With the token `t` configured, the request `Bearer u`, sent every three seconds from
program start, is rejected each time and every count up to 37 is reached. At 35 failures the
delay drops from 2000 ms to 0, and at 37 `100u` is shifted by 32 bits. -/
theorem auth_delay_after_failures :
    (∀ n, kMaxFailedAttempts ≤ n →
      authDelay n = if n < 37 then some (some (min (100 * 2 ^ (n - 5) % 2 ^ 32) 2000)) else none) ∧
    (∀ k ≤ 37, ∃ last, authRun RateLimit.init ((List.iterate (· + 3000) 3000 k).map fun now =>
      ((⟨true, some [116]⟩ : Http), (⟨[(kAuthorization, kBearerPrefix ++ [117])]⟩ : HttpData),
        now)) = some ⟨k, last⟩) ∧
    authDelay 34 = some (some 2000) ∧ authDelay 35 = some (some 0) ∧
    authDelay 36 = some (some 0) ∧ authDelay 37 = none := by
  have rejected : ∀ now s, authCheck ⟨true, some [116]⟩
      ⟨[(kAuthorization, kBearerPrefix ++ [117])]⟩ now s = (403, s.fail now) :=
    authCheck_rejected rfl rfl (by decide)
  refine ⟨fun _ many => authDelay_eq many, fun k few => ?_, by decide, by decide, by decide,
    by decide⟩
  have run := authRun_rejected rejected (List.iterate (· + 3000) 3000 k) RateLimit.init
    (chain_iterate_add (by decide) k 0 3000 (by decide))
    (by simpa only [List.length_iterate, RateLimit.init, Nat.zero_add] using few)
  exact ⟨_, by simpa only [List.length_iterate, RateLimit.init, Nat.zero_add] using run⟩

/-! ## Dispatch -/

/-- llhttp's `HTTP_GET`. -/
def HTTP_GET : Nat := 1

/-- llhttp's `HTTP_OPTIONS`. -/
def HTTP_OPTIONS : Nat := 6

/-- `HttpData::kContentTypeL`, the content type header as llhttp reports it. -/
def kContentTypeL : String := "content-type"

/-- The bytes of `HttpData::kApplicationJson`, `"application/json"`. -/
def kApplicationJson : List UInt8 :=
  [97, 112, 112, 108, 105, 99, 97, 116, 105, 111, 110, 47, 106, 115, 111, 110]

/-- What `onHttpData` reads of the HTTP configuration besides what `auth` reads:
`isRestricted()`. -/
structure HttpConfig extends Http where
  restricted : Bool
deriving DecidableEq, Repr

/-- What `onHttpData` reads of a request besides its headers: the llhttp method and the URL. -/
structure HttpRequest extends HttpData where
  method : Nat
  url : String
deriving DecidableEq, Repr

/-- How `onHttpData` answers: an `HttpApiResponse` with a status (200 by default), the plain
404 `HttpResponse` for the favicon, or the request handed to `Api::request`. -/
inductive Reply where
  | apiResponse (status : Nat)
  | notFound
  | request
deriving DecidableEq, Repr

/-- The part of `Httpd::onHttpData` after `auth`: the reply on its result. -/
def afterAuth (config : HttpConfig) (data : HttpRequest) (r : AuthResult) : Reply × RateLimit :=
  if r.status ≠ 200 then (.apiResponse r.status, r.state)
  else if data.method ≠ HTTP_GET then
    if config.restricted then (.apiResponse 403, r.state)
    else if data.headers.lookup kContentTypeL ≠ some kApplicationJson then
      (.apiResponse 415, r.state)
    else (.request, r.state)
  else (.request, r.state)

/-- `Httpd::onHttpData` on a build without the Windows favicon resource: the reply and the
statics after it, `none` where `auth`'s delay is undefined. -/
def onHttpData (config : HttpConfig) (data : HttpRequest) (now : Int) (s : RateLimit) :
    Option (Reply × RateLimit) :=
  if data.method = HTTP_OPTIONS then some (.apiResponse 200, s)
  else if data.method = HTTP_GET ∧ data.url = "/favicon.ico" then some (.notFound, s)
  else if data.method > 4 then some (.apiResponse 405, s)
  else (auth config.toHttp data.toHttpData now s).map (afterAuth config data)

/-- The status of a call of `auth` that is defined. -/
theorem status_of_mem_auth {config : Http} {req : HttpData} {now : Int} {s : RateLimit}
    {r : AuthResult} (called : r ∈ auth config req now s) :
    r.status = 200 ↔ Accepted config req := by
  rw [auth_eq] at called
  obtain ⟨delay, -, rfl⟩ := Option.mem_map.1 called
  exact (authCheck_status config req now _).1

theorem afterAuth_request_iff (config : HttpConfig) (data : HttpRequest) (r : AuthResult) :
    (afterAuth config data r).1 = .request ↔ r.status = 200 ∧ (data.method = HTTP_GET ∨
      config.restricted = false ∧ data.headers.lookup kContentTypeL = some kApplicationJson) := by
  unfold afterAuth
  split_ifs with passed get restricted json <;>
    simp_all only [ne_eq, not_not, reduceCtorEq, false_iff, true_iff, Bool.not_eq_true,
      not_and, not_or, false_and, or_false, and_true, or_true, true_or, true_and, Bool.true_eq_false,
      IsEmpty.forall_iff, not_false_eq_true, implies_true]

/-- The requests `onHttpData` answers before `auth` (`OPTIONS`, the favicon and the methods
past `PUT`) get a reply that is not a request and leave the failure statics as they were. -/
theorem onHttpData_early {config : HttpConfig} {data : HttpRequest} {now : Int} {s : RateLimit}
    (early : data.method = HTTP_OPTIONS ∨
      (data.method = HTTP_GET ∧ data.url = "/favicon.ico") ∨ 4 < data.method) :
    ∃ reply, onHttpData config data now s = some (reply, s) ∧ reply ≠ .request := by
  unfold onHttpData
  split_ifs with options favicon other <;>
    first
    | exact ⟨_, rfl, Reply.noConfusion⟩
    | exact (early.elim options fun late => late.elim favicon other).elim

/-- `onHttpData` is defined exactly when it answers before `auth` (`OPTIONS`, the favicon, the
methods past `PUT`) or `auth`'s delay is defined. A request reaches `Api::request` exactly
when its method is one of llhttp's first five (`DELETE`, `GET`, `HEAD`, `POST`, `PUT`), it is
not `GET /favicon.ico`, `auth` lets it through, and, for a method other than `GET`, the API
is not restricted and the request declares `application/json`. The requests answered before
`auth` leave the failure statics as they were. -/
theorem onHttpData_request_iff (config : HttpConfig) (data : HttpRequest) (now : Int)
    (s : RateLimit) :
    ((onHttpData config data now s).isSome ↔
      (4 < data.method ∨ (data.method = HTTP_GET ∧ data.url = "/favicon.ico")) ∨
        (authDelay (rateLimitWindow s now).failedAuthAttempts).isSome) ∧
    (∀ reply ∈ onHttpData config data now s,
      reply.1 = .request ↔ data.method ≤ 4 ∧ ¬ (data.method = HTTP_GET ∧ data.url = "/favicon.ico") ∧
        Accepted config.toHttp data.toHttpData ∧
        (data.method = HTTP_GET ∨
          config.restricted = false ∧ data.headers.lookup kContentTypeL = some kApplicationJson)) ∧
    (4 < data.method ∨ (data.method = HTTP_GET ∧ data.url = "/favicon.ico") →
      ∃ reply, onHttpData config data now s = some (reply, s) ∧ reply ≠ .request) := by
  by_cases early : data.method = HTTP_OPTIONS ∨
      (data.method = HTTP_GET ∧ data.url = "/favicon.ico") ∨ 4 < data.method
  · obtain ⟨answer, answered, notRequest⟩ := @onHttpData_early config data now s early
    have before : 4 < data.method ∨ (data.method = HTTP_GET ∧ data.url = "/favicon.ico") := by
      rcases early with options | favicon | other
      · rw [HTTP_OPTIONS] at options
        omega
      · exact .inr favicon
      · exact .inl other
    refine ⟨iff_of_true (by rw [answered]; rfl) (.inl before), fun reply mem => ?_,
      fun _ => ⟨answer, answered, notRequest⟩⟩
    rw [answered] at mem
    cases mem
    exact iff_of_false notRequest fun ⟨le, notFavicon, _⟩ => before.elim (by omega) notFavicon
  obtain ⟨options, favicon, other⟩ : _ ∧ _ ∧ _ := by simpa only [not_or] using early
  have late : onHttpData config data now s =
      (auth config.toHttp data.toHttpData now s).map (afterAuth config data) := by
    unfold onHttpData
    rw [if_neg options, if_neg favicon, if_neg other]
  refine ⟨?_, fun reply mem => ?_, fun before => (before.elim other favicon).elim⟩
  · rw [late, Option.isSome_map', auth_eq, Option.isSome_map']
    exact ⟨.inr, fun defined => defined.resolve_left fun before => before.elim other favicon⟩
  rw [late] at mem
  obtain ⟨r, called, rfl⟩ := Option.mem_map.1 mem
  rw [afterAuth_request_iff, status_of_mem_auth called]
  exact ⟨fun ⟨accepted, body⟩ => ⟨by omega, favicon, accepted, body⟩,
    fun ⟨_, _, accepted, body⟩ => ⟨accepted, body⟩⟩

/-- Without auth required, a restricted API still refuses a JSON `POST`. -/
example : onHttpData ⟨⟨false, none⟩, true⟩
    ⟨⟨[(kContentTypeL, kApplicationJson)]⟩, 3, "/1/config"⟩ 0 RateLimit.init =
      some (.apiResponse 403, RateLimit.init) := by decide

end Mining.Httpd
