import Mathlib.Data.List.Basic
import Mathlib.Algebra.Group.Int
import Mathlib.Data.Nat.Digits

/-!
# Bind addresses of the proxy

`proxy/BindHost.cpp`: a `BindHost` is parsed from an address string (`"host:port"`, or
`"[host]:port"` for IPv6) or from a JSON object `{host, port, tls}`, and `toJSON` writes the
object back. The two parsers read the host differently: the address parser takes the IP
version from the brackets, while `parseHost` takes it from the host's text, and rejects
hosts shorter than two bytes.

* `ofJSON_toJSON_iff`: an address that parses comes back from its JSON object with the
  same host, port, TLS flag and version exactly when its host has at least two bytes and,
  for a bracketed address, contains `:` and does not start with `[`.
* `roundtrip_fails`: `a:3333` comes back unparsed, and `[ab]:80` comes back as IPv4.
* `ofAddr_addrText`: an address that parses with a port is read back from its text,
  `host:port` or `[host]:port` with the port in decimal, exactly when that text has at least
  five bytes; `strtol` reads the decimal digits of every port back (`strtol_decimal`).

Pointers to C strings are modelled by the bytes in memory from the pointer on, read up to
the first NUL (`cstr`), and a null pointer by `none`. `assert` is compiled out, as in the
release build.
-/

namespace Mining

/-- The C character literal `c` as a byte. -/
def byte (c : Char) : UInt8 := c.toNat.toUInt8

/-- The bytes of an ASCII string literal. -/
def bytes (s : String) : List UInt8 := s.toList.map byte

/-- The C string at a pointer: the bytes up to the first NUL. -/
def cstr (memory : List UInt8) : List UInt8 := memory.takeWhile (· ≠ 0)

/-- `strchr(s, c)` for `c ≠ 0` on a C string: the index of the first `c`. -/
def strchr (s : List UInt8) (c : UInt8) : Option Nat := s.findIdx? (· == c)

/-- `isspace` in the C locale. -/
def isSpace (c : UInt8) : Bool := c == 32 || (9 ≤ c && c ≤ 13)

/-- `isdigit`. -/
def isDigit (c : UInt8) : Bool := 48 ≤ c && c ≤ 57

/-- `strtol(s, &endptr, 10)`: `none` when no digit is read (`endptr == s`), else the value.
The clamp to `LONG_MIN` and `LONG_MAX` is left out: it only moves values that stay outside
`1..65535`, the only range the callers keep. -/
def strtol (s : List UInt8) : Option Int :=
  let s := s.dropWhile isSpace
  let (negative, s) : Bool × List UInt8 :=
    match s with
    | c :: rest =>
      if c = byte '-' then (true, rest) else if c = byte '+' then (false, rest) else (false, s)
    | [] => (false, [])
  let digits := s.takeWhile isDigit
  if digits = [] then none
  else
    let value : Int := digits.foldl (fun n d => 10 * n + ((d.toNat - 48 : Nat) : Int)) 0
    some (if negative then -value else value)

/-- `xmrig::BindHost`: `m_tls`, `m_version`, `m_port` and `m_host`, `none` while the
`String` is null. -/
structure BindHost where
  tls : Bool
  version : Nat
  port : UInt16
  host : Option (List UInt8)
deriving DecidableEq, Repr

/-- A rapidjson value as `BindHost` reads it. Numbers are the integral ones; a double is never
`IsUint`, and is left out. -/
inductive Value where
  | null
  | bool (b : Bool)
  | number (n : Int)
  | string (s : List UInt8)
  | array (elements : List Value)
  | object (members : List (String × Value))

namespace BindHost

/-- The member initialisers `m_tls(false), m_version(0), m_port(0)`, and a null host. -/
def empty : BindHost := ⟨false, 0, 0, none⟩

/-- The port tail of `parseIPv4` and `parseIPv6`: `strtol` from `s`, kept when a digit was read
and the value lies in `1..65535`. -/
def parsePort (self : BindHost) (s : List UInt8) : BindHost :=
  match strtol s with
  | some portVal =>
    if 0 < portVal ∧ portVal ≤ 65535 then { self with port := portVal.toNat.toUInt16 } else self
  | none => self

/-- `parseIPv4(addr)`: the host is everything before the first `:`. -/
def parseIPv4 (self : BindHost) (addr : List UInt8) : BindHost :=
  match strchr addr (byte ':') with
  | none => self
  | some port =>
    parsePort { self with version := 4, host := some (addr.take port) } (addr.drop (port + 1))

/-- `parseIPv6(addr)`: the host is what lies between `[` and the first `]`, and the port
follows the first `:` after it. -/
def parseIPv6 (self : BindHost) (addr : List UInt8) : BindHost :=
  match strchr addr (byte ']') with
  | none => self
  | some close =>
    match strchr (addr.drop close) (byte ':') with
    | none => self
    | some port =>
      parsePort { self with version := 6, host := some ((addr.drop 1).take (close - 1)) }
        (addr.drop (close + port + 1))

/-- `BindHost(const char *addr)`. -/
def ofAddr (addr : Option (List UInt8)) : BindHost :=
  match addr.map cstr with
  | none => empty
  | some addr =>
    if addr.length < 5 then empty
    else if addr.head? = some (byte '[') then parseIPv6 empty addr
    else parseIPv4 empty addr

/-- `parseHost(host)`: whether it parsed, and the fields after it. -/
def parseHost (self : BindHost) (host : Option (List UInt8)) : Bool × BindHost :=
  let self := { self with version := 0 }
  match host.map cstr with
  | none => (false, self)
  | some host =>
    if host.length < 2 then (false, self)
    else if host.head? = some (byte '[') then
      match strchr host (byte ']') with
      | none => (false, self)
      | some close =>
        let self := { self with version := 6, host := some ((host.drop 1).take (close - 1)) }
        (decide (self.version > 0), self)
    else
      let self := { self with version := if (strchr host (byte ':')).isSome then 6 else 4,
                              host := some host }
      (decide (self.version > 0), self)

/-- `BindHost(const rapidjson::Value &object)`. -/
def ofJSON (object : Value) : BindHost :=
  match object with
  | .object members =>
    match members.lookup "host" with
    | some (.string host) =>
      match parseHost empty (some host) with
      | (false, self) => self
      | (true, self) =>
        let self := match members.lookup "port" with
          | some (.number port) =>
            if 0 ≤ port ∧ port < 2 ^ 32 then
              if port ≤ 65535 then { self with port := port.toNat.toUInt16 } else self
            else self
          | _ => self
        match members.lookup "tls" with
        | some (.bool tls) => { self with tls := tls }
        | _ => self
    | _ => empty
  | _ => empty

/-- `toJSON`: the object `{host, port, tls}`; `none` for a null host, which `StringRef`
asserts against. -/
def toJSON (self : BindHost) : Option Value :=
  self.host.map fun host =>
    .object [("host", .string (cstr host)), ("port", .number self.port.toNat),
      ("tls", .bool self.tls)]

/-! ## C strings and `strchr` -/

theorem zero_not_mem_cstr (memory : List UInt8) : 0 ∉ cstr memory := fun mem => by
  simpa using List.mem_takeWhile_imp mem

theorem cstr_of_zero_not_mem {s : List UInt8} (noNul : 0 ∉ s) : cstr s = s :=
  List.takeWhile_eq_self_iff.2 fun x mem => by
    simpa only [ne_eq, decide_eq_true_eq] using fun zero : x = 0 => noNul (zero ▸ mem)

/-- `strchr` finds `c` at `i`, and no `c` before it. -/
theorem strchr_eq_some {s : List UInt8} {c : UInt8} {i : Nat} (found : strchr s c = some i) :
    c ∉ s.take i := by
  obtain ⟨_, -, before⟩ := List.findIdx?_eq_some_iff_getElem.1 found
  intro mem
  obtain ⟨j, inside, rfl⟩ := List.getElem_of_mem mem
  rw [List.length_take] at inside
  exact before j (by omega) (by rw [List.getElem_take, beq_self_eq_true])

theorem strchr_isSome {s : List UInt8} {c : UInt8} : (strchr s c).isSome ↔ c ∈ s := by
  rw [strchr, List.findIdx?_isSome, List.any_beq']

theorem strchr_of_not_mem {s : List UInt8} {c : UInt8} (absent : c ∉ s) : strchr s c = none :=
  Option.not_isSome_iff_eq_none.1 (mt strchr_isSome.1 absent)

/-! ## The two parsers -/

theorem parsePort_eq (self : BindHost) (s : List UInt8) :
    ∃ port, parsePort self s = { self with port := port } := by
  unfold parsePort
  split
  · split
    · exact ⟨_, rfl⟩
    · exact ⟨self.port, rfl⟩
  · exact ⟨self.port, rfl⟩

/-- `parseIPv4` either leaves the fields alone or sets version 4 and a host without `:`. -/
theorem parseIPv4_eq (self : BindHost) (addr : List UInt8) :
    parseIPv4 self addr = self ∨ ∃ port host, parseIPv4 self addr =
      { self with version := 4, port := port, host := some host } ∧ host <+: addr ∧ byte ':' ∉ host := by
  unfold parseIPv4
  split
  · exact .inl rfl
  · rename_i colon found
    obtain ⟨port, parsed⟩ := parsePort_eq { self with version := 4, host := some (addr.take colon) }
      (addr.drop (colon + 1))
    exact .inr ⟨port, _, parsed, ⟨_, List.take_append_drop colon addr⟩, strchr_eq_some found⟩

/-- `parseIPv6` either leaves the fields alone or sets version 6 and a host without `]` taken
from behind the first byte. -/
theorem parseIPv6_eq (self : BindHost) (addr : List UInt8) :
    parseIPv6 self addr = self ∨ ∃ port host, parseIPv6 self addr =
      { self with version := 6, port := port, host := some host } ∧ host <:+: addr ∧
        byte ']' ∉ host := by
  unfold parseIPv6
  split
  · exact .inl rfl
  · rename_i close found
    split
    · exact .inl rfl
    · rename_i colon _
      obtain ⟨port, parsed⟩ := parsePort_eq
        { self with version := 6, host := some ((addr.drop 1).take (close - 1)) }
        (addr.drop (close + colon + 1))
      refine .inr ⟨port, _, parsed, (List.IsPrefix.isInfix ⟨_, List.take_append_drop _ _⟩).trans
        (List.drop_suffix _ _).isInfix, fun mem => strchr_eq_some found ?_⟩
      rw [← List.drop_take] at mem
      exact List.mem_of_mem_drop mem

/-- An address that parses keeps `tls` false and has a host without NUL; under IPv4 the host
holds no `:` and does not start with `[`, under IPv6 it holds no `]`. -/
theorem ofAddr_of_parsed {addr : List UInt8} (parsed : (ofAddr (some addr)).version ≠ 0) :
    ∃ port host, 0 ∉ host ∧
      ((ofAddr (some addr) = ⟨false, 4, port, some host⟩ ∧ byte ':' ∉ host ∧
          host.head? ≠ some (byte '[')) ∨
        (ofAddr (some addr) = ⟨false, 6, port, some host⟩ ∧ byte ']' ∉ host)) := by
  have noNul := zero_not_mem_cstr addr
  unfold ofAddr at parsed ⊢
  simp only [Option.map_some'] at parsed ⊢
  split_ifs at parsed ⊢ with short bracket
  · exact absurd rfl parsed
  · rcases parseIPv6_eq empty (cstr addr) with same | ⟨port, host, eq, inside, noClose⟩
    · exact absurd (by rw [same]; rfl) parsed
    · exact ⟨port, host, fun mem => noNul (inside.subset mem), .inr ⟨eq, noClose⟩⟩
  · rcases parseIPv4_eq empty (cstr addr) with same | ⟨port, host, eq, pre, noColon⟩
    · exact absurd (by rw [same]; rfl) parsed
    · refine ⟨port, host, fun mem => noNul (pre.subset mem), .inl ⟨eq, noColon, fun start => ?_⟩⟩
      obtain ⟨rest, whole⟩ := pre
      cases host with
      | nil => exact absurd start (by simp)
      | cons first host => exact bracket (by rw [← whole]; simpa using start)

/-! ## Reading the object back -/

theorem toUInt16_toNat (p : UInt16) : p.toNat.toUInt16 = p :=
  UInt16.eq_of_toBitVec_eq (BitVec.eq_of_toNat_eq (by
    show (BitVec.ofNat 16 p.toBitVec.toNat).toNat = p.toBitVec.toNat
    rw [BitVec.toNat_ofNat, Nat.mod_eq_of_lt p.toBitVec.isLt]))

/-- `parseHost` on a host without NUL that has no `]` when it starts with `[`: it parses the
hosts of two bytes or more that do not start with `[`, and takes the version from a `:`. -/
theorem parseHost_eq (self : BindHost) {host : List UInt8} (noNul : 0 ∉ host)
    (closed : host.head? = some (byte '[') → byte ']' ∉ host) :
    parseHost self (some host) =
      if 2 ≤ host.length ∧ host.head? ≠ some (byte '[') then
        (true, { self with version := if byte ':' ∈ host then 6 else 4, host := some host })
      else (false, { self with version := 0 }) := by
  unfold parseHost
  simp only [Option.map_some', cstr_of_zero_not_mem noNul]
  by_cases short : host.length < 2
  · rw [if_pos short, if_neg (by omega)]
  · rw [if_neg short]
    by_cases bracket : host.head? = some (byte '[')
    · rw [if_pos bracket, if_neg (fun good => good.2 bracket), strchr_of_not_mem (closed bracket)]
    · rw [if_neg bracket,
        if_pos (show 2 ≤ host.length ∧ host.head? ≠ some (byte '[') from ⟨by omega, bracket⟩)]
      simp only [strchr_isSome]
      split <;> rfl

/-- The three members of a `toJSON` object, each read by `ofJSON`. -/
theorem ofJSON_object (host : List UInt8) (port : Int) (tls : Bool) :
    ofJSON (.object [("host", .string host), ("port", .number port), ("tls", .bool tls)]) =
      match parseHost empty (some host) with
      | (false, self) => self
      | (true, self) =>
        { (if 0 ≤ port ∧ port < 2 ^ 32 then
            if port ≤ 65535 then { self with port := port.toNat.toUInt16 } else self
          else self) with tls := tls } := rfl

/-- The object `toJSON` writes is read back through `parseHost`, with the port and the flag
restored when the host parses. -/
theorem ofJSON_toJSON_eq {version : Nat} {port : UInt16} {host : List UInt8} (noNul : 0 ∉ host)
    (closed : host.head? = some (byte '[') → byte ']' ∉ host) :
    (toJSON ⟨false, version, port, some host⟩).map ofJSON =
      some (if 2 ≤ host.length ∧ host.head? ≠ some (byte '[') then
        ⟨false, if byte ':' ∈ host then 6 else 4, port, some host⟩ else empty) := by
  have bound : port.toNat < 65536 := port.toBitVec.isLt
  rw [toJSON, Option.map_some', Option.map_some', cstr_of_zero_not_mem noNul, ofJSON_object,
    parseHost_eq empty noNul closed]
  by_cases good : 2 ≤ host.length ∧ host.head? ≠ some (byte '[')
  · simp only [if_pos good, if_pos (show (0 : Int) ≤ port.toNat ∧ (port.toNat : Int) < 2 ^ 32 from
      ⟨Int.ofNat_nonneg _, by omega⟩), if_pos (show (port.toNat : Int) ≤ 65535 by omega),
      Int.toNat_ofNat, toUInt16_toNat]
  · simp only [if_neg good]
    rfl

/-- An address that parses comes back from its JSON object with the same host, port, TLS flag
and version exactly when its host has at least two bytes and, for a bracketed address,
contains `:` and does not start with `[`. -/
theorem ofJSON_toJSON_iff {addr : List UInt8} (parsed : (ofAddr (some addr)).version ≠ 0) :
    (toJSON (ofAddr (some addr))).map ofJSON = some (ofAddr (some addr)) ↔
      ∃ host, (ofAddr (some addr)).host = some host ∧ 2 ≤ host.length ∧
        ((ofAddr (some addr)).version = 6 → host.head? ≠ some (byte '[') ∧ byte ':' ∈ host) := by
  obtain ⟨port, host, noNul, ⟨addrEq, noColon, plain⟩ | ⟨addrEq, noClose⟩⟩ := ofAddr_of_parsed parsed
  · rw [addrEq, ofJSON_toJSON_eq noNul (fun bracket => absurd bracket plain)]
    by_cases long : 2 ≤ host.length
    · simp [long, plain, noColon]
    · simp [long, empty]
  · rw [addrEq, ofJSON_toJSON_eq noNul (fun _ => noClose)]
    by_cases good : 2 ≤ host.length ∧ host.head? ≠ some (byte '[')
    · by_cases colon : byte ':' ∈ host <;> simp [good, colon]
    · rw [if_neg good, Option.some.injEq]
      constructor
      · intro same
        exact absurd (congrArg BindHost.version same) (by simp [empty])
      · rintro ⟨_, ⟨⟩, long, bracketed⟩
        exact absurd ⟨long, (bracketed rfl).1⟩ good

theorem ofJSON_toJSON_iff_wildcard :
    (ofAddr (some (bytes "0.0.0.0:3333"))).version ≠ 0 ∧
    ((toJSON (ofAddr (some (bytes "0.0.0.0:3333")))).map ofJSON =
        some (ofAddr (some (bytes "0.0.0.0:3333"))) ↔
      ∃ host, (ofAddr (some (bytes "0.0.0.0:3333"))).host = some host ∧ 2 ≤ host.length ∧
        ((ofAddr (some (bytes "0.0.0.0:3333"))).version = 6 →
          host.head? ≠ some (byte '[') ∧ byte ':' ∈ host)) :=
  ⟨by decide, ofJSON_toJSON_iff (by decide)⟩

/-- `a:3333` parses as IPv4 with the one-byte host `a` and comes back unparsed; `[ab]:80`
parses as IPv6 and comes back as IPv4. -/
theorem roundtrip_fails :
    ofAddr (some (bytes "a:3333")) = ⟨false, 4, 3333, some (bytes "a")⟩ ∧
      (toJSON (ofAddr (some (bytes "a:3333")))).map ofJSON = some ⟨false, 0, 0, none⟩ ∧
    ofAddr (some (bytes "[ab]:80")) = ⟨false, 6, 80, some (bytes "ab")⟩ ∧
      (toJSON (ofAddr (some (bytes "[ab]:80")))).map ofJSON =
        some ⟨false, 4, 80, some (bytes "ab")⟩ := by
  decide

/-! ## Reading an address's text -/

/-- The decimal digits of `n`, most significant first, as an address writes its port. -/
def decimal (n : Nat) : List UInt8 := (Nat.digits 10 n).reverse.map fun d => (d + 48).toUInt8

/-- A decimal digit's byte, as `strtol` reads it. -/
theorem digit_byte {d : Nat} (small : d < 10) :
    isDigit (d + 48).toUInt8 = true ∧ isSpace (d + 48).toUInt8 = false ∧
    (d + 48).toUInt8 ≠ byte '-' ∧ (d + 48).toUInt8 ≠ byte '+' ∧ (d + 48).toUInt8 ≠ 0 ∧
    (d + 48).toUInt8 ≠ byte ':' ∧ (d + 48).toUInt8.toNat - 48 = d := by
  have all : ∀ d : Fin 10, isDigit (d.val + 48).toUInt8 = true ∧ isSpace (d.val + 48).toUInt8 = false ∧
      (d.val + 48).toUInt8 ≠ byte '-' ∧ (d.val + 48).toUInt8 ≠ byte '+' ∧ (d.val + 48).toUInt8 ≠ 0 ∧
      (d.val + 48).toUInt8 ≠ byte ':' ∧ (d.val + 48).toUInt8.toNat - 48 = d.val := by
    decide
  exact all ⟨d, small⟩

theorem mem_decimal {n : Nat} {c : UInt8} (mem : c ∈ decimal n) : ∃ d < 10, c = (d + 48).toUInt8 := by
  obtain ⟨d, inDigits, rfl⟩ := List.mem_map.1 mem
  exact ⟨d, Nat.digits_lt_base (by decide) (List.mem_reverse.1 inDigits), rfl⟩

theorem foldl_decimal (L : List Nat) (small : ∀ d ∈ L, d < 10) :
    (L.reverse.map fun d => (d + 48).toUInt8).foldl
      (fun n d => 10 * n + ((d.toNat - 48 : Nat) : Int)) 0 = (Nat.ofDigits 10 L : Nat) := by
  induction L with
  | nil => rfl
  | cons d L ih =>
    rw [List.reverse_cons, List.map_append, List.foldl_append, ih fun e mem => small e (.tail _ mem),
      List.map_singleton, List.foldl_cons, List.foldl_nil, (digit_byte (small d (.head _))).2.2.2.2.2.2,
      Nat.ofDigits_cons]
    push_cast
    ring

theorem strtol_decimal {n : Nat} (pos : 0 < n) : strtol (decimal n) = some (n : Int) := by
  obtain ⟨c, rest, cons⟩ : ∃ c rest, decimal n = c :: rest :=
    List.exists_cons_of_ne_nil (by
      rw [decimal, Ne, List.map_eq_nil_iff, List.reverse_eq_nil_iff]
      exact Nat.digits_ne_nil_iff_ne_zero.2 (by omega))
  obtain ⟨d, small, first⟩ := mem_decimal (cons ▸ List.mem_cons_self c rest)
  obtain ⟨-, notSpace, notMinus, notPlus, -⟩ := digit_byte small
  have allDigits : (decimal n).takeWhile isDigit = decimal n :=
    List.takeWhile_eq_self_iff.2 fun x mem => by
      obtain ⟨e, small, rfl⟩ := mem_decimal mem
      exact (digit_byte small).1
  unfold strtol
  rw [cons, List.dropWhile_cons_of_neg (by rw [first, notSpace]; decide)]
  simp only [first, if_neg notMinus, if_neg notPlus]
  rw [← first, ← cons, allDigits, if_neg (by rw [cons]; exact List.cons_ne_nil c rest)]
  simp only [Bool.false_eq_true, if_false, decimal, foldl_decimal _ (fun d mem => Nat.digits_lt_base (by decide) mem), Nat.ofDigits_digits]

theorem strchr_append_cons {s rest : List UInt8} {c : UInt8} (absent : c ∉ s) :
    strchr (s ++ c :: rest) c = some s.length := by
  have before : strchr s c = none := strchr_of_not_mem absent
  rw [strchr] at before
  rw [strchr, List.findIdx?_append, before, List.findIdx?_cons, if_pos (beq_self_eq_true c),
    Option.none_or, Option.map_some', Nat.zero_add]

theorem zero_not_mem_decimal (n : Nat) : 0 ∉ decimal n := fun mem => by
  obtain ⟨d, small, same⟩ := mem_decimal mem
  exact (digit_byte small).2.2.2.2.1 same.symm

theorem length_decimal_pos {n : Nat} (pos : 0 < n) : 0 < (decimal n).length := by
  rw [decimal, List.length_map, List.length_reverse, List.length_pos]
  exact Nat.digits_ne_nil_iff_ne_zero.2 (by omega)

theorem parsePort_decimal (self : BindHost) {port : Nat} (pos : 0 < port) (fits : port ≤ 65535) :
    parsePort self (decimal port) = { self with port := port.toUInt16 } := by
  rw [parsePort, strtol_decimal pos]
  dsimp only
  rw [if_pos ⟨by omega, by omega⟩, Int.toNat_ofNat]

/-- The text of every address with a port in `1..65535` is read back: `host:port` as IPv4,
for a host without `:` that does not start with `[`, exactly when the text has five bytes or
more; `[host]:port` as IPv6, for a host without `]`. -/
theorem ofAddr_text {host : List UInt8} (noNul : 0 ∉ host) {port : Nat} (pos : 0 < port)
    (fits : port ≤ 65535) :
    (byte ':' ∉ host → host.head? ≠ some (byte '[') →
      (ofAddr (some (host ++ byte ':' :: decimal port)) = ⟨false, 4, port.toUInt16, some host⟩ ↔
        5 ≤ host.length + 1 + (decimal port).length)) ∧
    (byte ']' ∉ host →
      (ofAddr (some (byte '[' :: host ++ byte ']' :: byte ':' :: decimal port)) =
        ⟨false, 6, port.toUInt16, some host⟩ ↔ 5 ≤ host.length + 3 + (decimal port).length)) := by
  have digits := zero_not_mem_decimal port
  have long := length_decimal_pos pos
  constructor
  · intro noColon plain
    have noNulAddr : 0 ∉ host ++ byte ':' :: decimal port := by
      simp only [List.mem_append, List.mem_cons, not_or]
      exact ⟨noNul, by decide, digits⟩
    have notBracket : (host ++ byte ':' :: decimal port).head? ≠ some (byte '[') := by
      cases host with
      | nil => rw [List.nil_append, List.head?_cons]; decide
      | cons first host => exact plain
    unfold ofAddr
    simp only [Option.map_some', cstr_of_zero_not_mem noNulAddr, List.length_append,
      List.length_cons]
    by_cases short : host.length + ((decimal port).length + 1) < 5
    · rw [if_pos short]
      exact iff_of_false (fun same => absurd (congrArg BindHost.version same) (by simp [empty]))
        (by omega)
    · rw [if_neg short, if_neg notBracket, parseIPv4, strchr_append_cons noColon]
      dsimp only
      rw [List.take_left, List.drop_append, List.drop_one, List.tail_cons, parsePort_decimal _ pos fits]
      exact iff_of_true rfl (by omega)
  · intro noClose
    have noNulAddr : 0 ∉ byte '[' :: host ++ byte ']' :: byte ':' :: decimal port := by
      simp only [List.cons_append, List.mem_cons, List.mem_append, not_or]
      exact ⟨by decide, noNul, by decide, by decide, digits⟩
    have closeFirst : byte ']' ∉ byte '[' :: host := by
      rw [List.mem_cons, not_or]
      exact ⟨by decide, noClose⟩
    unfold ofAddr
    simp only [Option.map_some', cstr_of_zero_not_mem noNulAddr]
    have bracket : (byte '[' :: host ++ byte ']' :: byte ':' :: decimal port).head? =
        some (byte '[') := rfl
    simp only [List.length_append, List.length_cons]
    by_cases short : host.length + 1 + ((decimal port).length + 1 + 1) < 5
    · rw [if_pos short]
      exact iff_of_false (fun same => absurd (congrArg BindHost.version same) (by simp [empty]))
        (by omega)
    rw [if_neg short, if_pos bracket, parseIPv6, strchr_append_cons closeFirst]
    dsimp only
    have colon : List.drop (byte '[' :: host).length
        (byte '[' :: host ++ byte ']' :: byte ':' :: decimal port) =
        [byte ']'] ++ byte ':' :: decimal port := List.drop_left' rfl
    have digitsAt : List.drop ((byte '[' :: host).length + [byte ']'].length + 1)
        (byte '[' :: host ++ byte ']' :: byte ':' :: decimal port) = decimal port :=
      (List.drop_append 2).trans rfl
    rw [colon, strchr_append_cons (s := [byte ']']) (by decide)]
    dsimp only
    rw [digitsAt, List.length_cons, Nat.add_sub_cancel, List.drop_one, List.cons_append,
      List.tail_cons, List.take_left, parsePort_decimal _ pos fits]
    exact iff_of_true rfl (by omega)

/-- The text of an address: `host:port` under IPv4 and `[host]:port` under IPv6, the port in
decimal. -/
def addrText (self : BindHost) : List UInt8 :=
  if self.version = 6 then
    byte '[' :: self.host.getD [] ++ byte ']' :: byte ':' :: decimal self.port.toNat
  else self.host.getD [] ++ byte ':' :: decimal self.port.toNat

/-- Every address that parses with a port is read back from its text exactly when that text
has five bytes or more. -/
theorem ofAddr_addrText {addr : List UInt8} (parsed : (ofAddr (some addr)).version ≠ 0)
    (portSet : (ofAddr (some addr)).port ≠ 0) :
    ofAddr (some (ofAddr (some addr)).addrText) = ofAddr (some addr) ↔
      5 ≤ (ofAddr (some addr)).addrText.length := by
  obtain ⟨port, host, noNul, ⟨addrEq, noColon, plain⟩ | ⟨addrEq, noClose⟩⟩ := ofAddr_of_parsed parsed
  all_goals
    rw [addrEq] at portSet ⊢
    have pos : 0 < port.toNat := Nat.pos_of_ne_zero fun zero => portSet (by
      rw [← toUInt16_toNat port, zero]; rfl)
    have fits : port.toNat ≤ 65535 := Nat.le_of_lt_succ port.toBitVec.isLt
  · have text := (ofAddr_text noNul pos fits).1 noColon plain
    rw [toUInt16_toNat] at text
    dsimp only [addrText]
    rw [if_neg (by decide), Option.getD_some, text, List.length_append, List.length_cons]
    constructor <;> intro <;> omega
  · have text := (ofAddr_text noNul pos fits).2 noClose
    rw [toUInt16_toNat] at text
    dsimp only [addrText]
    rw [if_pos rfl, Option.getD_some, text, List.length_append, List.length_cons,
      List.length_cons, List.length_cons]
    constructor <;> intro <;> omega

theorem ofAddr_addrText_local :
    (ofAddr (some (bytes "127.0.0.1:3333"))).version ≠ 0 ∧
    (ofAddr (some (bytes "127.0.0.1:3333"))).port ≠ 0 ∧
    (ofAddr (some (ofAddr (some (bytes "127.0.0.1:3333"))).addrText) =
        ofAddr (some (bytes "127.0.0.1:3333")) ↔
      5 ≤ (ofAddr (some (bytes "127.0.0.1:3333"))).addrText.length) :=
  ⟨by decide, by decide, ofAddr_addrText (by decide) (by decide)⟩

/-- A one-byte host with a port below 100 is under five bytes, and refused. -/
example : ofAddr (some (bytes "x:80")) = empty := by decide

end BindHost

end Mining
