/-!
# IP address literals

`ipaddress.ip_address` of a string: a dotted quad, else an IPv6 literal with `::`, a
dotted quad at its end, or a zone after `%`.  Addresses are numbers, and two IPv6
addresses are equal when number and zone are.

    ipAddress "127.0.0.1" = some (.v4 0x7F000001)
    ipAddress "fe80::1%eth0" = some (.v6 0xFE80…01 (some "eth0"))
-/

namespace IpAddress

inductive Address where
  | v4 (ip : Nat)
  | v6 (ip : Nat) (scopeId : Option String)
deriving DecidableEq

/-- The address without its zone: what the `packed` octets keep. -/
def Address.unscoped : Address → Address
  | .v4 ip => .v4 ip
  | .v6 ip _ => .v6 ip none

/-- The value of a digit up to `f`. -/
def digit (c : Char) : Nat :=
  if c.toNat < 0x3A then c.toNat - 0x30 else if c.toNat < 0x47 then c.toNat - 0x37 else c.toNat - 0x57

/-- `int(s, base)` of a string of digits. -/
def toInt (base : Nat) (s : List Char) : Nat := s.foldl (fun n c => base * n + digit c) 0

/-! ## IPv4 -/

/-- `_parse_octet` -/
def parseOctet (s : List Char) : Option Nat :=
  if s = [] then none
  else if s.all Char.isDigit = false then none
  else if 3 < s.length then none
  else if s ≠ ['0'] ∧ s.head? = some '0' then none
  else if 255 < toInt 10 s then none
  else some (toInt 10 s)

/-- `IPv4Address` of a string. -/
def ipv4Address (s : List Char) : Option Nat :=
  if '/' ∈ s then none
  else match s.splitOn '.' with
    | [a, b, c, d] => do
      let a ← parseOctet a
      let b ← parseOctet b
      let c ← parseOctet c
      let d ← parseOctet d
      some (((a * 256 + b) * 256 + c) * 256 + d)
    | _ => none

/-! ## IPv6 -/

def HEXTET_COUNT : Nat := 8

def isHexDigit (c : Char) : Bool := "0123456789ABCDEFabcdef".toList.contains c

/-- `_parse_hextet` -/
def parseHextet (s : List Char) : Option Nat :=
  if s.all isHexDigit = false then none
  else if 4 < s.length then none
  else if s = [] then none
  else some (toInt 16 s)

/-- `_split_scope_id` -/
def splitScopeId (s : List Char) : Option (List Char × Option (List Char)) :=
  match s.dropWhile (· ≠ '%') with
  | [] => some (s, none)
  | _ :: scopeId =>
    if scopeId = [] ∨ '%' ∈ scopeId then none else some (s.takeWhile (· ≠ '%'), some scopeId)

/-- A dotted quad in the last part is written as two hextets. -/
def expandSuffix (parts : List (List Char)) : Option (List (List Char)) :=
  let last := parts.getLast?.getD []
  if '.' ∈ last then do
    let ip ← ipv4Address last
    some (parts.dropLast ++ [Nat.toDigits 16 (ip / 65536), Nat.toDigits 16 (ip % 65536)])
  else some parts

/-- The indices of the parts between the ends that are empty. -/
def skips (parts : List (List Char)) : List Nat :=
  (List.range parts.length).filter fun i => 0 < i ∧ i + 1 < parts.length ∧ parts[i]? = some []

/-- The eight hextets, a `::` filled with zeros. -/
def hextets (parts : List (List Char)) : Option (List (List Char)) :=
  let first := parts.head?.getD []
  let last := parts.getLast?.getD []
  match skips parts with
  | [] =>
    if parts.length ≠ HEXTET_COUNT ∨ first = [] ∨ last = [] then none else some parts
  | [i] =>
    let hi := if first = [] then i - 1 else i
    let lo := if last = [] then parts.length - i - 2 else parts.length - i - 1
    if first = [] ∧ hi ≠ 0 then none
    else if last = [] ∧ lo ≠ 0 then none
    else if HEXTET_COUNT < hi + lo + 1 then none
    else some (parts.take hi ++ List.replicate (HEXTET_COUNT - (hi + lo)) ['0'] ++
      parts.drop (parts.length - lo))
  | _ => none

/-- `IPv6Address._ip_int_from_string` -/
def ipv6Int (s : List Char) : Option Nat := do
  let parts := s.splitOn ':'
  if parts.length < 3 then none
  else
    let parts ← expandSuffix parts
    if HEXTET_COUNT + 1 < parts.length then none
    else
      let hextets ← (← hextets parts).mapM parseHextet
      some (hextets.foldl (fun ip hextet => ip * 65536 + hextet) 0)

/-- `IPv6Address` of a string. -/
def ipv6Address (s : List Char) : Option Address :=
  if '/' ∈ s then none
  else do
    let (addr, scopeId) ← splitScopeId s
    let ip ← ipv6Int addr
    some (.v6 ip (scopeId.map String.ofList))

/-- `ip_address`, which raises `ValueError` for what is no address. -/
def ipAddress (address : String) : Option Address :=
  match ipv4Address address.toList with
  | some ip => some (.v4 ip)
  | none => ipv6Address address.toList

example : ipAddress "fe80::1%eth0" = some (.v6 0xFE800000000000000000000000000001 (some "eth0")) := by
  decide

end IpAddress
