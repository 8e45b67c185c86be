import SheriMl.Lib.Str

/-!
# IP addresses

The addresses of Rust's `std::net` with its parser and its classes. A parser takes
what it reads off the front of the text; `parse` accepts what is read to the end.
-/

namespace Ip

structure Ipv4Addr where
  bits : BitVec 32
  deriving DecidableEq

structure Ipv6Addr where
  bits : BitVec 128
  deriving DecidableEq

inductive IpAddr where
  | v4 (ip : Ipv4Addr)
  | v6 (ip : Ipv6Addr)
  deriving DecidableEq

namespace Ipv4Addr

def ofOctets (a b c d : BitVec 8) : Ipv4Addr := ⟨a ++ b ++ c ++ d⟩

def octet (ip : Ipv4Addr) (i : Nat) : BitVec 8 := ip.bits.extractLsb' (8 * (3 - i)) 8

def isUnspecified (ip : Ipv4Addr) : Bool := ip.bits = 0

def isLoopback (ip : Ipv4Addr) : Bool := ip.octet 0 = 127

def isPrivate (ip : Ipv4Addr) : Bool :=
  ip.octet 0 = 10 || (ip.octet 0 = 172 && 16 ≤ ip.octet 1 && ip.octet 1 ≤ 31) ||
    (ip.octet 0 = 192 && ip.octet 1 = 168)

def isLinkLocal (ip : Ipv4Addr) : Bool := ip.octet 0 = 169 && ip.octet 1 = 254

def isMulticast (ip : Ipv4Addr) : Bool := 224 ≤ ip.octet 0 && ip.octet 0 ≤ 239

def isBroadcast (ip : Ipv4Addr) : Bool := ip.bits = BitVec.allOnes 32

end Ipv4Addr

namespace Ipv6Addr

/-- The 16-bit groups from the left. -/
def segment (ip : Ipv6Addr) (i : Nat) : BitVec 16 := ip.bits.extractLsb' (16 * (7 - i)) 16

def ofSegments (segments : List (BitVec 16)) : Ipv6Addr :=
  ⟨segments.foldl (fun bits segment => (bits <<< 16) ||| segment.setWidth 128) 0⟩

def isUnspecified (ip : Ipv6Addr) : Bool := ip.bits = 0

def isLoopback (ip : Ipv6Addr) : Bool := ip.bits = 1

def isMulticast (ip : Ipv6Addr) : Bool := ip.segment 0 &&& 0xff00 = 0xff00

def isUniqueLocal (ip : Ipv6Addr) : Bool := ip.segment 0 &&& 0xfe00 = 0xfc00

def isUnicastLinkLocal (ip : Ipv6Addr) : Bool := ip.segment 0 &&& 0xffc0 = 0xfe80

/-- `to_ipv4`: the address of an IPv4-compatible or IPv4-mapped address. -/
def toIpv4 (ip : Ipv6Addr) : Option Ipv4Addr :=
  if ip.bits.extractLsb' 48 80 = 0 ∧ (ip.segment 5 = 0 ∨ ip.segment 5 = 0xffff) then
    some ⟨ip.bits.extractLsb' 0 32⟩
  else none

end Ipv6Addr

def IpAddr.isLoopback : IpAddr → Bool
  | v4 ip => ip.isLoopback
  | v6 ip => ip.isLoopback

/-! ## Parsing -/

def digitValue (c : Char) : Nat :=
  if 'a' ≤ c ∧ c ≤ 'f' then c.toNat - 'a'.toNat + 10
  else if 'A' ≤ c ∧ c ≤ 'F' then c.toNat - 'A'.toNat + 10
  else c.toNat - '0'.toNat

def isDigit (radix : Nat) (c : Char) : Bool :=
  Str.isAsciiDigit c || (radix = 16 && (('a' ≤ c && c ≤ 'f') || ('A' ≤ c && c ≤ 'F')))

/-- `read_number`: at most `maxDigits` digits of a value below `2 ^ width`. -/
def readNumber (radix maxDigits : Nat) (allowZeroPrefix : Bool) (width : Nat) (s : Str) :
    Option (BitVec width × Str) :=
  let digits := s.takeWhile (isDigit radix)
  let value := digits.foldl (fun n c => n * radix + digitValue c) 0
  if digits.isEmpty || maxDigits < digits.length || 2 ^ width ≤ value ||
      (!allowZeroPrefix && digits.head? = some '0' && 1 < digits.length) then none
  else some (BitVec.ofNat width value, s.drop digits.length)

/-- `read_separator`: before all but the first item. -/
def readSeparator {α : Type} (sep : Char) (first : Bool) (inner : Str → Option (α × Str)) (s : Str) :
    Option (α × Str) :=
  if first then inner s
  else match s with
    | [] => none
    | c :: s => if c = sep then inner s else none

def readOctet (first : Bool) (s : Str) : Option (BitVec 8 × Str) :=
  readSeparator '.' first (readNumber 10 3 false 8) s

def readIpv4Addr (s : Str) : Option (Ipv4Addr × Str) := do
  let (a, s) ← readOctet true s
  let (b, s) ← readOctet false s
  let (c, s) ← readOctet false s
  let (d, s) ← readOctet false s
  return (.ofOctets a b c d, s)

/-- `read_groups`: at most `limit` groups, the last two perhaps as an IPv4 address, and whether
they were. -/
def readGroups : Nat → Bool → Str → List (BitVec 16) × Bool × Str
  | 0, _, s => ([], false, s)
  | limit + 1, first, s =>
    match if limit = 0 then none else readSeparator ':' first readIpv4Addr s with
    | some (ip, s) => ([ip.bits.extractLsb' 16 16, ip.bits.extractLsb' 0 16], true, s)
    | none =>
      match readSeparator ':' first (readNumber 16 4 true 16) s with
      | none => ([], false, s)
      | some (group, s) =>
        let (groups, ipv4, s) := readGroups limit false s
        (group :: groups, ipv4, s)

/-- All eight groups, or `::` for at least one zero group between two runs. -/
def readIpv6Addr (s : Str) : Option (Ipv6Addr × Str) :=
  let (head, headIpv4, s) := readGroups 8 true s
  if head.length = 8 then some (.ofSegments head, s)
  else if headIpv4 then none
  else match s with
    | ':' :: ':' :: s =>
      let (tail, _, s) := readGroups (8 - (head.length + 1)) true s
      let zeros := List.replicate (8 - head.length - tail.length) 0
      some (.ofSegments (head ++ zeros ++ tail), s)
    | _ => none

/-- `IpAddr::from_str`. -/
def parse (s : Str) : Option IpAddr :=
  match readIpv4Addr s with
  | some (ip, rest) => if rest.isEmpty then some (.v4 ip) else none
  | none =>
    match readIpv6Addr s with
    | some (ip, rest) => if rest.isEmpty then some (.v6 ip) else none
    | none => none

example : parse "::ffff:10.0.0.1" = some (.v6 ⟨0xffff0a000001⟩) := by decide

example : parse "192.168.01.1" = none := by decide

end Ip
