import Mathlib.Data.Vector.Defs
import SendersIo.ByteOrder
import SendersIo.Comparisons

/-!
IP addresses and endpoints as the socket interface stores them: ports and IPv4
addresses as integers whose bytes are in network order in memory.
-/
namespace SendersIo.Addresses
open SendersIo.ByteOrder SendersIo.Comparisons

/-- `ip::address_v4`: `addr_` as `inet_addr` stores it. -/
structure AddressV4 where
  addr : UInt32
  deriving DecidableEq

/-- `ip::address_v6`. -/
structure AddressV6 where
  addr : List.Vector UInt8 16
  scopeId : UInt16
  deriving DecidableEq

/-- `ip::address`. -/
inductive Address where
  | v4 (addr : AddressV4)
  | v6 (addr : AddressV6)
  deriving DecidableEq

/-- The fields of a `sockaddr_in` or a `sockaddr_in6` after its family. -/
inductive Sockaddr where
  | inet (port : UInt16) (addr : UInt32)
  | inet6 (port : UInt16) (flowinfo : UInt32) (addr : List.Vector UInt8 16) (scopeId : UInt32)
  deriving DecidableEq

/-- `htons` on a little-endian host: the two bytes are swapped. -/
def htons (port : UInt16) : UInt16 := (port <<< 8) ||| (port >>> 8)

/-- `ntohs` on a little-endian host. -/
def ntohs (port : UInt16) : UInt16 := (port <<< 8) ||| (port >>> 8)

/-- `ip::endpoint`, a union of the socket addresses. -/
structure Endpoint where
  data : Sockaddr
  deriving DecidableEq

/-- `endpoint::endpoint(ip::address, port_type)`; what it does not set is zero. -/
def Endpoint.ofAddress : Address → UInt16 → Endpoint
  | .v4 a,port => ⟨.inet (htons port) a.addr⟩
  | .v6 a,port => ⟨.inet6 (htons port) 0 a.addr 0⟩

/-! ### The byte order of IPv4 addresses -/

/-- The bytes of an `in_addr_t` in the memory of a little-endian host. -/
def memory (w : UInt32) : List UInt8 := (bytes 4 w.toNat).reverse

/-- The `in_addr_t` with these bytes in memory. -/
def ofMemory (bs : List UInt8) : UInt32 := .ofNat (bigEndian bs.reverse)

/-- `htonl` on a little-endian host: the bytes in memory are reversed. -/
def htonl (w : UInt32) : UInt32 := ofMemory (memory w).reverse

@[simp] theorem length_memory (w : UInt32) : (memory w).length = 4 := by simp [memory]

/-- `address_v4::address_v4(uint_type)`. -/
def AddressV4.ofUint (w : UInt32) : AddressV4 := ⟨htonl w⟩

/-- `address_v4::to_bytes`. -/
def AddressV4.toBytes (a : AddressV4) : List.Vector UInt8 4 := ⟨memory a.addr,length_memory a.addr⟩

/-- `address_v4::address_v4(bytes_type)`. -/
def AddressV4.ofBytes (bs : List.Vector UInt8 4) : AddressV4 := ⟨ofMemory bs.toList⟩

/-- `address_v4::to_uint`, where `ntohl` reverses the bytes like `htonl`. -/
def AddressV4.toUint (a : AddressV4) : UInt32 := htonl a.addr

/-- `address_v4{}`, which is `address_v4::any()`. -/
def AddressV4.any : AddressV4 := ⟨0⟩

/-- `address_v4::is_loopback`. -/
def AddressV4.isLoopback (a : AddressV4) : Bool := a.toUint &&& 0xFF000000 = 0x7F000000

/-- `address_v4::is_multicast`. -/
def AddressV4.isMulticast (a : AddressV4) : Bool := a.toUint &&& 0xF0000000 = 0xE0000000

/-- `address_v4::is_unspecified`. -/
def AddressV4.isUnspecified (a : AddressV4) : Bool := a.toUint = 0

/-- `make_address_v6` of `v4_mapped` and an IPv4 address. -/
def makeAddressV6Mapped (a : AddressV4) : AddressV6 :=
  ⟨⟨List.replicate 10 0 ++ [0xff,0xff] ++ a.toBytes.toList,by simp⟩,0⟩

/-! ### IPv6 addresses -/

/-- `address_v6::address_v6()`, which is `address_v6::any()`. -/
def AddressV6.any : AddressV6 := ⟨.replicate 16 0,0⟩

/-- `address_v6::is_link_local`. -/
def AddressV6.isLinkLocal (a : AddressV6) : Bool := a.addr.get 0 = 0xfe && a.addr.get 1 &&& 0xc0 = 0x80

/-- `address_v6::is_multicast_link_local`. -/
def AddressV6.isMulticastLinkLocal (a : AddressV6) : Bool := a.addr.get 0 = 0xff && a.addr.get 1 &&& 0x0f = 0x02

/-- The first `n` bytes are zero. -/
def AddressV6.zeros (n : Nat) (a : AddressV6) : Bool := (a.addr.toList.take n).all (· = 0)

/-- `address_v6::is_loopback`. -/
def AddressV6.isLoopback (a : AddressV6) : Bool := a.zeros 15 && a.addr.get 15 = 1

/-- `address_v6::is_unspecified`. -/
def AddressV6.isUnspecified (a : AddressV6) : Bool := a.zeros 15 && a.addr.get 15 = 0

/-- `address_v6::is_site_local`. -/
def AddressV6.isSiteLocal (a : AddressV6) : Bool := a.addr.get 0 = 0xfe && a.addr.get 1 &&& 0xc0 = 0xc0

/-- `address_v6::is_v4_mapped`. -/
def AddressV6.isV4Mapped (a : AddressV6) : Bool := a.zeros 10 && a.addr.get 10 = 0xff && a.addr.get 11 = 0xff

/-- `address_v6::is_multicast`. -/
def AddressV6.isMulticast (a : AddressV6) : Bool := a.addr.get 0 = 0xff

/-- A multicast address of the given scope. -/
def AddressV6.hasScope (scope : UInt8) (a : AddressV6) : Bool := a.addr.get 0 = 0xff && a.addr.get 1 &&& 0x0f = scope

/-- `address_v6::is_multicast_node_local`. -/
def AddressV6.isMulticastNodeLocal : AddressV6 → Bool := hasScope 0x01

/-- `address_v6::is_multicast_site_local`. -/
def AddressV6.isMulticastSiteLocal : AddressV6 → Bool := hasScope 0x05

/-- `address_v6::is_multicast_org_local`. -/
def AddressV6.isMulticastOrgLocal : AddressV6 → Bool := hasScope 0x08

/-- `address_v6::is_multicast_global`. -/
def AddressV6.isMulticastGlobal : AddressV6 → Bool := hasScope 0x0e

/-- The last four bytes. -/
def AddressV6.lastBytes (a : AddressV6) : List.Vector UInt8 4 :=
  ⟨[a.addr.get 12,a.addr.get 13,a.addr.get 14,a.addr.get 15],rfl⟩

/-- `address_v6::to_v4`. -/
def AddressV6.toV4 (a : AddressV6) : AddressV4 := if !a.isV4Mapped then .any else .ofBytes a.lastBytes

/-- `make_address_v4` of `v4_mapped` and an IPv6 address. -/
def makeAddressV4Mapped (a : AddressV6) : AddressV4 := if !a.isV4Mapped then .any else .ofBytes a.lastBytes

/-- `address::is_loopback`. -/
def Address.isLoopback : Address → Bool
  | .v4 a => a.isLoopback
  | .v6 a => a.isLoopback

/-- `address::is_unspecified`. -/
def Address.isUnspecified : Address → Bool
  | .v4 a => a.isUnspecified
  | .v6 a => a.isUnspecified

/-- `address::is_multicast`. -/
def Address.isMulticast : Address → Bool
  | .v4 a => a.isMulticast
  | .v6 a => a.isMulticast

/-! ### The comparison operators -/

/-- The defaulted comparison of `address_v4` compares `addr_`. -/
def AddressV4.equal (a b : AddressV4) : Bool := a.addr = b.addr

def AddressV4.less (a b : AddressV4) : Bool := a.addr < b.addr

/-- The sign of `memcmp`: the first bytes that differ decide. -/
def memcmp {n : Nat} (as bs : List.Vector UInt8 n) : Ordering := compare as.toList bs.toList

/-- `operator==` of `address_v6`. -/
def AddressV6.equal (a b : AddressV6) : Bool := memcmp a.addr b.addr = .eq && a.scopeId = b.scopeId

/-- `operator<` of `address_v6`. -/
def AddressV6.less (a b : AddressV6) : Bool :=
  let result := memcmp a.addr b.addr
  if result = .lt then true
  else if result = .gt then false
  else a.scopeId < b.scopeId

/-- The other operators of `address_v6` are written in terms of these. -/
def AddressV6.operators : Operators AddressV6 := .derived AddressV6.equal AddressV6.less

/-- The index of the alternative that `address::addr_` holds. -/
def Address.index : Address → Nat
  | .v4 _ => 0
  | .v6 _ => 1

/-- `address::is_v4`. -/
def Address.isV4 : Address → Bool
  | .v4 _ => true
  | .v6 _ => false

/-- The defaulted `operator==` of `address` compares the variants. -/
def Address.equal : Address → Address → Bool
  | .v4 a,.v4 b => a.equal b
  | .v6 a,.v6 b => a.equal b
  | _,_ => false

/-- `operator<` of `address`. -/
def Address.less (a b : Address) : Bool :=
  if a.index ≠ b.index then a.index < b.index
  else
    match a,b with
    | .v4 a,.v4 b => a.less b
    | .v6 a,.v6 b => a.less b
    -- the indices are equal
    | _,_ => false

/-- The other operators of `address` are written in terms of these. -/
def Address.operators : Operators Address := .derived Address.equal Address.less

end SendersIo.Addresses
