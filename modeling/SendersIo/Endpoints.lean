import SendersIo.AddressOrder
import SendersIo.Resolve

/-!
`ip::endpoint` by the fields of its union, also those that belong to the other
family or to none. An endpoint is made of an address and a port; the address that
it returns has lost the scope, and the endpoint of a resolver result is made of a
port that is in network byte order already.
-/
namespace SendersIo.Endpoints
open SendersIo.Addresses SendersIo.AddressOrder SendersIo.Comparisons SendersIo.Resolve
set_option linter.unusedSimpArgs false

/-- `AF_INET` and `AF_INET6` of sys/socket.h. -/
def afInet : UInt16 := 2
def afInet6 : UInt16 := 10

/-- `endpoint::data_`: the family, the port of either kind, `sin_addr` at the place of
    `sin6_flowinfo`, `sin6_addr` at that of the padding and beyond, and `sin6_scope_id`. -/
structure Data where
  family : UInt16
  sinPort : UInt16
  sinAddr : UInt32
  sin6Addr : List.Vector UInt8 16
  sin6ScopeId : UInt32
  deriving DecidableEq

/-- `data_{}`. The language only promises zeros for `base`; compilers clear the whole union. -/
def Data.zero : Data := ⟨0,0,0,.replicate 16 0,0⟩

/-- `endpoint::endpoint(ip::address, port_type)`. -/
def Data.ofAddress : Address → UInt16 → Data
  | .v4 a,port => { Data.zero with family := afInet, sinPort := htons port, sinAddr := a.addr }
  | .v6 a,port => { Data.zero with family := afInet6, sinPort := htons port, sin6Addr := a.addr }

/-- `endpoint::is_v4`. -/
def Data.isV4 (e : Data) : Bool := e.family = afInet

/-- `endpoint::port`. -/
def Data.port (e : Data) : UInt16 := ntohs e.sinPort

/-- `endpoint::address`. -/
def Data.address (e : Data) : Address :=
  if e.isV4 then .v4 ⟨e.sinAddr⟩ else .v6 ⟨e.sin6Addr,0⟩

/-- `operator==` of `endpoint`. -/
def Data.equal (a b : Data) : Bool := a.address.equal b.address && a.port = b.port

/-- `operator<` of `endpoint`. -/
def Data.less (a b : Data) : Bool :=
  if a.address.less b.address then true
  else if Address.operators.notEqual a.address b.address then false
  else a.port < b.port

/-- The other operators of `endpoint` are written in terms of these. -/
def Data.operators : Operators Data := .derived Data.equal Data.less

/-- The union over a socket address. -/
def union : Sockaddr → Data
  | .inet port addr => { Data.zero with family := afInet, sinPort := port, sinAddr := addr }
  | .inet6 port flowinfo addr scopeId => ⟨afInet6,port,flowinfo,addr,scopeId⟩

theorem union_ofAddress (a : Address) (port : UInt16) : union (Endpoint.ofAddress a port).data = .ofAddress a port := by
  cases a <;> rfl

/-! ### The order of endpoints -/

def orderEndpoint : Data → Data → Ordering := compareLex (onPart order Data.address) (compareOn Data.port)

instance : Std.TransCmp orderEndpoint :=
  inferInstanceAs (Std.TransCmp (compareLex (onPart order Data.address) (compareOn Data.port)))

/-- Endpoints are compared by their addresses and then by their ports. -/
theorem follows_endpoint : Follows Data.equal Data.less orderEndpoint := by
  have ports : Follows (fun a b : UInt16 => decide (a = b)) (fun a b => decide (a < b)) compare := follows_compare
  exact (follows.onPart Data.address).lex (ports.onPart Data.port)

/-- The operators of endpoints, whatever is in their unions, of addresses and of IPv6
    addresses are those of strict total orders. Endpoints are equal if their addresses and
    ports are, and addresses if they are the same. -/
theorem keys_ordered :
    (Data.operators.Ordered ∧ Address.operators.Ordered ∧ AddressV6.operators.Ordered) ∧
    (∀ a b : Data, Data.operators.equal a b = true ↔ a.address = b.address ∧ a.port = b.port) ∧
    (∀ a b : Address, Address.operators.equal a b = true ↔ a = b) ∧
    ∀ a b : AddressV6, AddressV6.operators.equal a b = true ↔ a = b := by
  refine ⟨⟨follows_endpoint.ordered,follows.ordered,follows_v6.ordered⟩,fun a b => ?_,fun a b => ?_,fun a b => ?_⟩
  · change Data.equal a b = true ↔ _
    rw [Data.equal,Bool.and_eq_true,decide_eq_true_eq,equal_iff]
  · exact equal_iff
  · exact equalV6_iff

/-! ### What an endpoint is made of -/

/-- The two bytes of a port are the same. -/
def SameBytes (port : UInt16) : Prop := port.toNat % 256 = port.toNat / 256

theorem toNat_htons (port : UInt16) : (htons port).toNat = port.toNat % 256 * 256 + port.toNat / 256 := by
  have bound := port.toNat_lt
  have high : port.toNat >>> 8 < 2 ^ 8 := by rw [Nat.shiftRight_eq_div_pow]; omega
  have low : port.toNat <<< 8 % 2 ^ 16 = (port.toNat % 256) <<< 8 := by simp only [Nat.shiftLeft_eq]; omega
  rw [htons,UInt16.toNat_or,UInt16.toNat_shiftLeft,UInt16.toNat_shiftRight]
  show port.toNat <<< 8 % 2 ^ 16 ||| port.toNat >>> 8 = _
  rw [low,← Nat.shiftLeft_add_eq_or_of_lt high,Nat.shiftLeft_eq,Nat.shiftRight_eq_div_pow]

theorem ntohs_htons (port : UInt16) : ntohs (htons port) = port := by
  have bound := port.toNat_lt
  apply UInt16.toNat_inj.mp
  rw [show ntohs (htons port) = htons (htons port) by rfl,toNat_htons,toNat_htons]
  omega

theorem htons_eq_iff (port : UInt16) : htons port = port ↔ SameBytes port := by
  have bound := port.toNat_lt
  rw [← UInt16.toNat_inj,toNat_htons,SameBytes]
  omega

/-- An IPv4 address, or an IPv6 address without a scope. -/
def Unscoped : Address → Prop
  | .v4 _ => True
  | .v6 a => a.scopeId = 0

/-- What the address of an endpoint keeps. -/
def unscope : Address → Address
  | .v4 a => .v4 a
  | .v6 a => .v6 ⟨a.addr,0⟩

theorem unscope_eq_iff (a : Address) : unscope a = a ↔ Unscoped a := by
  cases a with
  | v4 a => simp [unscope,Unscoped]
  | v6 a =>
    rcases a with ⟨addr,scopeId⟩
    simp [unscope,Unscoped,eq_comm]

@[simp] theorem address_ofAddress (a : Address) (port : UInt16) : (Data.ofAddress a port).address = unscope a := by
  cases a <;> rfl

@[simp] theorem port_ofAddress (a : Address) (port : UInt16) : (Data.ofAddress a port).port = port := by
  have kept : (Data.ofAddress a port).sinPort = htons port := by cases a <;> rfl
  rw [Data.port,kept,ntohs_htons]

@[simp] theorem isV4_ofAddress (a : Address) (port : UInt16) : (Data.ofAddress a port).isV4 = a.isV4 := by
  cases a <;> rfl

/-- The endpoint returns the address and the port that it was made of. -/
structure RoundTrips (a : Address) (p : UInt16) : Prop where
  address : (Data.ofAddress a p).address.equal a = true
  port : (Data.ofAddress a p).port = p
  isV4 : (Data.ofAddress a p).isV4 = a.isV4

theorem roundTrips_iff (a : Address) (p : UInt16) : RoundTrips a p ↔ Unscoped a := by
  rw [← unscope_eq_iff]
  constructor
  · intro trip
    simpa [equal_iff] using trip.address
  · intro kept
    exact ⟨by simpa [equal_iff] using kept,by simp,by simp⟩

/-- Two endpoints return what they were made of, and they are equal just if that was. -/
def Faithful (a b : Address) (p q : UInt16) : Prop :=
  RoundTrips a p ∧ RoundTrips b q ∧ ((Data.ofAddress a p).equal (.ofAddress b q) = true ↔ a.equal b = true ∧ p = q)

/-- Endpoints keep what they are made of if and only if no address has a scope. -/
theorem endpoints_round_trip_iff (a b : Address) (p q : UInt16) : Faithful a b p q ↔ Unscoped a ∧ Unscoped b := by
  rw [Faithful,roundTrips_iff,roundTrips_iff,← and_assoc,and_iff_left_iff_imp]
  rintro ⟨first,second⟩
  rw [← unscope_eq_iff] at first second
  simp [Data.equal,first,second,equal_iff]

/-- The endpoint of an address with a scope returns the address without it. -/
theorem endpoint_drops_scope : ¬ ∀ a b p q, Faithful a b p q := by
  intro claimed
  have same := (claimed (.v6 ⟨.replicate 16 0,1⟩) (.v4 ⟨0⟩) 80 80).1.address
  revert same
  decide

/-! ### The endpoint of a resolver result -/

/-- The address that a socket address encodes; its scope id has 16 bits in an `address_v6`. -/
def encodedAddress : Sockaddr → Address
  | .inet _ addr => .v4 ⟨addr⟩
  | .inet6 _ _ addr scopeId => .v6 ⟨addr,scopeId.toUInt16⟩

/-- The port that a socket address stores in network byte order. -/
def encodedPort (node : Sockaddr) : UInt16 := ntohs (union node).sinPort

/-- Two socket addresses have the same family, port, address and scope id. -/
def Agree : Sockaddr → Sockaddr → Prop
  | .inet port addr,.inet port' addr' => port = port' ∧ addr = addr'
  | .inet6 port _ addr scopeId,.inet6 port' _ addr' scopeId' => port = port' ∧ addr = addr' ∧ scopeId = scopeId'
  | _,_ => False

/-- The endpoint of a result has the address and the port of the node, and so has its socket address. -/
structure Resolved (node : Sockaddr) : Prop where
  address : (union (nodeEndpoint node).data).address.equal (encodedAddress node) = true
  port : (union (nodeEndpoint node).data).port = encodedPort node
  data : Agree (nodeEndpoint node).data node

/-- The scope id of a socket address that has one. -/
def scopeId (node : Sockaddr) : UInt32 := (union node).sin6ScopeId

/-- The endpoint of a result is that of its node if and only if the node has no scope id
    and a port that is the same in both byte orders. -/
theorem resolved_iff (node : Sockaddr) : Resolved node ↔ SameBytes (union node).sinPort ∧ scopeId node = 0 := by
  rw [← htons_eq_iff]
  cases node with
  | inet port addr =>
    constructor
    · intro resolved
      exact ⟨resolved.data.1,rfl⟩
    · rintro ⟨same,_⟩
      refine ⟨?_,?_,same,rfl⟩
      · simp [nodeEndpoint,union_ofAddress,unscope,encodedAddress,equal_iff]
      · simp only [nodeEndpoint,union_ofAddress,port_ofAddress]
        exact same.symm
  | inet6 port flowinfo addr scope =>
    constructor
    · intro resolved
      exact ⟨resolved.data.1,resolved.data.2.2.symm⟩
    · rintro ⟨same,none⟩
      have none : scope = 0 := none
      refine ⟨?_,?_,same,rfl,none.symm⟩
      · simp [nodeEndpoint,union_ofAddress,unscope,encodedAddress,equal_iff,none]
      · simp only [nodeEndpoint,union_ofAddress,port_ofAddress]
        exact same.symm

/-- A result for port 80 has an endpoint with port 20480. -/
theorem port_swapped_twice : ¬ ∀ node, Resolved node := by
  intro claimed
  have same := (claimed (.inet (htons 80) 0x0100007f)).port
  revert same
  decide

end SendersIo.Endpoints
