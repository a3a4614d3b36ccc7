import SendersIo.Addresses

/-!
The order of addresses. IPv6 addresses are ordered by their bytes and then by
their scope, and the IPv4 addresses come before them. IPv4 addresses among each
other are ordered by the integer that has their bytes in network order in memory,
so on a little-endian host the last byte that differs decides, and not the first.
-/
namespace SendersIo.AddressOrder
open SendersIo.Addresses SendersIo.ByteOrder SendersIo.Comparisons
set_option linter.unusedSimpArgs false

/-! ### The comparisons that the operators follow -/

def orderV4 : AddressV4 → AddressV4 → Ordering := compareOn AddressV4.addr

def orderV6 : AddressV6 → AddressV6 → Ordering :=
  compareLex (onPart memcmp AddressV6.addr) (compareOn AddressV6.scopeId)

/-- The alternative that `address::addr_` holds. -/
def alternative : Address → AddressV4 ⊕ AddressV6
  | .v4 a => .inl a
  | .v6 a => .inr a

def order : Address → Address → Ordering := onPart (sumOrder orderV4 orderV6) alternative

instance : Std.TransCmp orderV4 := inferInstanceAs (Std.TransCmp (compareOn AddressV4.addr))

instance {n : Nat} : Std.TransCmp (memcmp : List.Vector UInt8 n → List.Vector UInt8 n → Ordering) :=
  inferInstanceAs (Std.TransCmp (compareOn List.Vector.toList))

instance : Std.TransCmp orderV6 :=
  inferInstanceAs (Std.TransCmp (compareLex (onPart memcmp AddressV6.addr) (compareOn AddressV6.scopeId)))

instance : Std.TransCmp order := inferInstanceAs (Std.TransCmp (onPart (sumOrder orderV4 orderV6) alternative))

theorem follows_v4 : Follows AddressV4.equal AddressV4.less orderV4 := by
  have words : Follows (fun a b : UInt32 => decide (a = b)) (fun a b => decide (a < b)) compare := follows_compare
  exact words.onPart AddressV4.addr

theorem follows_v6 : Follows AddressV6.equal AddressV6.less orderV6 where
  equal a b := by
    have scopes : decide (a.scopeId = b.scopeId) = (compare a.scopeId b.scopeId).isEq := follows_compare.equal _ _
    simp only [AddressV6.equal,scopes,orderV6,compareLex,compareOn,onPart]
    cases memcmp a.addr b.addr <;> simp
  less a b := by
    have scopes : decide (a.scopeId < b.scopeId) = (compare a.scopeId b.scopeId).isLT := follows_compare.less _ _
    simp only [AddressV6.less,scopes,orderV6,compareLex,compareOn,onPart]
    cases memcmp a.addr b.addr <;> simp

theorem follows : Follows Address.equal Address.less order where
  equal a b := by
    cases a <;> cases b
    case v4.v4 a b => exact follows_v4.equal a b
    case v6.v6 a b => exact follows_v6.equal a b
    all_goals rfl
  less a b := by
    cases a <;> cases b
    case v4.v4 a b => exact follows_v4.less a b
    case v6.v6 a b => exact follows_v6.less a b
    all_goals rfl

/-! ### Equality -/

theorem memcmp_eq_iff {n : Nat} {as bs : List.Vector UInt8 n} : memcmp as bs = .eq ↔ as = bs := by
  unfold memcmp
  rw [Std.LawfulEqCmp.compare_eq_iff_eq]
  exact ⟨List.Vector.eq as bs,congrArg _⟩

theorem equalV6_iff {a b : AddressV6} : a.equal b = true ↔ a = b := by
  rcases a with ⟨x,i⟩
  rcases b with ⟨y,j⟩
  simp only [AddressV6.equal,memcmp_eq_iff,Bool.and_eq_true,decide_eq_true_eq,AddressV6.mk.injEq]

theorem equal_iff {a b : Address} : a.equal b = true ↔ a = b := by
  cases a <;> cases b
  case v4.v4 a b =>
    rcases a with ⟨x⟩
    rcases b with ⟨y⟩
    simp [Address.equal,AddressV4.equal]
  case v6.v6 a b => simp [Address.equal,equalV6_iff]
  all_goals simp [Address.equal]

/-! ### IPv4 addresses as numbers -/

/-- A word of four bytes has these bytes in memory. -/
theorem memory_ofMemory {bs : List UInt8} (four : bs.length = 4) : memory (ofMemory bs) = bs := by
  have length : bs.reverse.length = 4 := by simpa using four
  have bound : bigEndian bs.reverse < 2 ^ 32 := by
    have less := bigEndian_lt bs.reverse
    rw [length] at less
    exact less
  have back := bytes_bigEndian bs.reverse
  rw [length] at back
  rw [memory,ofMemory,UInt32.toNat_ofNat',Nat.mod_eq_of_lt bound,back,List.reverse_reverse]

theorem memory_htonl (w : UInt32) : memory (htonl w) = bytes 4 w.toNat := by
  rw [htonl,memory_ofMemory (by simp),memory,List.reverse_reverse]

/-- The bytes of a word decide like the word, the last one in memory first. -/
theorem lt_iff_memory (v w : UInt32) : v < w ↔ compare (memory v).reverse (memory w).reverse = .lt := by
  have whole (w : UInt32) : bigEndian (memory w).reverse = w.toNat := by
    rw [memory,List.reverse_reverse,bigEndian_bytes]
    exact Nat.mod_eq_of_lt w.toNat_lt
  rw [← compare_bigEndian (by simp),Nat.compare_eq_lt,whole,whole,UInt32.lt_iff_toNat_lt]

/-- Numbers are ordered like their bytes, the most significant first. -/
theorem lt_iff_bytes (x y : UInt32) : x < y ↔ compare (bytes 4 x.toNat) (bytes 4 y.toNat) = .lt := by
  rw [lt_iff_memory,memory,memory,List.reverse_reverse,List.reverse_reverse]

/-- The addresses of two numbers are ordered by their bytes, the least significant first. -/
theorem less_ofUint (x y : UInt32) : (AddressV4.ofUint x).less (AddressV4.ofUint y) = true ↔
    compare (bytes 4 x.toNat).reverse (bytes 4 y.toNat).reverse = .lt := by
  rw [AddressV4.less,decide_eq_true_iff,lt_iff_memory,AddressV4.ofUint,AddressV4.ofUint,memory_htonl,memory_htonl]

/-- `to_bytes` has the most significant byte first. -/
theorem toBytes_ofUint (x : UInt32) : (AddressV4.ofUint x).toBytes.toList = bytes 4 x.toNat := memory_htonl x

/-- The mapped addresses of two numbers are ordered by their bytes, the most significant first. -/
theorem less_makeAddressV6Mapped (a b : AddressV4) : (makeAddressV6Mapped a).less (makeAddressV6Mapped b) = true ↔
    compare a.toBytes.toList b.toBytes.toList = .lt := by
  have front : memcmp (makeAddressV6Mapped a).addr (makeAddressV6Mapped b).addr = compare a.toBytes.toList b.toBytes.toList :=
    compare_append _ _ _
  simp only [AddressV6.less,front]
  cases compare a.toBytes.toList b.toBytes.toList <;> simp [makeAddressV6Mapped]

/-- The order of the addresses that two numbers make is that of the numbers, which is
    also the order of their bytes and that of the IPv4-mapped IPv6 addresses. -/
structure OrderedAsNumbers (x y : UInt32) : Prop where
  number : (AddressV4.ofUint x).less (AddressV4.ofUint y) = true ↔ x < y
  bytes : compare (AddressV4.ofUint x).toBytes.toList (AddressV4.ofUint y).toBytes.toList = .lt ↔ x < y
  mapped : (AddressV4.ofUint x).less (AddressV4.ofUint y) = true ↔
    (makeAddressV6Mapped (.ofUint x)).less (makeAddressV6Mapped (.ofUint y)) = true

/-- The first and the last bytes that differ, if there are any, differ in the same direction. -/
def SameDirection (as bs : List UInt8) : Prop :=
  ∀ first ∈ firstDifference as bs, ∀ last ∈ firstDifference as.reverse bs.reverse,
    first.1 < first.2 ↔ last.1 < last.2

/-- Reading the bytes from the other end keeps the order just if both ends agree. -/
theorem sameDirection_iff {as bs : List UInt8} (same : as.length = bs.length) :
    SameDirection as bs ↔ (compare as.reverse bs.reverse = .lt ↔ compare as bs = .lt) := by
  have turned : as.reverse.length = bs.reverse.length := by simpa using same
  rw [compare_eq_lt_iff same,compare_eq_lt_iff turned,SameDirection]
  cases first : firstDifference as bs with
  | none =>
    obtain rfl := (firstDifference_eq_none same).mp first
    simp [first,(firstDifference_eq_none turned).mpr rfl]
  | some p =>
    cases last : firstDifference as.reverse bs.reverse with
    | none =>
      obtain rfl := List.reverse_inj.mp ((firstDifference_eq_none turned).mp last)
      simp [(firstDifference_eq_none same).mpr rfl] at first
    | some q => simp [iff_comm]

/-- The order of IPv4 addresses is that of the numbers they are made of if and only if
    the most and the least significant bytes in which the numbers differ agree. -/
theorem ordered_as_numbers_iff (x y : UInt32) :
    OrderedAsNumbers x y ↔ SameDirection (bytes 4 x.toNat) (bytes 4 y.toNat) := by
  have mapped := less_makeAddressV6Mapped (.ofUint x) (.ofUint y)
  rw [toBytes_ofUint,toBytes_ofUint,← lt_iff_bytes] at mapped
  rw [sameDirection_iff (by simp),← less_ofUint,← lt_iff_bytes]
  refine ⟨fun ordered => ordered.number,fun agree => ⟨agree,?_,agree.trans mapped.symm⟩⟩
  rw [toBytes_ofUint,toBytes_ofUint,← lt_iff_bytes]

/-- 1 is less than 256, but as addresses they are ordered the other way. -/
theorem one_not_before_256 : ¬ ∀ x y, OrderedAsNumbers x y := by
  intro claimed
  have less := (claimed 1 256).number.mpr (by decide)
  revert less
  decide

end SendersIo.AddressOrder
