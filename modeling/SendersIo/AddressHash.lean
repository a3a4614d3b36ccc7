import SendersIo.Addresses

/-!
The hash of an IPv6 address. Four bytes at a time are packed into a value that is mixed
into the seed, but the value is a byte itself, and of the four it keeps the last.
-/
namespace SendersIo.AddressHash
open SendersIo.Addresses SendersIo.ByteOrder
set_option linter.unusedSimpArgs false

/-- `operator<<` of `std::byte`: an `unsigned int` is shifted, and cut off to a byte. -/
def shiftLeft (b : UInt8) (shift : UInt32) : UInt8 := (b.toUInt32 <<< shift).toUInt8

/-- `bytes_hash` in `combine_4_bytes`. -/
def bytesHash (b₀ b₁ b₂ b₃ : UInt8) : UInt8 := shiftLeft b₀ 24 ||| shiftLeft b₁ 16 ||| shiftLeft b₂ 8 ||| b₃

/-- `combine_4_bytes`: what the seed becomes. -/
def combine4Bytes (seed : UInt64) (b₀ b₁ b₂ b₃ : UInt8) : UInt64 :=
  seed ^^^ ((bytesHash b₀ b₁ b₂ b₃).toUInt64 + (0x9e3779b9 : UInt64) + (seed <<< (6 : UInt64)) + (seed >>> (2 : UInt64)))

/-- The byte `k` of the group `g`. -/
def byte (a : AddressV6) (g k : Fin 4) : UInt8 := a.addr.get ⟨4 * g + k,by omega⟩

/-- `std::hash<address_v6>`. -/
def hash (a : AddressV6) : UInt64 :=
  (List.finRange 4).foldl (fun seed g => combine4Bytes seed (byte a g 0) (byte a g 1) (byte a g 2) (byte a g 3))
    a.scopeId.toUInt64

/-- The value that is mixed into the seed for a group. -/
def fed (a : AddressV6) (g : Fin 4) : UInt64 := (bytesHash (byte a g 0) (byte a g 1) (byte a g 2) (byte a g 3)).toUInt64

/-- The hash depends on the scope and on the values that it is fed with. -/
theorem hash_eq (a : AddressV6) : hash a = ((List.finRange 4).map (fed a)).foldl
    (fun seed value => seed ^^^ (value + (0x9e3779b9 : UInt64) + (seed <<< (6 : UInt64)) + (seed >>> (2 : UInt64))))
    a.scopeId.toUInt64 := by
  rw [List.foldl_map]
  rfl

/-! ### What is kept of a group -/

/-- A byte that is shifted by eight or more is lost. -/
theorem shiftLeft_eq_zero (b : UInt8) {shift : UInt32} (wide : 8 ≤ shift.toNat) (bound : shift.toNat < 32) :
    shiftLeft b shift = 0 := by
  apply UInt8.toNat_inj.mp
  obtain ⟨more,rest⟩ := Nat.exists_eq_add_of_le wide
  have shifted : b.toNat <<< shift.toNat = 256 * (b.toNat * 2 ^ more) := by
    rw [Nat.shiftLeft_eq,rest,pow_add]
    ring
  have twice : 256 * (b.toNat * 2 ^ more) % 2 ^ 32 % 2 ^ 8 = 0 := by omega
  rw [shiftLeft,UInt32.toNat_toUInt8,UInt32.toNat_shiftLeft,UInt8.toNat_toUInt32,Nat.mod_eq_of_lt bound,shifted,twice]
  rfl

theorem bytesHash_eq (b₀ b₁ b₂ b₃ : UInt8) : bytesHash b₀ b₁ b₂ b₃ = b₃ := by
  rw [bytesHash,shiftLeft_eq_zero b₀ (by decide) (by decide),shiftLeft_eq_zero b₁ (by decide) (by decide),
    shiftLeft_eq_zero b₂ (by decide) (by decide)]
  simp

/-- The bytes of a group as a word are the byte that is kept just if the others are zero. -/
theorem bigEndian_eq_last {b₀ b₁ b₂ b₃ : UInt8} :
    b₃.toNat = bigEndian [b₀,b₁,b₂,b₃] ↔ b₀ = 0 ∧ b₁ = 0 ∧ b₂ = 0 := by
  simp only [bigEndian,List.length_cons,List.length_nil,← UInt8.toNat_inj,UInt8.toNat_zero]
  omega

theorem fed_toNat (a : AddressV6) (g : Fin 4) : (fed a g).toNat = (byte a g 3).toNat := by
  rw [fed,bytesHash_eq,UInt8.toNat_toUInt64]

/-! ### When the hash is fed with the words of the address -/

/-- The bytes of a group. -/
def group (a : AddressV6) (g : Fin 4) : List UInt8 := [byte a g 0,byte a g 1,byte a g 2,byte a g 3]

/-- The addresses differ in one byte, and that is in the group `g` at `k`. -/
def DifferAt (a b : AddressV6) (g k : Fin 4) : Prop :=
  byte a g k ≠ byte b g k ∧ ∀ g' k', (g',k') ≠ (g,k) → byte a g' k' = byte b g' k'

/-- The hash of `a` is fed with the words of the address, and with other words than that of
    an address that differs in one byte. -/
structure WordsFed (a b : AddressV6) : Prop where
  words : ∀ g, (fed a g).toNat = bigEndian (group a g)
  apart : ∀ g k, DifferAt a b g k → (List.finRange 4).map (fed a) ≠ (List.finRange 4).map (fed b)

/-- Only the last bytes of the groups matter: the others are zero, and two addresses that
    differ in one byte differ in the last of a group. -/
structure LastBytesOnly (a b : AddressV6) : Prop where
  zero : ∀ g k, k ≠ 3 → byte a g k = 0
  last : ∀ g k, DifferAt a b g k → k = 3

theorem words_iff (a : AddressV6) (g : Fin 4) :
    (fed a g).toNat = bigEndian (group a g) ↔ ∀ k, k ≠ 3 → byte a g k = 0 := by
  rw [fed_toNat,group,bigEndian_eq_last]
  constructor
  · rintro ⟨first,second,third⟩ k other
    match k with
    | 0 => exact first
    | 1 => exact second
    | 2 => exact third
    | 3 => exact absurd rfl other
  · intro zero
    exact ⟨zero 0 (by decide),zero 1 (by decide),zero 2 (by decide)⟩

/-- The feeds are the same just if the last bytes of the groups are. -/
theorem feeds_eq_iff (a b : AddressV6) :
    (List.finRange 4).map (fed a) = (List.finRange 4).map (fed b) ↔ ∀ g, byte a g 3 = byte b g 3 := by
  rw [List.map_inj_left]
  refine ⟨fun same g => ?_,fun same g _ => ?_⟩
  · rw [← UInt8.toNat_inj,← fed_toNat,← fed_toNat,same g (List.mem_finRange g)]
  · rw [← UInt64.toNat_inj,fed_toNat,fed_toNat,same g]

/-- The hash is fed with the words of an address if and only if only last bytes matter. -/
theorem words_fed_iff (a b : AddressV6) : WordsFed a b ↔ LastBytesOnly a b := by
  have apart (g k : Fin 4) (differ : DifferAt a b g k) :
      (List.finRange 4).map (fed a) ≠ (List.finRange 4).map (fed b) ↔ k = 3 := by
    rw [ne_eq,feeds_eq_iff]
    constructor
    · intro seen
      by_contra other
      exact seen fun g' => differ.2 g' 3 fun same => other (Prod.mk.inj same).2.symm
    · rintro rfl same
      exact differ.1 (same g)
  constructor
  · intro fed
    exact ⟨fun g => (words_iff a g).mp (fed.words g),fun g k differ => (apart g k differ).mp (fed.apart g k differ)⟩
  · intro last
    exact ⟨fun g => (words_iff a g).mpr (last.zero g),fun g k differ => (apart g k differ).mpr (last.last g k differ)⟩

/-- Two addresses that differ in their first byte feed the hash with the same words. -/
theorem first_byte_lost : ¬ ∀ a b, WordsFed a b := by
  intro claimed
  have word := (claimed ⟨⟨[1,0,0,0,0,0,0,0,0,0,0,0,0,0,0,0],by decide⟩,0⟩ .any).words 0
  revert word
  decide

end SendersIo.AddressHash
