import Mathlib.Data.Nat.Bitwise
import Mathlib.Data.Nat.Log

/-!
The size classes of the memory pool: the index of a request is the logarithm of
its size, which is found in a table after the bits of the size were spread.
-/
namespace SendersIo.SizeClasses

/-- `tab64`. -/
def tab64 : List Nat :=
  [63,0,58,1,59,47,53,2,60,39,48,27,54,33,42,3,61,51,37,40,49,18,
   28,20,55,30,34,11,43,14,22,4,62,57,46,52,38,26,32,41,50,36,17,19,
   29,10,13,21,56,45,25,31,35,16,9,12,44,24,15,8,23,7,6,5]

/-- `value |= value >> k`. -/
def spread (value k : Nat) : Nat := value ||| (value >>> k)

/-- The six steps that set all bits below the highest one. -/
def spreadAll (value : Nat) : Nat := [1,2,4,8,16,32].foldl spread value

/-- `log2_64`, for a value of 64 bits. -/
def log2_64 (value : Nat) : Nat :=
  let value := spreadAll value
  tab64.getD (((value - (value >>> 1)) * 0x07EDD5E59A4E28C2 % 2 ^ 64) >>> 58) 0

/-- `sizeof(memory_block)`. -/
def headerBytes : Nat := 16

/-- The index of a request in `memory_pool::allocate`; from 32 on it is refused. -/
def classOf (size : Nat) : Nat := log2_64 ((size + headerBytes) % 2 ^ 64)

/-- `1 << (index + 1)` as a number of bytes: the shift is one of a 32-bit int, which
    is then extended; from 32 on it is undefined. -/
def blockBytes (index : Nat) : Option Nat :=
  if index + 1 < 32 then some (((1 : BitVec 32) <<< (index + 1)).signExtend 64).toNat else none

variable {v k j : Nat}

/-! ### Spreading the bits -/

theorem spread_testBit {value m : Nat} (before : ∀ j, value.testBit j = true ↔ ∃ d < m, v.testBit (j + d) = true) (j : Nat) :
    (spread value m).testBit j = true ↔ ∃ d < m + m, v.testBit (j + d) = true := by
  rw [spread,Nat.testBit_or,Nat.testBit_shiftRight,Bool.or_eq_true,before,before]
  constructor
  · rintro (⟨d,less,bit⟩ | ⟨d,less,bit⟩)
    · exact ⟨d,by omega,bit⟩
    · exact ⟨m + d,by omega,by rwa [show j + (m + d) = m + j + d by omega]⟩
  · rintro ⟨d,less,bit⟩
    by_cases low : d < m
    · exact .inl ⟨d,low,bit⟩
    · exact .inr ⟨d - m,by omega,by rwa [show m + j + (d - m) = j + d by omega]⟩

theorem spreadAll_testBit (v j : Nat) : (spreadAll v).testBit j = true ↔ ∃ d < 64, v.testBit (j + d) = true := by
  have zero : ∀ j, v.testBit j = true ↔ ∃ d < 1, v.testBit (j + d) = true := fun j => by simp
  exact spread_testBit (spread_testBit (spread_testBit (spread_testBit (spread_testBit (spread_testBit zero))))) j

/-- All bits up to the highest one are set. -/
theorem spreadAll_eq (low : 2 ^ k ≤ v) (high : v < 2 ^ (k + 1)) (small : k < 64) : spreadAll v = 2 ^ (k + 1) - 1 := by
  apply Nat.eq_of_testBit_eq
  intro j
  rw [Nat.testBit_two_pow_sub_one,Bool.eq_iff_iff,spreadAll_testBit,decide_eq_true_eq]
  constructor
  · rintro ⟨d,_,bit⟩
    by_contra above
    have : v < 2 ^ (j + d) := Nat.lt_of_lt_of_le high (Nat.pow_le_pow_right (by omega) (by omega))
    rw [Nat.testBit_lt_two_pow this] at bit
    cases bit
  · intro below
    refine ⟨k - j,by omega,?_⟩
    rw [show j + (k - j) = k by omega,Nat.testBit_eq_decide_div_mod_eq,decide_eq_true_eq]
    have : v / 2 ^ k = 1 := by
      apply Nat.div_eq_of_lt_le
      · simpa using low
      · rw [pow_succ] at high; omega
    rw [this]

theorem tab64_at (small : k < 64) : tab64.getD ((2 ^ k * 0x07EDD5E59A4E28C2 % 2 ^ 64) >>> 58) 0 = k := by
  have all : ∀ k < 64, tab64.getD ((2 ^ k * 0x07EDD5E59A4E28C2 % 2 ^ 64) >>> 58) 0 = k := by decide
  exact all k small

/-- The logarithm of a value of 64 bits, rounded down. -/
theorem log2_64_eq (some : 0 < v) (small : v < 2 ^ 64) : log2_64 v = Nat.log 2 v := by
  have low : 2 ^ Nat.log 2 v ≤ v := Nat.pow_log_le_self 2 (by omega)
  have high : v < 2 ^ (Nat.log 2 v + 1) := Nat.lt_pow_succ_log_self (by omega) v
  have bits : Nat.log 2 v < 64 := Nat.log_lt_of_lt_pow (by omega) small
  have all := spreadAll_eq low high bits
  have half : (2 ^ (Nat.log 2 v + 1) - 1) >>> 1 = 2 ^ Nat.log 2 v - 1 := by
    rw [Nat.shiftRight_eq_div_pow,pow_succ]
    omega
  have highest : 2 ^ (Nat.log 2 v + 1) - 1 - (2 ^ Nat.log 2 v - 1) = 2 ^ Nat.log 2 v := by
    have := Nat.one_le_two_pow (n := Nat.log 2 v)
    rw [pow_succ]
    omega
  simp only [log2_64,all,half,highest]
  exact tab64_at bits

/-- Where the multiplication leads in the table: the first six bits of the product. -/
def tabIndex (value : Nat) : Nat := (value * 0x07EDD5E59A4E28C2 % 2 ^ 64) >>> 58

/-- The table has the logarithm of every power of two. -/
theorem tab64_tabIndex : ∀ k < 64, tab64[tabIndex (2 ^ k)]? = some k := by decide

/-- No two powers of two lead to the same place. -/
theorem tabIndex_inj {k j : Nat} (less : k < 64) (less' : j < 64) (same : tabIndex (2 ^ k) = tabIndex (2 ^ j)) : k = j := by
  have found := tab64_tabIndex k less
  rw [same,tab64_tabIndex j less'] at found
  exact (Option.some.inj found).symm

/-- The index of a value is that of its highest bit: the six steps set all bits up to that one,
    and the table has the index where the power of two leads, and no other power does. -/
theorem log2_64_floor (v : Nat) (positive : 1 ≤ v) (small : v < 2 ^ 64) :
    log2_64 v = Nat.log 2 v ∧ 2 ^ log2_64 v ≤ v ∧ v < 2 ^ (log2_64 v + 1) ∧
    spreadAll v = 2 ^ (log2_64 v + 1) - 1 ∧
    (∀ k < 64, tab64[tabIndex (2 ^ k)]? = some k) ∧
    ∀ k < 64, ∀ j < 64, tabIndex (2 ^ k) = tabIndex (2 ^ j) → k = j := by
  have value : log2_64 v = Nat.log 2 v := log2_64_eq positive small
  have low : 2 ^ Nat.log 2 v ≤ v := Nat.pow_log_le_self 2 (by omega)
  have high : v < 2 ^ (Nat.log 2 v + 1) := Nat.lt_pow_succ_log_self (by omega) v
  have bits : Nat.log 2 v < 64 := Nat.log_lt_of_lt_pow (by omega) small
  rw [value]
  exact ⟨rfl,low,high,spreadAll_eq low high bits,tab64_tabIndex,fun k less j less' => tabIndex_inj less less'⟩

/-- The value 1000 is between the powers 9 and 10. -/
theorem log2_64_floor_1000 : log2_64 1000 = Nat.log 2 1000 ∧ log2_64 1000 = 9 :=
  ⟨(log2_64_floor 1000 (by decide) (by decide)).1,by decide⟩

/-! ### The classes of small requests -/

theorem blockBytes_small (small : k < 30) : blockBytes k = some (2 ^ (k + 1)) := by
  have all : ∀ k < 30, blockBytes k = some (2 ^ (k + 1)) := by decide
  exact all k small

/-- A request that fits in 30 bits has a class between 4 and 29, whose blocks hold
    the header and the request. -/
theorem classOf_small {size : Nat} (small : size + headerBytes < 2 ^ 30) :
    4 ≤ classOf size ∧ classOf size < 30 ∧ size + headerBytes < 2 ^ (classOf size + 1) := by
  have value : classOf size = Nat.log 2 (size + headerBytes) := by
    rw [classOf,Nat.mod_eq_of_lt (by omega)]
    exact log2_64_eq (by simp [headerBytes]) (by omega)
  rw [value]
  refine ⟨?_,Nat.log_lt_of_lt_pow (by simp [headerBytes]) small,Nat.lt_pow_succ_log_self (by omega) _⟩
  exact Nat.le_log_of_pow_le (by omega) (by simp [headerBytes])

/-! ### All requests -/

/-- `memory_pool::allocate` with the alignment left out: the index, or an exception. -/
def allocateSender (size : Nat) : Option Nat := if classOf size < 32 then some (classOf size) else none

/-- The size that `async_new_array` passes on. -/
def arraySize (element count : Nat) : Nat := element * count % 2 ^ 64

/-- The request of the given size is refused, or a block of its class has exactly the bytes
    of the class, which are enough for the header and the bytes that were asked for. -/
def Enough (size asked : Nat) : Prop :=
  ∀ index, allocateSender size = some index →
    blockBytes index = some (2 ^ (index + 1)) ∧ headerBytes + asked ≤ 2 ^ (index + 1)

/-- On the way of a request, the sum with the header does not wrap around, and the shift of
    the one is within the 31 bits of an int. -/
def InWidth (size : Nat) : Prop := size + headerBytes < 2 ^ 64 ∧ ∀ index, allocateSender size = some index → index + 1 < 31

/-- What a request of `memory_pool::allocate` promises. -/
def Fits (size : Nat) : Prop := Enough size size ∧ InWidth size

/-- What a request of `async_new_array` promises: nor does the product wrap around. -/
def ArrayFits (element count : Nat) : Prop :=
  Enough (arraySize element count) (element * count) ∧ element * count < 2 ^ 64 ∧ InWidth (arraySize element count)

/-- The header and the bytes asked for fit into a block below 2^30 bytes, or are more than
    every class has, but not more than what 64 bits hold. -/
def Sized (asked : Nat) : Prop :=
  asked + headerBytes < 2 ^ 30 ∨ 2 ^ 32 ≤ asked + headerBytes ∧ asked + headerBytes < 2 ^ 64

instance (asked : Nat) : Decidable (Sized asked) := by unfold Sized; infer_instance

theorem classOf_eq {size : Nat} (inside : size + headerBytes < 2 ^ 64) : classOf size = Nat.log 2 (size + headerBytes) := by
  rw [classOf,Nat.mod_eq_of_lt inside]
  exact log2_64_eq (by simp [headerBytes]) inside

theorem fits_iff (size : Nat) : Fits size ↔ Sized size := by
  constructor
  · rintro ⟨enough,inside,width⟩
    by_contra between
    rw [Sized,not_or,not_and_or] at between
    have least : 30 ≤ classOf size := by
      rw [classOf_eq inside]
      exact Nat.le_log_of_pow_le (by omega) (by omega)
    have most : classOf size < 32 := by
      rw [classOf_eq inside]
      exact Nat.log_lt_of_lt_pow (by simp [headerBytes]) (by omega)
    have := width _ (if_pos most)
    omega
  · rintro (small | ⟨large,inside⟩)
    · obtain ⟨_,few,room⟩ := classOf_small small
      have only : ∀ index, allocateSender size = some index → index = classOf size := by
        intro index same
        rw [allocateSender,if_pos (by omega)] at same
        exact (Option.some.inj same).symm
      refine ⟨fun index same => ?_,by omega,fun index same => ?_⟩
      · rw [only index same]
        exact ⟨blockBytes_small few,by omega⟩
      · rw [only index same]
        omega
    · have refused : allocateSender size = none := by
        rw [allocateSender,if_neg]
        rw [classOf_eq inside]
        exact Nat.not_lt.mpr (Nat.le_log_of_pow_le (by omega) large)
      exact ⟨fun index same => (by simp [refused] at same),inside,fun index same => (by simp [refused] at same)⟩

theorem arrayFits_iff (element count : Nat) : ArrayFits element count ↔ Sized (element * count) := by
  rw [← fits_iff]
  constructor
  · rintro ⟨enough,product,width⟩
    rw [arraySize,Nat.mod_eq_of_lt product] at enough width
    exact ⟨enough,width⟩
  · rintro ⟨enough,width⟩
    have product : element * count < 2 ^ 64 := Nat.lt_of_le_of_lt (Nat.le_add_right _ _) width.1
    rw [ArrayFits,arraySize,Nat.mod_eq_of_lt product]
    exact ⟨enough,product,width⟩

/-- Every request is refused or gets a block of the bytes of its class, with room for what
    was asked for, and nothing on the way exceeds its width, if and only if it has a class
    below 30, or none. -/
theorem requests_fit_iff (element count size : Nat) :
    (Fits size ↔ Sized size) ∧ (ArrayFits element count ↔ Sized (element * count)) :=
  ⟨fits_iff size,arrayFits_iff element count⟩

/-- A request in class 30 gets a block of a negative int, one in class 31 shifts by 32, one
    whose sum with the header wraps around gets 16 bytes, and an array of 2^61 elements of
    eight bytes gets 32. -/
theorem requests_exceed :
    (blockBytes (classOf (2 ^ 30 - 16)) = some (2 ^ 64 - 2 ^ 31) ∧ ¬ Fits (2 ^ 30 - 16)) ∧
    (allocateSender (2 ^ 31 - 16) = some 31 ∧ blockBytes 31 = none ∧ ¬ Fits (2 ^ 31 - 16)) ∧
    (blockBytes (classOf (2 ^ 64 - 1)) = some 16 ∧ ¬ Fits (2 ^ 64 - 1)) ∧
    (blockBytes (classOf (arraySize 8 (2 ^ 61))) = some 32 ∧ ¬ ArrayFits 8 (2 ^ 61)) := by
  refine ⟨⟨by decide,?_⟩,⟨by decide,by decide,?_⟩,⟨by decide,?_⟩,⟨by decide,?_⟩⟩
  · exact fun fits => absurd (fits.1 30 (by decide)).1 (by decide)
  · exact fun fits => absurd (fits.1 31 (by decide)).1 (by decide)
  · exact fun fits => absurd (fits.1 3 (by decide)).2 (by decide)
  · exact fun fits => absurd (fits.1 4 (by decide)).2 (by decide)

end SendersIo.SizeClasses
