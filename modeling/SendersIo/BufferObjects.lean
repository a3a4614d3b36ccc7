import Mathlib.Algebra.Order.Ring.Nat
import Mathlib.Data.Nat.Factorization.Basic
import SendersIo.BufferCursor
import SendersIo.Subspans

/-!
The buffers of objects. Every overload of `sio::buffer` computes the number of bytes from
the size and the number of the elements, but those for `std::array` multiply the number
of the elements by itself.
-/
namespace SendersIo.BufferObjects
open SendersIo.Buffers SendersIo.BufferCursor

/-- Elements one after the other in memory. -/
structure Elements where
  address : Nat
  elementSize : Nat
  count : Nat
  sized : 1 ≤ elementSize
  fits : address + elementSize * count < 2 ^ 64

/-- The addresses of their bytes. -/
def Elements.bytes (o : Elements) : List Nat := List.range' o.address (o.elementSize * o.count)

/-- A product of `std::size_t`. -/
def mul (a b : Nat) : Nat := a * b % 2 ^ 64

/-! ### The overloads -/

/-- `buffer` of a C array, of constants or not. -/
def bufferConstCArray (o : Elements) : Buffer := ⟨o.address,mul o.elementSize o.count⟩
def bufferCArray (o : Elements) : Buffer := ⟨o.address,mul o.elementSize o.count⟩

/-- `buffer` of a string, of a constant one or not, and of a string view. -/
def bufferConstString (o : Elements) : Buffer := ⟨o.address,mul o.count o.elementSize⟩
def bufferString (o : Elements) : Buffer := ⟨o.address,mul o.count o.elementSize⟩
def bufferStringView (o : Elements) : Buffer := ⟨o.address,mul o.count o.elementSize⟩

/-- `buffer` of a `std::array`, of an array of constants and of a constant array. -/
def bufferArray (o : Elements) : Buffer := ⟨o.address,mul o.count o.count⟩
def bufferArrayOfConst (o : Elements) : Buffer := ⟨o.address,mul o.count o.count⟩
def bufferConstArray (o : Elements) : Buffer := ⟨o.address,mul o.count o.count⟩

/-- The objects that have an overload. -/
inductive Object where
  | constCArray (o : Elements)
  | cArray (o : Elements)
  | constString (o : Elements)
  | string (o : Elements)
  | stringView (o : Elements)
  | array (o : Elements)
  | arrayOfConst (o : Elements)
  | constArray (o : Elements)

def Object.elements : Object → Elements
  | .constCArray o | .cArray o | .constString o | .string o | .stringView o | .array o | .arrayOfConst o
  | .constArray o => o

/-- `sio::buffer`. -/
def buffer : Object → Buffer
  | .constCArray o => bufferConstCArray o
  | .cArray o => bufferCArray o
  | .constString o => bufferConstString o
  | .string o => bufferString o
  | .stringView o => bufferStringView o
  | .array o => bufferArray o
  | .arrayOfConst o => bufferArrayOfConst o
  | .constArray o => bufferConstArray o

/-! ### The operations on buffers -/

/-- `suffix`. -/
def suffixOf (b : Buffer) (n : Nat) : Buffer := if b.size ≤ n then b else ⟨b.data + b.size - n,n⟩

/-- What makes a buffer of a buffer: `operator+=`, `operator+` with the count on either side,
    `prefix` and `suffix`. -/
inductive Operation where
  | plusAssign (n : Nat)
  | plus (n : Nat)
  | plusLeft (n : Nat)
  | prefixOf (n : Nat)
  | suffixOf (n : Nat)

def Operation.apply (b : Buffer) : Operation → Buffer
  | .plusAssign n => b.advance n
  | .plus n => b.advance n
  | .plusLeft n => b.advance n
  | .prefixOf n => Subspans.Buffer.prefixOf b n
  | .suffixOf n => BufferObjects.suffixOf b n

/-- The addresses of the bytes of a buffer. -/
def range (b : Buffer) : List Nat := List.range' b.data b.size

variable {b : Buffer} {n : Nat} {object : Object}

theorem range_prefixOf (b : Buffer) (n : Nat) : range (Subspans.Buffer.prefixOf b n) = (range b).take n := by
  unfold Subspans.Buffer.prefixOf
  split
  · next all => rw [List.take_of_length_le (by simpa [range] using all)]
  · next part => exact (List.take_range'_of_length_ge (Nat.le_of_not_le part)).symm

theorem range_suffixOf (b : Buffer) (n : Nat) : range (suffixOf b n) = (range b).drop (b.size - n) := by
  unfold suffixOf
  split
  · next all => rw [Nat.sub_eq_zero_of_le all,List.drop_zero]
  · next part =>
    rw [range,range,List.drop_range',Nat.mul_one,Nat.add_sub_assoc (Nat.le_of_not_le part)]
    congr 1
    exact (Nat.sub_sub_self (Nat.le_of_not_le part)).symm

/-- The bytes of a prefix and those behind it are those of the buffer. -/
theorem prefixOf_append_advance (b : Buffer) (n : Nat) :
    range (Subspans.Buffer.prefixOf b n) ++ range (b.advance n) = range b := by
  have rest : range (b.advance n) = (range b).drop n := range_advance b n
  rw [range_prefixOf,rest,List.take_append_drop]

/-- An operation leaves a part of the buffer. -/
theorem range_apply (b : Buffer) (op : Operation) : (range (op.apply b)).Sublist (range b) := by
  have advanced (n : Nat) : (range (b.advance n)).Sublist (range b) := by
    have rest : range (b.advance n) = (range b).drop n := range_advance b n
    rw [rest]
    exact List.drop_sublist n _
  cases op with
  | plusAssign n => exact advanced n
  | plus n => exact advanced n
  | plusLeft n => exact advanced n
  | prefixOf n =>
    rw [Operation.apply,range_prefixOf]
    exact List.take_sublist n _
  | suffixOf n =>
    rw [Operation.apply,range_suffixOf]
    exact List.drop_sublist _ _

/-- A chain of operations does, too. -/
theorem range_chain (b : Buffer) (ops : List Operation) : (range (ops.foldl Operation.apply b)).Sublist (range b) := by
  induction ops generalizing b with
  | nil => exact List.Sublist.refl _
  | cons op ops ih => exact (ih (op.apply b)).trans (range_apply b op)

/-! ### The bytes of the object -/

/-- The buffer of an object covers exactly its bytes, and whatever is made of it stays in them. -/
structure StaysInside (object : Object) : Prop where
  exact : range (buffer object) = object.elements.bytes
  inside : ∀ ops : List Operation, ∀ a ∈ range (ops.foldl Operation.apply (buffer object)), a ∈ object.elements.bytes

/-- A `std::array` has no element, or as many as an element has bytes. -/
def Square : Object → Prop
  | .array o | .arrayOfConst o | .constArray o => o.count = 0 ∨ o.count = o.elementSize
  | _ => True

/-- If the square of a number wraps around, it is no smaller multiple of it. -/
theorem mul_self_eq_iff {size count : Nat} (sized : 1 ≤ size) (fits : size * count < 2 ^ 64) :
    mul count count = size * count ↔ count = 0 ∨ count = size := by
  constructor
  · intro same
    by_cases more : count ≤ size
    · have square : count * count ≤ size * count := Nat.mul_le_mul_right count more
      rw [mul,Nat.mod_eq_of_lt (by omega)] at same
      exact (Nat.eq_zero_or_pos count).imp_right fun positive => Nat.eq_of_mul_eq_mul_right positive same
    · exfalso
      -- the highest power of two in the number, and the power that the difference then has
      obtain ⟨a,m,odd,split⟩ := Nat.exists_eq_two_pow_mul_odd (show count ≠ 0 by omega)
      have wraps : 2 ^ 64 ∣ count * (count - size) := by
        rw [Nat.mul_sub,Nat.mul_comm count size,← same,mul]
        exact Nat.dvd_sub_mod _
      have positive : 1 ≤ m := odd.pos
      have low : 2 ^ a ≤ count := by
        rw [split]
        exact Nat.le_mul_of_pos_right _ positive
      have small : a < 64 := by
        have below : count ≤ size * count := Nat.le_mul_of_pos_left count sized
        exact (Nat.pow_lt_pow_iff_right (by decide : 1 < 2)).mp (by omega)
      have rest : 2 ^ (64 - a) ∣ count - size := by
        have whole : 2 ^ a * 2 ^ (64 - a) ∣ 2 ^ a * (m * (count - size)) := by
          rw [← pow_add,Nat.add_sub_cancel' small.le,← Nat.mul_assoc,← split]
          exact wraps
        have cut := Nat.dvd_of_mul_dvd_mul_left (Nat.two_pow_pos a) whole
        exact ((Nat.coprime_two_left.mpr odd).pow_left _).dvd_of_dvd_mul_left cut
      have high : 2 ^ (64 - a) ≤ count - size := Nat.le_of_dvd (by omega) rest
      have product : 2 ^ a * 2 ^ (64 - a) = 2 ^ 64 := by rw [← pow_add,Nat.add_sub_cancel' small.le]
      -- the smaller of the two powers divides both
      rcases Nat.le_total a (64 - a) with less | less
      · have both : 2 ^ a ∣ size := by
          have first : 2 ^ a ∣ count := ⟨m,split⟩
          have second : 2 ^ a ∣ count - size := (pow_dvd_pow 2 less).trans rest
          exact (Nat.dvd_sub_iff_right (by omega) first).mp second
        have least := Nat.le_of_dvd (by omega) both
        have := Nat.mul_le_mul least (show 2 ^ (64 - a) ≤ count by omega)
        omega
      · have both : 2 ^ (64 - a) ∣ size := by
          have first : 2 ^ (64 - a) ∣ count := (pow_dvd_pow 2 less).trans ⟨m,split⟩
          exact (Nat.dvd_sub_iff_right (by omega) first).mp rest
        have least := Nat.le_of_dvd (by omega) both
        have := Nat.mul_le_mul low least
        rw [Nat.mul_comm count size] at this
        omega
  · rintro (rfl | rfl)
    · simp [mul]
    · exact Nat.mod_eq_of_lt fits

theorem range_eq_iff (o : Elements) (size : Nat) :
    range ⟨o.address,size⟩ = o.bytes ↔ size = o.elementSize * o.count := by
  constructor
  · intro same
    simpa [range,Elements.bytes] using congrArg List.length same
  · rintro rfl
    rfl

/-- An overload covers the object if it multiplies the right numbers. -/
theorem exact_iff (object : Object) : range (buffer object) = object.elements.bytes ↔ Square object := by
  have product (o : Elements) : mul o.elementSize o.count = o.elementSize * o.count :=
    Nat.mod_eq_of_lt (by have := o.fits; omega)
  have turned (o : Elements) : mul o.count o.elementSize = o.elementSize * o.count := by
    rw [← product,mul,mul,Nat.mul_comm]
  have square (o : Elements) : range ⟨o.address,mul o.count o.count⟩ = o.bytes ↔ o.count = 0 ∨ o.count = o.elementSize := by
    rw [range_eq_iff,mul_self_eq_iff o.sized (by have := o.fits; omega)]
  cases object with
  | constCArray o => exact iff_of_true ((range_eq_iff o _).mpr (product o)) trivial
  | cArray o => exact iff_of_true ((range_eq_iff o _).mpr (product o)) trivial
  | constString o => exact iff_of_true ((range_eq_iff o _).mpr (turned o)) trivial
  | string o => exact iff_of_true ((range_eq_iff o _).mpr (turned o)) trivial
  | stringView o => exact iff_of_true ((range_eq_iff o _).mpr (turned o)) trivial
  | array o => exact square o
  | arrayOfConst o => exact square o
  | constArray o => exact square o

/-- Prefixes and what is behind them make up every buffer. The buffer of an object covers its
    bytes, and no operation leaves them, if and only if the object is no `std::array`, or one
    with no element or with as many as an element has bytes. -/
theorem buffer_stays_inside_iff (object : Object) :
    (∀ b n, range (Subspans.Buffer.prefixOf b n) ++ range (b.advance n) = range b) ∧
    (StaysInside object ↔ Square object) := by
  refine ⟨prefixOf_append_advance,?_⟩
  rw [← exact_iff]
  refine ⟨StaysInside.exact,fun exact => ⟨exact,fun ops a member => ?_⟩⟩
  rw [← exact]
  exact (range_chain (buffer object) ops).subset member

/-- The buffer of a `std::array` of three bytes has nine. -/
theorem array_of_three_has_nine : ¬ ∀ object, StaysInside object := by
  intro claimed
  have inside := (claimed (.array ⟨16,1,3,by decide,by decide⟩)).inside [] 24
  revert inside
  decide

end SendersIo.BufferObjects
