import Mathlib.Data.List.DropRight
import SendersIo.Buffers

/-!
Slices of a span of buffers, `const_buffer_subspan` and `mutable_buffer_subspan`, whose
code is the same. A slice is an array of buffers with an offset into its first buffer
and the end of its last one. What is read in memory has to be a buffer, and what a
standard container does not define has no outcome. The subtractions of `size_t` are a
parameter: those of the machine wrap around, and the checked ones have no outcome
where the machine's wrap around.
-/
namespace SendersIo.Subspans
open SendersIo.Buffers

/-- The buffers in memory. Addresses count buffers. -/
abbrev Memory := Nat → Option Buffer

/-- The size of the buffer at an address. -/
def Memory.sizeAt (m : Memory) (a : Nat) : Nat := ((m a).map Buffer.size).getD 0

/-- Nothing but `k` buffers from an address on. -/
def Memory.only (m : Memory) (p k : Nat) : Memory := fun a => if p ≤ a ∧ a < p + k then m a else none

/-- `const_buffer_subspan`. Without a pointer, `buffers` is `nullptr`. -/
structure Subspan where
  buffers : Option Nat
  size : Nat
  i0 : Nat
  iN : Nat
  deriving DecidableEq

/-- `const_buffer::prefix`. -/
def Buffer.prefixOf (b : Buffer) (n : Nat) : Buffer := if b.size ≤ n then b else ⟨b.data,n⟩

/-- The subtraction of the machine. -/
def wrapping (a b : Nat) : Option Nat := some (if b ≤ a then a - b else 2 ^ 64 + a - b)

/-- A subtraction that must not wrap around. -/
def checked (a b : Nat) : Option Nat := if b ≤ a then some (a - b) else none

/-- The private constructor. -/
def Subspan.make (buffers : Option Nat) (size i0 iN : Nat) : Subspan :=
  if size = 1 ∧ i0 = iN then ⟨none,0,i0,iN⟩ else ⟨buffers,size,i0,iN⟩

/-- The constructor from a span. -/
def Subspan.ofSpan (m : Memory) (buffers : Option Nat) (size : Nat) : Option Subspan :=
  if 0 < size then do
    let p ← buffers
    let last ← m (p + size - 1)
    pure ⟨buffers,size,0,last.size⟩
  else pure ⟨buffers,size,0,0⟩

section
variable (sub : Nat → Nat → Option Nat) (m : Memory)

/-- The loop of `find_buffer_index_for_n` over a span of `count` buffers: how many are
    left, the index of the next one, and what is left of `n`. -/
def findBufferIndexForN (p count : Nat) : Nat → Nat → Nat → Option (Nat × Nat)
  | 0,i,_ => do
    let index ← sub i 1
    -- `back` of an empty span is not defined
    let back ← if count = 0 then none else m (p + count - 1)
    pure (index,back.size)
  | left + 1,i,n => do
    let buffer ← m (p + i)
    if n ≤ buffer.size then pure (i,n)
    else
      let n ← sub n buffer.size
      findBufferIndexForN p count left (i + 1) n

/-- The loop of `buffer_size`. -/
def addSizes (p : Nat) : Nat → Nat → Option Nat
  | 0,size => pure size
  | left + 1,size => do
    let buffer ← m p
    addSizes (p + 1) left ((size + buffer.size) % 2 ^ 64)

/-- `const_buffer_subspan::buffer_size`. -/
def Subspan.bufferSize (s : Subspan) : Option Nat :=
  if s.size = 0 then pure 0
  else if s.size = 1 then sub s.iN s.i0
  else do
    let p ← s.buffers
    let first ← m p
    let size ← sub first.size s.i0
    let count ← sub s.size 2
    let size ← addSizes m (p + 1) count size
    pure ((size + s.iN) % 2 ^ 64)

/-- `const_buffer_subspan::prefix`. -/
def Subspan.prefixOf (s : Subspan) (n : Nat) : Option Subspan :=
  if s.size = 0 then pure s
  else do
    let p ← s.buffers
    let first ← m p
    let firstLength ← sub first.size s.i0
    if n ≤ firstLength then pure (.make p 1 s.i0 ((n + s.i0) % 2 ^ 64))
    else
      let n ← sub n firstLength
      let count ← sub s.size 1
      let (index,rest) ← findBufferIndexForN sub m (p + 1) count count 0 n
      pure (.make p (index + 2) s.i0 rest)

/-- The loop of `suffix` with what follows it, at a buffer and with what is left of `n`. It
    takes the length of the first buffer for that of every other one. -/
def Subspan.walk (s : Subspan) (p : Nat) : Nat → Nat → Option Subspan
  | 0,n => do
    let first ← m p
    let firstLength ← sub first.size s.i0
    if n ≤ firstLength then
      let start ← sub ((s.i0 + firstLength) % 2 ^ 64) n
      pure (.make p s.size start s.iN)
    else pure s
  | i + 1,n => do
    let first ← m p
    let length := first.size
    if n ≤ length then
      let rest ← sub length n
      let size ← sub s.size (i + 1)
      pure (.make (some (p + (i + 1))) size rest length)
    else
      let buffer ← m (p + (i + 1))
      let n ← sub n buffer.size
      s.walk p i n

/-- `const_buffer_subspan::suffix`. -/
def Subspan.suffixOf (s : Subspan) (n : Nat) : Option Subspan :=
  if s.size = 0 then pure s
  else do
    let p ← s.buffers
    if s.size = 1 then
      let length ← sub s.iN s.i0
      if n ≤ length then
        let start ← sub ((s.i0 + length) % 2 ^ 64) n
        pure (.make p 1 start s.iN)
      else pure (.make p 1 s.i0 s.iN)
    else if n ≤ s.iN then
      let start ← sub s.iN n
      pure (.make (some (p + s.size - 1)) 1 start s.iN)
    else
      let n ← sub n s.iN
      let i ← sub s.size 2
      s.walk sub m p i n

/-- `without_prefix`. -/
def withoutPrefix (s : Subspan) (prefixSize : Nat) : Option Subspan := do
  let size ← s.bufferSize sub m
  let rest ← if prefixSize ≤ size then sub size prefixSize else pure 0
  s.suffixOf sub m rest

/-- `const_iterator::operator*`. -/
def Subspan.deref (s : Subspan) (index : Nat) : Option Buffer := do
  let p ← s.buffers
  let end_ ← sub s.size 1
  let last : Nat := 2 ^ 64 - 1
  let index := if end_ ≤ index then last else index
  let buffer ← m (p + index)
  if index = 0 then pure (buffer.advance s.i0)
  else if index = last then pure (Buffer.prefixOf buffer s.iN)
  else pure buffer

/-- The buffers that the iterators from `begin` to `end` are dereferenced to. -/
def Subspan.elements (s : Subspan) : Option (List Buffer) := (List.range s.size).mapM (s.deref sub m)

end

/-! ### What a slice denotes -/

/-- The bytes from `i` to `j` of the buffer at an address. -/
def part (a i j : Nat) : List (Nat × Nat) := (List.range' i (j - i)).map fun k => (a,k)

section
variable (m : Memory)

/-- The bytes of `k` buffers from an address on. -/
def bytesFrom : Nat → Nat → Nat → Nat → List (Nat × Nat)
  | 0,_,_,_ => []
  | 1,p,i0,iN => part p i0 iN
  | k + 2,p,i0,iN => part p i0 (m.sizeAt p) ++ bytesFrom (k + 1) (p + 1) 0 iN

/-- The bytes that a slice denotes. -/
def Subspan.bytes (s : Subspan) : List (Nat × Nat) :=
  match s.buffers with
  | some p => bytesFrom m s.size p s.i0 s.iN
  | none => []

/-- The address of a byte. -/
def address (x : Nat × Nat) : Nat := ((m x.1).map Buffer.data).getD 0 + x.2

/-- The addresses of the bytes of a buffer. -/
def bufferBytes (b : Buffer) : List Nat := List.range' b.data b.size

/-- The buffers of a slice are in memory, and its ends are in its first and its last
    buffer, in order if they are one buffer. -/
structure Slice (s : Subspan) (p : Nat) : Prop where
  pointer : s.buffers = some p
  nonempty : 0 < s.size
  bounded : s.size < 2 ^ 64
  buffers : ∀ i < s.size, (m (p + i)).isSome = true
  sizes : ∀ i < s.size, m.sizeAt (p + i) < 2 ^ 64
  starts : s.i0 ≤ m.sizeAt p
  ends : s.iN ≤ m.sizeAt (p + s.size - 1)
  ordered : s.size = 1 → s.i0 ≤ s.iN

/-- An empty slice, or one with its ends in its buffers. -/
def Valid (s : Subspan) : Prop := s.size = 0 ∨ ∃ p, Slice m s p

/-- An empty slice, or one of `k` buffers from an address on. -/
def Inside (p k : Nat) (s : Subspan) : Prop := s.size = 0 ∨ ∃ q, Slice m s q ∧ p ≤ q ∧ q + s.size ≤ p + k

/-- A memory with nothing but the buffers of a slice. -/
def Subspan.own (s : Subspan) : Memory :=
  match s.buffers with
  | some p => m.only p s.size
  | none => fun _ => none

end

/-- The buffers of the given sizes, from address zero on. -/
def array (sizes : List Nat) : Memory := fun a => (sizes[a]?).map fun n => ⟨1000 * a,n⟩

/-! ### Bytes of buffers -/

variable {m m' : Memory} {s : Subspan} {p a i j k n i0 iN : Nat} {sub : Nat → Nat → Option Nat}

theorem part_length : (part a i j).length = j - i := by simp [part]

theorem part_nil (none : j ≤ i) : part a i j = [] := by simp [part,Nat.sub_eq_zero_of_le none]

theorem part_append (first : i ≤ j) (second : j ≤ k) : part a i j ++ part a j k = part a i k := by
  have whole := List.range'_append_1 (s := i) (m := j - i) (n := k - j)
  rw [show i + (j - i) = j by omega,show j - i + (k - j) = k - i by omega] at whole
  rw [part,part,part,← List.map_append,whole]

theorem part_take (inside : i + n ≤ j) : (part a i j).take n = part a i (i + n) := by
  rw [← part_append (j := i + n) (by omega) inside,List.take_left' (by rw [part_length]; omega)]

theorem part_rtake (inside : n + i ≤ j) : (part a i j).rtake n = part a (j - n) j := by
  rw [List.rtake,← part_append (j := j - n) (by omega) (by omega),
    List.drop_left' (by rw [List.length_append,part_length,part_length]; omega)]

/-- The bytes of `k` buffers from an address on, to the end of the last one. -/
def full (m : Memory) (k p i0 : Nat) : List (Nat × Nat) := bytesFrom m k p i0 (m.sizeAt (p + k - 1))

theorem full_succ : full m (k + 1) p i0 = part p i0 (m.sizeAt p) ++ full m k (p + 1) 0 := by
  cases k with
  | zero => simp [full,bytesFrom]
  | succ k => simp only [full,bytesFrom,show p + (k + 1 + 1) - 1 = p + 1 + (k + 1) - 1 by omega]

/-- The bytes of the first buffers, and those of the others. -/
theorem bytesFrom_split (inside : i < k) (some : 0 < i) :
    bytesFrom m k p i0 iN = full m i p i0 ++ bytesFrom m (k - i) (p + i) 0 iN := by
  induction i generalizing k p i0 with
  | zero => omega
  | succ i ih =>
    obtain ⟨k,rfl⟩ : ∃ l, k = l + 2 := ⟨k - 2,by omega⟩
    rw [full_succ,bytesFrom]
    by_cases last : i = 0
    · subst last
      simp [full,bytesFrom]
    · rw [ih (by omega) (by omega),List.append_assoc]
      rw [show k + 1 - i = k + 2 - (i + 1) by omega,show p + 1 + i = p + (i + 1) by omega]

theorem full_concat :
    full m (i + 2) p i0 = full m (i + 1) p i0 ++ part (p + (i + 1)) 0 (m.sizeAt (p + (i + 1))) := by
  rw [full,bytesFrom_split (i := i + 1) (by omega) (by omega),show i + 2 - (i + 1) = 1 by omega,bytesFrom]
  rfl

/-- A slice without what is left of its last buffer. -/
theorem full_eq (some : 0 < k) (ends : iN ≤ m.sizeAt (p + k - 1)) (ordered : k = 1 → i0 ≤ iN) :
    full m k p i0 = bytesFrom m k p i0 iN ++ part (p + k - 1) iN (m.sizeAt (p + k - 1)) := by
  by_cases single : k = 1
  · subst single
    exact (part_append (ordered rfl) ends).symm
  · have split : ∀ z, bytesFrom m k p i0 z = full m (k - 1) p i0 ++ bytesFrom m (k - (k - 1)) (p + (k - 1)) 0 z := fun z =>
      bytesFrom_split (by omega) (by omega)
    rw [full,split,split,show k - (k - 1) = 1 by omega,bytesFrom,bytesFrom,show p + (k - 1) = p + k - 1 by omega,List.append_assoc,
      part_append (Nat.zero_le _) ends]

theorem sizeAt_of_some {b : Buffer} (at_a : m a = some b) : m.sizeAt a = b.size := by simp [Memory.sizeAt,at_a]

/-! ### Reading the buffers of a slice -/

/-- The other memory has buffers of the same sizes at `k` addresses. -/
def Reads (m m' : Memory) (p k : Nat) : Prop := ∀ i < k, ∃ b, m' (p + i) = some b ∧ b.size = m.sizeAt (p + i)

theorem Slice.reads (slice : Slice m s p) : Reads m m p s.size := by
  intro i inside
  obtain ⟨b,at_i⟩ := Option.isSome_iff_exists.mp (slice.buffers i inside)
  exact ⟨b,at_i,(sizeAt_of_some at_i).symm⟩

theorem Slice.reads_own (slice : Slice m s p) : Reads m (s.own m) p s.size := by
  intro i inside
  obtain ⟨b,at_i,size⟩ := slice.reads i inside
  refine ⟨b,?_,size⟩
  simp only [Subspan.own,slice.pointer,Memory.only]
  rw [if_pos (by omega),at_i]

/-- A subtraction that gives the difference where there is one. -/
def Exact (sub : Nat → Nat → Option Nat) : Prop := ∀ a b, b ≤ a → sub a b = some (a - b)

/-- What is left of the first buffer ends with it. -/
theorem Slice.first_end (slice : Slice m s p) : (s.i0 + (m.sizeAt p - s.i0)) % 2 ^ 64 = m.sizeAt p := by
  have starts := slice.starts
  have size := slice.sizes 0 slice.nonempty
  rw [Nat.add_zero] at size
  rw [Nat.add_sub_cancel' starts,Nat.mod_eq_of_lt size]

/-- The length of a single buffer ends where the slice does. -/
theorem Slice.single_end (slice : Slice m s p) (single : s.size = 1) : (s.i0 + (s.iN - s.i0)) % 2 ^ 64 = s.iN := by
  have ends := slice.ends
  have size := slice.sizes 0 slice.nonempty
  rw [single,Nat.add_sub_cancel] at ends
  rw [Nat.add_zero] at size
  rw [Nat.add_sub_cancel' (slice.ordered single),Nat.mod_eq_of_lt (by omega)]

theorem wrapping_exact : Exact wrapping := fun a b fits => by simp [wrapping,fits]

theorem checked_exact : Exact checked := fun a b fits => by simp [checked,fits]

/-! ### Prefixes -/

/-- The search ends at the buffer with the last of the first `n` bytes, or at the last one. -/
theorem find_spec (exact : Exact sub) (reads : Reads m m' p k) {left : Nat} (more : 0 < left) (all : i + left = k) :
    ∃ index rest, findBufferIndexForN sub m' p k left i n = some (index,rest) ∧ i ≤ index ∧ index < k ∧
      rest ≤ m.sizeAt (p + index) ∧ bytesFrom m (index - i + 1) (p + i) 0 rest = (full m left (p + i) 0).take n := by
  induction left generalizing i n with
  | zero => omega
  | succ left ih =>
    obtain ⟨b,at_i,size⟩ := reads i (by omega)
    rw [full_succ]
    by_cases inside : n ≤ b.size
    · refine ⟨i,n,by simp [findBufferIndexForN,at_i,inside],Nat.le_refl i,by omega,size ▸ inside,?_⟩
      rw [Nat.sub_self,List.take_append_of_le_length (by rw [part_length]; omega),part_take (by omega)]
      simp only [Nat.zero_add,bytesFrom]
    · have passed : (part (p + i) 0 (m.sizeAt (p + i)) ++ full m left (p + i + 1) 0).take n =
          part (p + i) 0 (m.sizeAt (p + i)) ++ (full m left (p + i + 1) 0).take (n - b.size) := by
        rw [List.take_append,List.take_of_length_le (by rw [part_length]; omega),part_length,← size,Nat.sub_zero]
      rw [passed]
      by_cases last : left = 0
      · subst last
        obtain ⟨c,at_last,same⟩ := reads (k - 1) (by omega)
        have here : p + k - 1 = p + i := by omega
        refine ⟨i,b.size,?_,Nat.le_refl i,by omega,size ▸ Nat.le_refl _,?_⟩
        · simp [findBufferIndexForN,at_i,inside,exact _ _ (Nat.le_of_not_le inside),exact _ _ (Nat.le_add_left 1 i),here,
            show k ≠ 0 by omega]
        · simp [full,bytesFrom,size]
      · obtain ⟨index,rest,found,above,below,fits,bytes⟩ := ih (i := i + 1) (n := n - b.size) (by omega) (by omega)
        refine ⟨index,rest,?_,by omega,below,fits,?_⟩
        · simp [findBufferIndexForN,at_i,inside,exact _ _ (Nat.le_of_not_le inside),found]
        · rw [show index - i + 1 = index - (i + 1) + 2 by omega,bytesFrom,show p + i + 1 = p + (i + 1) by omega]
          rw [bytes]

theorem make_bytes (p size i0 iN : Nat) :
    (Subspan.make (some p) size i0 iN).bytes m = bytesFrom m size p i0 iN := by
  unfold Subspan.make
  split
  · rename_i empty
    obtain ⟨rfl,rfl⟩ := empty
    simp [Subspan.bytes,bytesFrom,part_nil]
  · rfl

/-- A slice that is made of buffers of another one. -/
theorem make_inside {size : Nat} (slice : Slice m s p) (first : p ≤ a) (last : a + size ≤ p + s.size)
    (starts : i0 ≤ m.sizeAt a) (ends : iN ≤ m.sizeAt (a + size - 1)) (ordered : size = 1 → i0 ≤ iN) :
    Inside m p s.size (.make (some a) size i0 iN) := by
  unfold Subspan.make
  split
  · exact .inl rfl
  · by_cases none : size = 0
    · exact .inl none
    · have bounded := slice.bounded
      have at_ : ∀ i, p + (a - p + i) = a + i := fun i => by omega
      refine .inr ⟨a,⟨rfl,Nat.pos_of_ne_zero none,by simp only; omega,fun i inside => ?_,fun i inside => ?_,starts,ends,
        ordered⟩,first,last⟩
      · exact at_ i ▸ slice.buffers (a - p + i) (by simp only at inside; omega)
      · exact at_ i ▸ slice.sizes (a - p + i) (by simp only at inside; omega)

/-- A prefix denotes the first bytes of the buffers, whatever the end of the last one. -/
theorem prefixOf_full (exact : Exact sub) (slice : Slice m s p) (reads : Reads m m' p s.size)
    (fits : s.size = 1 → n + s.i0 ≤ m.sizeAt p) :
    ∃ s', s.prefixOf sub m' n = some s' ∧ Inside m p s.size s' ∧ s'.bytes m = (full m s.size p s.i0).take n := by
  have starts := slice.starts
  have some_ := slice.nonempty
  obtain ⟨b,at_p,size⟩ := reads 0 some_
  rw [Nat.add_zero] at at_p size
  have length : sub b.size s.i0 = some (m.sizeAt p - s.i0) := by rw [size]; exact exact _ _ starts
  have more : s.size ≠ 0 := by omega
  obtain ⟨k,same⟩ : ∃ k, s.size = k + 1 := ⟨s.size - 1,by omega⟩
  have split_ : full m s.size p s.i0 = part p s.i0 (m.sizeAt p) ++ full m k (p + 1) 0 := by rw [same,full_succ]
  by_cases inside : n ≤ m.sizeAt p - s.i0
  · have bounded := slice.sizes 0 some_
    rw [Nat.add_zero] at bounded
    have fits : (n + s.i0) % 2 ^ 64 = n + s.i0 := Nat.mod_eq_of_lt (by omega)
    refine ⟨.make s.buffers 1 s.i0 (n + s.i0),?_,?_,?_⟩
    · simp only [Subspan.prefixOf,if_neg more,slice.pointer,Option.bind_eq_bind,Option.bind_some,at_p,length,if_pos inside,fits]
      rfl
    · rw [slice.pointer]
      exact make_inside slice (Nat.le_refl p) (by omega) starts (by simp only [Nat.add_sub_cancel]; omega)
        fun _ => Nat.le_add_left _ _
    · rw [slice.pointer,make_bytes,split_,List.take_append_of_le_length (by rw [part_length]; exact inside),
        part_take (by omega),bytesFrom,Nat.add_comm]
  · have several : 0 < k := by omega
    have later : Reads m m' (p + 1) k := fun i inside => by
      have := reads (i + 1) (by omega)
      rwa [show p + (i + 1) = p + 1 + i by omega] at this
    obtain ⟨index,rest,found,_,below,ends,bytes⟩ :=
      find_spec (n := n - (m.sizeAt p - s.i0)) exact later several (Nat.zero_add k)
    refine ⟨.make s.buffers (index + 2) s.i0 rest,?_,?_,?_⟩
    · simp [Subspan.prefixOf,slice.pointer,at_p,length,inside,same,exact _ _ (Nat.le_of_not_le inside),
        exact (k + 1) 1 (by omega),found]
    · rw [slice.pointer]
      refine make_inside slice (Nat.le_refl p) (by omega) starts ?_ (by omega)
      rwa [show p + (index + 2) - 1 = p + 1 + index by omega]
    · rw [slice.pointer,make_bytes,split_,bytesFrom]
      rw [Nat.sub_zero,Nat.add_zero] at bytes
      rw [bytes,List.take_append,List.take_of_length_le (l := part p s.i0 (m.sizeAt p)) (by rw [part_length]; omega),
        part_length]

/-- Beyond the end of a single buffer, `back` of an empty span is not defined. -/
theorem prefixOf_beyond (exact : Exact sub) (slice : Slice m s p) (reads : Reads m m' p s.size) (single : s.size = 1)
    (beyond : m.sizeAt p < n + s.i0) : s.prefixOf sub m' n = none := by
  have starts := slice.starts
  obtain ⟨b,at_p,size⟩ := reads 0 slice.nonempty
  rw [Nat.add_zero] at at_p size
  rw [← size] at starts beyond
  have outside : ¬ n ≤ b.size - s.i0 := by omega
  simp [Subspan.prefixOf,slice.pointer,at_p,single,exact _ _ starts,outside,exact 1 1 (Nat.le_refl 1),
    findBufferIndexForN]

/-- The size of the last buffer. -/
def Subspan.lastSize (m : Memory) (s : Subspan) : Nat :=
  match s.buffers with
  | some p => m.sizeAt (p + s.size - 1)
  | none => 0

/-- `prefix` denotes the first `n` bytes and reads only buffers of the slice. -/
def Prefixes (m : Memory) (s : Subspan) (n : Nat) : Prop :=
  ∃ s', s.prefixOf wrapping (s.own m) n = some s' ∧ s'.bytes m = (s.bytes m).take n

theorem Slice.bytes (slice : Slice m s p) : s.bytes m = bytesFrom m s.size p s.i0 s.iN := by
  rw [Subspan.bytes,slice.pointer]

theorem Slice.full (slice : Slice m s p) :
    full m s.size p s.i0 = s.bytes m ++ part (p + s.size - 1) s.iN (m.sizeAt (p + s.size - 1)) := by
  rw [full_eq slice.nonempty slice.ends slice.ordered,slice.bytes]

/-- The first bytes of a list are those of a longer one, if that has no more or no more of
    them are asked for. -/
theorem take_append_iff {α : Type} (l r : List α) (n : Nat) :
    (l ++ r).take n = l.take n ↔ n ≤ l.length ∨ r = [] := by
  constructor
  · intro same
    have lengths := congrArg List.length same
    simp only [List.length_take,List.length_append] at lengths
    by_cases inside : n ≤ l.length
    · exact .inl inside
    · exact .inr (List.length_eq_zero_iff.mp (by omega))
  · rintro (inside | rfl)
    · exact List.take_append_of_le_length inside
    · rw [List.append_nil]

/-- `prefix` denotes the first bytes of a slice if and only if it has as many, or it ends
    where its last buffer does and has another one before that. -/
theorem prefixes_iff (valid : Valid m s) :
    Prefixes m s n ↔ s.size = 0 ∨ n ≤ (s.bytes m).length ∨ 2 ≤ s.size ∧ s.iN = s.lastSize m := by
  rcases valid with none | ⟨p,slice⟩
  · have nothing : s.bytes m = [] := by
      unfold Subspan.bytes
      split
      · rw [none]
        rfl
      · rfl
    refine iff_of_true ⟨s,by simp [Subspan.prefixOf,none],?_⟩ (.inl none)
    rw [nothing,List.take_nil]
  have some_ := slice.nonempty
  have last : s.lastSize m = m.sizeAt (p + s.size - 1) := by rw [Subspan.lastSize,slice.pointer]
  by_cases beyond : s.size = 1 ∧ m.sizeAt p < n + s.i0
  · have undefined_ := prefixOf_beyond wrapping_exact slice slice.reads_own beyond.1 beyond.2
    refine iff_of_false ?_ ?_
    · rintro ⟨s',found,_⟩
      rw [undefined_] at found
      cases found
    · have ends := slice.ends
      have ordered := slice.ordered beyond.1
      rw [slice.bytes,beyond.1,bytesFrom,part_length]
      rw [beyond.1] at ends
      simp only [Nat.add_sub_cancel] at ends
      omega
  · obtain ⟨s',found,_,bytes⟩ := prefixOf_full (n := n) wrapping_exact slice slice.reads_own (by omega)
    have agrees : Prefixes m s n ↔ (full m s.size p s.i0).take n = (s.bytes m).take n := by
      constructor
      · rintro ⟨t,same,denotes⟩
        obtain rfl : s' = t := Option.some.inj (found.symm.trans same)
        rw [← bytes,denotes]
      · exact fun same => ⟨s',found,bytes.trans same⟩
    rw [agrees,slice.full,take_append_iff]
    have ends := slice.ends
    have rest : part (p + s.size - 1) s.iN (m.sizeAt (p + s.size - 1)) = [] ↔ s.iN = s.lastSize m := by
      rw [← List.length_eq_zero_iff,part_length]
      omega
    rw [rest]
    constructor
    · rintro (inside | same)
      · exact .inr (.inl inside)
      · by_cases several : 2 ≤ s.size
        · exact .inr (.inr ⟨several,same⟩)
        · -- a single buffer that the slice has to its end
          have single : s.size = 1 := by omega
          rw [slice.bytes,single,bytesFrom,part_length]
          rw [last,single,Nat.add_sub_cancel] at same
          omega
    · rintro (none | inside | ⟨_,same⟩)
      · omega
      · exact .inl inside
      · exact .inr same

/-- The first two of the three bytes that a slice of two buffers has. -/
theorem prefixes_two : Prefixes (array [2,2]) ⟨some 0,2,1,2⟩ 2 :=
  (prefixes_iff (.inr ⟨0,rfl,by decide,by decide,by decide,by decide,by decide,by decide,by decide⟩)).mpr (.inr (.inl (by decide)))

/-- One of the two bytes of a buffer, and two are asked for: the slice gets longer. -/
theorem prefix_extends_slice : Valid (array [2]) ⟨some 0,1,0,1⟩ ∧ ¬ Prefixes (array [2]) ⟨some 0,1,0,1⟩ 2 := by
  refine ⟨.inr ⟨0,rfl,by decide,by decide,by decide,by decide,by decide,by decide,by decide⟩,?_⟩
  rintro ⟨s',found,bytes⟩
  cases found
  exact absurd bytes (by decide)

/-! ### Suffixes -/

theorem rtake_append_of_le {α : Type} {l r : List α} (inside : n ≤ r.length) : (l ++ r).rtake n = r.rtake n := by
  rw [List.rtake,List.rtake,List.drop_append,List.drop_of_length_le (by rw [List.length_append]; omega),List.nil_append]
  congr 1
  rw [List.length_append]
  omega

theorem rtake_append {α : Type} {l r : List α} (beyond : r.length ≤ n) :
    (l ++ r).rtake n = l.rtake (n - r.length) ++ r := by
  rw [List.rtake,List.rtake,List.length_append,List.drop_append_of_le_length (by omega)]
  congr 2
  omega

theorem rtake_length {α : Type} (l : List α) (n : Nat) : (l.rtake n).length = min n l.length := by
  rw [List.rtake,List.length_drop]
  omega

/-- The ends of a list are the same if they are equally long. -/
theorem suffix_eq {α : Type} {l r w : List α} (first : l <:+ w) (second : r <:+ w)
    (length : l.length = r.length) : l = r := by
  rw [List.suffix_iff_eq_drop.mp first,List.suffix_iff_eq_drop.mp second,length]

/-- The end of a buffer from where the walk stops at it, while `n` bytes are missing. -/
theorem part_suffix (length : Nat) : part a (length - n) j <:+ part a 0 j := by
  by_cases inside : length - n ≤ j
  · exact ⟨part a 0 (length - n),part_append (Nat.zero_le _) inside⟩
  · rw [part_nil (by omega)]
    exact List.nil_suffix

section
variable (m : Memory) (s : Subspan) (p : Nat)

/-- What the walk needs to stop where the last `n` bytes of the first buffers begin. A
    buffer in the middle at which it stops has the length of the first one, or is not
    longer and nothing is missing, or is all that there is and is taken as a whole; the
    last buffer ends at that length. A buffer that it passes has no more than is missing. -/
def WalkSound : Nat → Nat → Prop
  | 0,_ => True
  | i + 1,n =>
    if n ≤ m.sizeAt p then
      s.iN = m.sizeAt p ∧ (m.sizeAt (p + (i + 1)) = m.sizeAt p ∨ n = 0 ∧ m.sizeAt (p + (i + 1)) ≤ m.sizeAt p ∨
        full m (i + 1) p s.i0 = [] ∧ m.sizeAt (p + (i + 1)) < n ∧ (m.sizeAt (p + (i + 1)) = 0 ∨ n = m.sizeAt p))
    else m.sizeAt (p + (i + 1)) ≤ n ∧ WalkSound i (n - m.sizeAt (p + (i + 1)))

end

/-- The last `n` bytes of the buffers up to the `i`-th one, and all of the others. -/
def walked (m : Memory) (s : Subspan) (p i n : Nat) : List (Nat × Nat) :=
  (full m (i + 1) p s.i0).rtake n ++ bytesFrom m (s.size - (i + 1)) (p + (i + 1)) 0 s.iN

/-- Where the walk stops, the buffer has the right number of bytes. -/
theorem stops_iff {length here before : Nat} (stops : n ≤ length) :
    here - (length - n) = min n (before + here) ↔
      here = length ∨ n = 0 ∧ here ≤ length ∨ before = 0 ∧ here < n ∧ (here = 0 ∨ n = length) := by
  omega

theorem walked_pass (inside : i + 2 < s.size) (passed : m.sizeAt (p + (i + 1)) ≤ n) :
    walked m s p (i + 1) n = walked m s p i (n - m.sizeAt (p + (i + 1))) := by
  have length : (part (p + (i + 1)) 0 (m.sizeAt (p + (i + 1)))).length = m.sizeAt (p + (i + 1)) := by
    rw [part_length,Nat.sub_zero]
  obtain ⟨k,same⟩ : ∃ k, s.size - (i + 1) = k + 2 := ⟨s.size - (i + 3),by omega⟩
  rw [walked,walked,full_concat,rtake_append (by rw [length]; exact passed),length,same,bytesFrom,
    List.append_assoc,show s.size - (i + 1 + 1) = k + 1 by omega,show p + (i + 1) + 1 = p + (i + 1 + 1) by omega]

/-- The walk finds the first of the last `n` bytes. -/
theorem walk_spec (exact : Exact sub) (slice : Slice m s p) (reads : Reads m m' p s.size) (inside : i + 2 ≤ s.size)
    (sound : WalkSound m s p i n) : ∃ s', s.walk sub m' p i n = some s' ∧ s'.bytes m = walked m s p i n := by
  have starts := slice.starts
  obtain ⟨b,at_p,size⟩ := reads 0 slice.nonempty
  rw [Nat.add_zero] at at_p size
  induction i generalizing n with
  | zero =>
    obtain ⟨k,same⟩ : ∃ k, s.size = k + 2 := ⟨s.size - 2,by omega⟩
    have first : full m 1 p s.i0 = part p s.i0 (m.sizeAt p) := by simp [full,bytesFrom]
    by_cases fits : n ≤ m.sizeAt p - s.i0
    · refine ⟨.make (some p) s.size (m.sizeAt p - n) s.iN,?_,?_⟩
      · simp only [Subspan.walk,at_p,size,exact _ _ starts,Option.bind_eq_bind,Option.bind_some,if_pos fits,slice.first_end,
          exact (m.sizeAt p) n (by omega)]
        rfl
      · rw [make_bytes,walked,first,same,bytesFrom,part_rtake (by omega)]
        rfl
    · refine ⟨s,by simp [Subspan.walk,at_p,size,exact _ _ starts,fits],?_⟩
      rw [slice.bytes,walked,first,same,bytesFrom,List.rtake,part_length,Nat.sub_eq_zero_of_le (by omega),List.drop_zero]
      rfl
  | succ i ih =>
    obtain ⟨c,at_i,here⟩ := reads (i + 1) (by omega)
    rw [WalkSound] at sound
    by_cases stops : n ≤ m.sizeAt p
    · rw [if_pos stops,show full m (i + 1) p s.i0 = [] ↔ _ from List.length_eq_zero_iff.symm,← stops_iff stops] at sound
      obtain ⟨k,same⟩ : ∃ k, s.size - (i + 1) = k + 2 := ⟨s.size - (i + 3),by omega⟩
      refine ⟨.make (some (p + (i + 1))) (s.size - (i + 1)) (m.sizeAt p - n) (m.sizeAt p),?_,?_⟩
      · simp [Subspan.walk,at_p,size,stops,exact _ _ stops,exact s.size (i + 1) (by omega)]
      · have stop : part (p + (i + 1)) (m.sizeAt p - n) (m.sizeAt (p + (i + 1))) = (full m (i + 2) p s.i0).rtake n := by
          refine suffix_eq (w := full m (i + 2) p s.i0) ?_ (List.drop_suffix _ _) ?_
          · rw [full_concat]
            exact (part_suffix _).trans (List.suffix_append _ _)
          · rw [rtake_length,full_concat,List.length_append,part_length,part_length,Nat.sub_zero]
            exact sound.2
        rw [make_bytes,same,bytesFrom,stop,walked,show s.size - (i + 1 + 1) = k + 1 by omega,sound.1]
        rfl
    · rw [if_neg stops] at sound
      obtain ⟨s',found,bytes⟩ := ih (by omega) sound.2
      refine ⟨s',?_,?_⟩
      · simp [Subspan.walk,at_p,size,stops,at_i,here,exact _ _ sound.1,found]
      · rw [walked_pass (by omega) sound.1,bytes]

/-- How many of the bytes are in the buffer at an address. -/
def countAt (a : Nat) (l : List (Nat × Nat)) : Nat := l.countP fun x => x.1 = a

theorem countAt_append (a : Nat) (l r : List (Nat × Nat)) : countAt a (l ++ r) = countAt a l + countAt a r :=
  List.countP_append

theorem countAt_part (a i j : Nat) : countAt a (part a i j) = j - i := by
  rw [countAt,List.countP_eq_length.mpr,part_length]
  intro x member
  obtain ⟨k,_,rfl⟩ := List.mem_map.mp member
  exact decide_eq_true rfl

theorem countAt_part_ne {b : Nat} (other : b ≠ a) (i j : Nat) : countAt a (part b i j) = 0 := by
  rw [countAt,List.countP_eq_zero]
  intro x member
  obtain ⟨k,_,rfl⟩ := List.mem_map.mp member
  simpa using other

theorem countAt_before (before : a < p) : countAt a (bytesFrom m k p i0 iN) = 0 := by
  induction k generalizing p i0 with
  | zero => rfl
  | succ k ih =>
    cases k with
    | zero => exact countAt_part_ne (by omega) i0 iN
    | succ k => rw [bytesFrom,countAt_append,countAt_part_ne (by omega),ih (by omega)]

/-- The buffers in the middle are there as a whole. -/
theorem countAt_middle (above : p < a) (below : a + 1 < p + k) : countAt a (bytesFrom m k p i0 iN) = m.sizeAt a := by
  induction k generalizing p i0 with
  | zero => omega
  | succ k ih =>
    obtain ⟨k,rfl⟩ : ∃ l, k = l + 1 := ⟨k - 1,by omega⟩
    rw [bytesFrom,countAt_append,countAt_part_ne (by omega),Nat.zero_add]
    by_cases next : a = p + 1
    · subst next
      obtain ⟨k,rfl⟩ : ∃ l, k = l + 1 := ⟨k - 1,by omega⟩
      rw [bytesFrom,countAt_append,countAt_part,countAt_before (by omega)]
      omega
    · exact ih (by omega) (by omega)

theorem countAt_after (after : p + k ≤ a) : countAt a (bytesFrom m k p i0 iN) = 0 := by
  induction k generalizing p i0 with
  | zero => rfl
  | succ k ih =>
    cases k with
    | zero => exact countAt_part_ne (by omega) i0 iN
    | succ k => rw [bytesFrom,countAt_append,countAt_part_ne (by omega),ih (by omega)]

theorem countAt_last (last : a = p + k) : countAt a (bytesFrom m (k + 1) p 0 iN) = iN := by
  induction k generalizing p with
  | zero => rw [bytesFrom,last,Nat.add_zero,countAt_part,Nat.sub_zero]
  | succ k ih => rw [bytesFrom,countAt_append,countAt_part_ne (by omega),ih (by omega),Nat.zero_add]

/-- Wherever the walk ends, the buffers that it has passed are in the slice as a whole. -/
theorem walk_covers (slice : Slice m s p) (reads : Reads m m' p s.size) (inside : i + 2 ≤ s.size) (n : Nat) :
    ∃ s', s.walk wrapping m' p i n = some s' ∧ ∀ a, p + i < a → a + 1 < p + s.size → countAt a (s'.bytes m) = m.sizeAt a := by
  have starts := slice.starts
  obtain ⟨b,at_p,size⟩ := reads 0 slice.nonempty
  rw [Nat.add_zero] at at_p size
  induction i generalizing n with
  | zero =>
    by_cases fits : n ≤ m.sizeAt p - s.i0
    · refine ⟨.make (some p) s.size (m.sizeAt p - n) s.iN,?_,fun a above below => ?_⟩
      · have start : n ≤ m.sizeAt p := by omega
        simp only [Subspan.walk,at_p,size,wrapping_exact _ _ starts,slice.first_end,wrapping_exact _ _ start,
          Option.bind_eq_bind,Option.bind_some,if_pos fits]
        rfl
      · rw [make_bytes]
        exact countAt_middle above below
    · refine ⟨s,by simp [Subspan.walk,at_p,size,wrapping,starts,fits],fun a above below => ?_⟩
      rw [slice.bytes]
      exact countAt_middle above below
  | succ i ih =>
    obtain ⟨c,at_i,here⟩ := reads (i + 1) (by omega)
    by_cases stops : n ≤ m.sizeAt p
    · refine ⟨.make (some (p + (i + 1))) (s.size - (i + 1)) (m.sizeAt p - n) (m.sizeAt p),?_,fun a above below => ?_⟩
      · simp [Subspan.walk,at_p,size,stops,wrapping,show i + 1 ≤ s.size by omega]
      · rw [make_bytes]
        exact countAt_middle above (by omega)
    · obtain ⟨s',found,covers⟩ := ih (by omega) (if c.size ≤ n then n - c.size else 2 ^ 64 + n - c.size)
      refine ⟨s',?_,fun a above below => covers a (by omega) below⟩
      simp only [Subspan.walk,at_p,at_i,size,if_neg stops,wrapping,Option.bind_eq_bind,Option.bind_some]
      exact found

/-- Where the walk is not sound, it ends elsewhere. -/
theorem walk_unsound (slice : Slice m s p) (reads : Reads m m' p s.size) (inside : i + 2 ≤ s.size)
    (unsound : ¬ WalkSound m s p i n) {s' : Subspan} (found : s.walk wrapping m' p i n = some s') :
    s'.bytes m ≠ walked m s p i n := by
  obtain ⟨b,at_p,size⟩ := reads 0 slice.nonempty
  rw [Nat.add_zero] at at_p size
  induction i generalizing n with
  | zero => exact absurd trivial unsound
  | succ i ih =>
    obtain ⟨c,at_i,here⟩ := reads (i + 1) (by omega)
    rw [WalkSound] at unsound
    obtain ⟨k,same⟩ : ∃ k, s.size - (i + 1) = k + 2 := ⟨s.size - (i + 3),by omega⟩
    by_cases stops : n ≤ m.sizeAt p
    · rw [if_pos stops,show full m (i + 1) p s.i0 = [] ↔ _ from List.length_eq_zero_iff.symm,← stops_iff stops] at unsound
      have result : s' = .make (some (p + (i + 1))) (k + 2) (m.sizeAt p - n) (m.sizeAt p) := by
        simpa [Subspan.walk,at_p,size,stops,wrapping,show i + 1 ≤ s.size by omega,same] using found.symm
      intro denotes
      rw [result,make_bytes,walked,show s.size - (i + 1 + 1) = k + 1 by omega] at denotes
      by_cases ends : s.iN = m.sizeAt p
      · refine unsound ⟨ends,?_⟩
        have lengths := congrArg List.length denotes
        rw [bytesFrom,List.length_append,List.length_append,part_length,rtake_length,full_concat,
          List.length_append,part_length,Nat.sub_zero,ends,show p + (i + 1) + 1 = p + (i + 1 + 1) by omega] at lengths
        omega
      · refine ends ?_
        have counts := congrArg (countAt (p + s.size - 1)) denotes
        have none : countAt (p + s.size - 1) ((full m (i + 1 + 1) p s.i0).rtake n) = 0 :=
          Nat.le_zero.mp ((List.Sublist.countP_le (List.drop_sublist _ _)).trans_eq (countAt_after (by omega)))
        rw [bytesFrom,countAt_append,countAt_part_ne (by omega),countAt_last (by omega),countAt_append,none,
          countAt_last (by omega)] at counts
        omega
    · rw [if_neg stops] at unsound
      by_cases passed : m.sizeAt (p + (i + 1)) ≤ n
      · rw [walked_pass (by omega) passed]
        refine ih (by omega) (fun sound => unsound ⟨passed,sound⟩) ?_
        simpa [Subspan.walk,at_p,at_i,size,stops,here,wrapping,passed] using found
      · -- the buffer has more than is missing, and the walk goes past it
        obtain ⟨t,same_walk,covers⟩ := walk_covers slice reads (i := i) (by omega) (2 ^ 64 + n - c.size)
        have result : t = s' := by
          have walks : s.walk wrapping m' p (i + 1) n = s.walk wrapping m' p i (2 ^ 64 + n - c.size) := by
            simp [Subspan.walk,at_p,at_i,size,stops,here,wrapping,passed]
          exact Option.some.inj (same_walk.symm.trans (walks.symm.trans found))
        subst result
        intro denotes
        have counts := congrArg (countAt (p + (i + 1))) denotes
        rw [covers _ (by omega) (by omega),walked,full_concat,rtake_append_of_le (by rw [part_length]; omega),
          part_rtake (by omega),countAt_append,countAt_part,countAt_before (by omega)] at counts
        omega

/-- The bytes that `suffix` is for. -/
theorem walked_eq (slice : Slice m s p) (several : 2 ≤ s.size) (beyond : s.iN ≤ n) :
    walked m s p (s.size - 2) (n - s.iN) = (s.bytes m).rtake n := by
  have length : (bytesFrom m 1 (p + (s.size - 1)) 0 s.iN).length = s.iN := by rw [bytesFrom,part_length,Nat.sub_zero]
  rw [slice.bytes,bytesFrom_split (i := s.size - 1) (by omega) (by omega),show s.size - (s.size - 1) = 1 by omega,
    rtake_append (by rw [length]; exact beyond),length,walked,show s.size - 2 + 1 = s.size - 1 by omega,
    show s.size - (s.size - 1) = 1 by omega]

/-- When `suffix` finds where the last `n` bytes begin. -/
def SuffixSound (m : Memory) (s : Subspan) (n : Nat) : Prop :=
  s.size ≤ 1 ∨ n ≤ s.iN ∨ ∃ p, s.buffers = some p ∧ WalkSound m s p (s.size - 2) (n - s.iN)

/-- A suffix of a single buffer is cut out of it. -/
theorem suffixOf_single (exact : Exact sub) (slice : Slice m s p) (single : s.size = 1) (n : Nat) :
    s.suffixOf sub m' n =
      some (if n ≤ s.iN - s.i0 then .make (some p) 1 (s.iN - n) s.iN else .make (some p) 1 s.i0 s.iN) := by
  have ordered := slice.ordered single
  have more : s.size ≠ 0 := by omega
  by_cases inside : n ≤ s.iN - s.i0
  · have start : n ≤ s.iN := by omega
    simp only [Subspan.suffixOf,if_neg more,if_pos single,slice.pointer,exact _ _ ordered,slice.single_end single,
      exact _ _ start,Option.bind_eq_bind,Option.bind_some,if_pos inside]
    rfl
  · simp only [Subspan.suffixOf,if_neg more,if_pos single,slice.pointer,exact _ _ ordered,Option.bind_eq_bind,
      Option.bind_some,if_neg inside]
    rfl

/-- A suffix of several buffers ends in the last of them, or its start is searched. -/
theorem suffixOf_several (exact : Exact sub) (slice : Slice m s p) (several : 1 < s.size) (n : Nat) :
    s.suffixOf sub m' n =
      if n ≤ s.iN then some (.make (some (p + s.size - 1)) 1 (s.iN - n) s.iN)
      else s.walk sub m' p (s.size - 2) (n - s.iN) := by
  have more : s.size ≠ 0 := by omega
  have other : s.size ≠ 1 := by omega
  by_cases inside : n ≤ s.iN
  · simp only [Subspan.suffixOf,if_neg more,if_neg other,slice.pointer,exact _ _ inside,Option.bind_eq_bind,
      Option.bind_some,if_pos inside]
    rfl
  · simp only [Subspan.suffixOf,if_neg more,if_neg other,slice.pointer,exact _ _ (Nat.le_of_not_le inside),
      exact s.size 2 several,Option.bind_eq_bind,Option.bind_some,if_neg inside]

theorem suffixOf_iff (slice : Slice m s p) (reads : Reads m m' p s.size) (n : Nat) :
    ∃ s', s.suffixOf wrapping m' n = some s' ∧ (s'.bytes m = (s.bytes m).rtake n ↔ SuffixSound m s n) := by
  have some_ := slice.nonempty
  by_cases single : s.size = 1
  · have ordered := slice.ordered single
    have bytes : s.bytes m = part p s.i0 s.iN := by rw [slice.bytes,single,bytesFrom]
    refine ⟨_,suffixOf_single wrapping_exact slice single n,iff_of_true ?_ (.inl (by omega))⟩
    by_cases inside : n ≤ s.iN - s.i0
    · rw [if_pos inside,make_bytes,bytesFrom,bytes,part_rtake (by omega)]
    · rw [if_neg inside,make_bytes,bytesFrom,bytes,List.rtake,part_length,Nat.sub_eq_zero_of_le (by omega),List.drop_zero]
  · rw [suffixOf_several wrapping_exact slice (by omega) n]
    by_cases inside : n ≤ s.iN
    · refine ⟨.make (some (p + s.size - 1)) 1 (s.iN - n) s.iN,if_pos inside,iff_of_true ?_ (.inr (.inl inside))⟩
      rw [make_bytes,bytesFrom,slice.bytes,bytesFrom_split (i := s.size - 1) (by omega) (by omega),
        show s.size - (s.size - 1) = 1 by omega,bytesFrom,rtake_append_of_le (by rw [part_length]; exact inside),
        part_rtake (by omega),show p + (s.size - 1) = p + s.size - 1 by omega]
    · have sound : SuffixSound m s n ↔ WalkSound m s p (s.size - 2) (n - s.iN) := by
        constructor
        · rintro (few | fits | ⟨q,same,sound⟩)
          · omega
          · exact absurd fits inside
          · obtain rfl : p = q := Option.some.inj (slice.pointer.symm.trans same)
            exact sound
        · exact fun sound => .inr (.inr ⟨p,slice.pointer,sound⟩)
      rw [if_neg inside,sound,← walked_eq slice (by omega) (Nat.le_of_not_le inside)]
      by_cases good : WalkSound m s p (s.size - 2) (n - s.iN)
      · obtain ⟨s',found,bytes⟩ := walk_spec wrapping_exact slice reads (by omega) good
        exact ⟨s',found,iff_of_true bytes good⟩
      · obtain ⟨s',found,_⟩ := walk_covers slice reads (i := s.size - 2) (by omega) (n - s.iN)
        exact ⟨s',found,iff_of_false (walk_unsound slice reads (by omega) good found) good⟩

/-! ### The number of bytes -/

theorem addSizes_spec {q count e : Nat} (reads : Reads m m' q count) :
    ∃ size, addSizes m' q count e = some size ∧
      size % 2 ^ 64 = (e + (full m count q 0).length) % 2 ^ 64 := by
  induction count generalizing q e with
  | zero => exact ⟨e,rfl,by simp [full,bytesFrom]⟩
  | succ count ih =>
    obtain ⟨b,at_q,size⟩ := reads 0 (by omega)
    rw [Nat.add_zero] at at_q size
    have later : Reads m m' (q + 1) count := fun i inside => by
      have := reads (i + 1) (by omega)
      rwa [show q + (i + 1) = q + 1 + i by omega] at this
    obtain ⟨total,sum,same⟩ := ih (e := (e + b.size) % 2 ^ 64) later
    refine ⟨total,by simp only [addSizes,at_q,Option.bind_eq_bind,Option.bind_some]; exact sum,?_⟩
    rw [same,full_succ,List.length_append,part_length,← size,Nat.sub_zero,Nat.mod_add_mod,Nat.add_assoc]

/-- `buffer_size` is the number of bytes, as far as a `size_t` can hold it. -/
theorem bufferSize_spec (exact : Exact sub) (slice : Slice m s p) (reads : Reads m m' p s.size) :
    s.bufferSize sub m' = some ((s.bytes m).length % 2 ^ 64) := by
  have some_ := slice.nonempty
  have ends := slice.ends
  have short := slice.sizes (s.size - 1) (by omega)
  rw [show p + (s.size - 1) = p + s.size - 1 by omega] at short
  by_cases single : s.size = 1
  · have ordered := slice.ordered single
    rw [slice.bytes,single,bytesFrom,part_length,Nat.mod_eq_of_lt (by omega)]
    simp [Subspan.bufferSize,single,exact _ _ ordered]
  · obtain ⟨b,at_p,size⟩ := reads 0 some_
    rw [Nat.add_zero] at at_p size
    have later : Reads m m' (p + 1) (s.size - 2) := fun i inside => by
      have := reads (i + 1) (by omega)
      rwa [show p + (i + 1) = p + 1 + i by omega] at this
    obtain ⟨total,sum,same⟩ := addSizes_spec (e := b.size - s.i0) later
    have length : (s.bytes m).length = b.size - s.i0 + (full m (s.size - 2) (p + 1) 0).length + s.iN := by
      obtain ⟨k,is⟩ : ∃ k, s.size = k + 2 := ⟨s.size - 2,by omega⟩
      rw [slice.bytes,bytesFrom_split (i := s.size - 1) (by omega) (by omega),show s.size - (s.size - 1) = 1 by omega,
        bytesFrom,List.length_append,part_length,Nat.sub_zero,is,show k + 2 - 1 = k + 1 by omega,full_succ,
        List.length_append,part_length,size,show k + 2 - 2 = k by omega]
    have starts : s.i0 ≤ b.size := size ▸ slice.starts
    simp only [Subspan.bufferSize,if_neg (show s.size ≠ 0 by omega),if_neg single,slice.pointer,at_p,exact _ _ starts,
      exact s.size 2 (by omega),sum,Option.bind_eq_bind,Option.bind_some,length]
    rw [Nat.add_mod,same,← Nat.add_mod]
    rfl

/-- `suffix` denotes the last `n` bytes and reads only buffers of the slice; and so does
    every `without_prefix` that leaves `n` bytes by its own count: it denotes the bytes
    without the first ones. -/
structure Suffixes (m : Memory) (s : Subspan) (n : Nat) : Prop where
  last : ∃ s', s.suffixOf wrapping (s.own m) n = some s' ∧ s'.bytes m = (s.bytes m).rtake n
  without : ∀ d size, s.bufferSize wrapping (s.own m) = some size → (if d ≤ size then size - d else 0) = n →
    ∃ s', withoutPrefix wrapping (s.own m) s d = some s' ∧ s'.bytes m = (s.bytes m).drop d

theorem withoutPrefix_eq {size d : Nat} (counted : s.bufferSize wrapping m' = some size) :
    withoutPrefix wrapping m' s d = s.suffixOf wrapping m' (if d ≤ size then size - d else 0) := by
  simp only [withoutPrefix,counted,Option.bind_eq_bind,Option.bind_some]
  by_cases inside : d ≤ size
  · simp only [if_pos inside,wrapping_exact _ _ inside,Option.bind_some]
  · simp only [if_neg inside]
    rfl

theorem bytes_of_empty (none : s.size = 0) : s.bytes m = [] := by
  unfold Subspan.bytes
  split
  · rw [none]
    rfl
  · rfl

/-- `suffix` denotes the last bytes, and `without_prefix` the bytes without the first ones,
    if and only if the walk is sound and the number of all bytes is a `size_t`, or at least
    no call of `without_prefix` arrives there. -/
theorem suffixes_iff (valid : Valid m s) :
    Suffixes m s n ↔ SuffixSound m s n ∧ ((s.bytes m).length < 2 ^ 64 ∨ (s.bytes m).length % 2 ^ 64 < n) := by
  rcases valid with none | ⟨p,slice⟩
  · have counted : s.bufferSize wrapping (s.own m) = some 0 := by simp [Subspan.bufferSize,none]
    have same : ∀ k, s.suffixOf wrapping (s.own m) k = some s := fun k => by simp [Subspan.suffixOf,none]
    rw [bytes_of_empty none]
    refine iff_of_true ⟨⟨s,same n,?_⟩,fun d size _ _ => ⟨s,?_,?_⟩⟩ ⟨.inl (by omega),.inl (by simp)⟩
    · rw [bytes_of_empty none]
      simp [List.rtake]
    · rw [withoutPrefix_eq counted,same]
    · rw [bytes_of_empty none,List.drop_nil]
  obtain ⟨t,found,sound⟩ := suffixOf_iff slice slice.reads_own n
  have counted := bufferSize_spec wrapping_exact slice slice.reads_own
  rw [← sound]
  constructor
  · rintro ⟨⟨t',same,bytes⟩,without⟩
    obtain rfl : t = t' := Option.some.inj (found.symm.trans same)
    refine ⟨bytes,?_⟩
    by_contra fails
    rw [not_or,Nat.not_lt,Nat.not_lt] at fails
    -- the call that leaves `n` bytes of those that were counted
    obtain ⟨t',same,drops⟩ := without ((s.bytes m).length % 2 ^ 64 - n) _ counted (by rw [if_pos (by omega)]; omega)
    rw [withoutPrefix_eq counted,if_pos (by omega),show (s.bytes m).length % 2 ^ 64 - ((s.bytes m).length % 2 ^ 64 - n) = n
      by omega,found] at same
    obtain rfl := Option.some.inj same
    have lengths := congrArg List.length (bytes.symm.trans drops)
    have less := Nat.mod_lt (s.bytes m).length (show 0 < 2 ^ 64 by decide)
    rw [rtake_length,List.length_drop] at lengths
    omega
  · rintro ⟨bytes,fits⟩
    refine ⟨⟨t,found,bytes⟩,fun d size same rest => ⟨t,?_,?_⟩⟩
    · rw [withoutPrefix_eq same,rest,found]
    · obtain rfl := Option.some.inj (counted.symm.trans same)
      have all : (s.bytes m).length < 2 ^ 64 := by
        refine fits.resolve_right fun beyond => ?_
        split at rest <;> omega
      rw [bytes,← rest,Nat.mod_eq_of_lt all]
      split
      · rw [List.rtake]
        congr 1
        omega
      · rw [List.rtake,Nat.sub_zero,List.drop_length,List.drop_of_length_le (by omega)]

/-- The last three bytes of three buffers of two bytes, and all bytes but the first three. -/
theorem suffixes_three : Suffixes (array [2,2,2]) ⟨some 0,3,0,2⟩ 3 :=
  (suffixes_iff (.inr ⟨0,rfl,by decide,by decide,by decide,by decide,by decide,by decide,by decide⟩)).mpr
    ⟨.inr (.inr ⟨0,rfl,by simp [WalkSound,array,Memory.sizeAt]⟩),.inl (by decide)⟩

/-- Buffers of two, one and one bytes: for the last two bytes, the walk stops at the buffer in
    the middle, takes it for one of two bytes, and lets the last one end at its second byte. -/
theorem suffix_takes_first_length : Valid (array [2,1,1]) ⟨some 0,3,0,1⟩ ∧ ¬ Suffixes (array [2,1,1]) ⟨some 0,3,0,1⟩ 2 := by
  refine ⟨.inr ⟨0,rfl,by decide,by decide,by decide,by decide,by decide,by decide,by decide⟩,?_⟩
  rintro ⟨⟨s',found,bytes⟩,_⟩
  cases found
  exact absurd bytes (by decide)

/-! ### Iteration -/

/-- The iterators read only buffers of the slice, what they are dereferenced to has the
    bytes that the slice denotes, and `buffer_size` counts them. -/
def Iterates (m : Memory) (s : Subspan) : Prop :=
  ∃ bs, s.elements wrapping (s.own m) = some bs ∧ bs.flatMap bufferBytes = (s.bytes m).map (address m) ∧
    s.bufferSize wrapping (s.own m) = some (s.bytes m).length

/-- The last buffer is asked for at the largest index there is. -/
theorem deref_last (slice : Slice m s p) : s.deref wrapping (s.own m) (s.size - 1) = none := by
  have some_ := slice.nonempty
  have bounded := slice.bounded
  have outside : s.own m (p + (2 ^ 64 - 1)) = none := by
    simp only [Subspan.own,slice.pointer,Memory.only]
    rw [if_neg (by omega)]
  simp only [Subspan.deref,slice.pointer,wrapping_exact s.size 1 (by omega),Option.bind_eq_bind,Option.bind_some,
    if_pos (Nat.le_refl _),outside,Option.bind_none]

theorem mapM_some {α β : Type} {f : α → Option β} {l : List α} {r : List β} (all : l.mapM f = some r) :
    ∀ x ∈ l, f x ≠ none := by
  induction l generalizing r with
  | nil => exact nofun
  | cons x l ih =>
    simp only [List.mapM_cons,Option.bind_eq_bind,Option.bind_eq_some_iff] at all
    obtain ⟨y,first,rest,others,_⟩ := all
    intro z member
    rcases List.mem_cons.mp member with rfl | later
    · simp [first]
    · exact ih others z later

/-- The iterators of a slice read only its buffers if and only if it has none. -/
theorem iterates_iff (valid : Valid m s) : Iterates m s ↔ s.size = 0 := by
  rcases valid with none | ⟨p,slice⟩
  · refine iff_of_true ⟨[],by simp [Subspan.elements,none],?_,?_⟩ none
    · rw [bytes_of_empty none]
      rfl
    · rw [bytes_of_empty none]
      simp [Subspan.bufferSize,none]
  · have some_ := slice.nonempty
    refine iff_of_false ?_ (by omega)
    rintro ⟨bs,all,_⟩
    exact mapM_some all (s.size - 1) (List.mem_range.mpr (by omega)) (deref_last slice)

/-- There is nothing to read in the slice of an empty span. -/
theorem iterates_empty : Iterates (array []) ⟨some 0,0,0,0⟩ := (iterates_iff (.inl rfl)).mpr rfl

/-- The only buffer of a slice is not what its iterator reads. -/
theorem iterator_reads_outside : Valid (array [2]) ⟨some 0,1,0,2⟩ ∧ ¬ Iterates (array [2]) ⟨some 0,1,0,2⟩ := by
  refine ⟨.inr ⟨0,rfl,by decide,by decide,by decide,by decide,by decide,by decide,by decide⟩,?_⟩
  rintro ⟨bs,all,_⟩
  have one : Subspan.elements wrapping (Subspan.own (array [2]) ⟨some 0,1,0,2⟩) ⟨some 0,1,0,2⟩ = none := by decide
  rw [one] at all
  cases all

end SendersIo.Subspans
