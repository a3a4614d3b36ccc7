import Mathlib.Algebra.BigOperators.Group.List.Basic
import Mathlib.Algebra.Ring.Nat

/-!
The buffers of a transfer, `mutable_buffer` and `const_buffer`, and the cursor
`buffer_span` that a transfer advances, over one buffer or over a span of them.
-/
namespace SendersIo.Buffers

/-- A buffer: the address of its first byte and the number of its bytes. -/
structure Buffer where
  data : Nat
  size : Nat
  deriving DecidableEq

/-- `operator+=`. -/
def Buffer.advance (b : Buffer) (n : Nat) : Buffer :=
  if b.size ≤ n then ⟨b.data + b.size,0⟩ else ⟨b.data + n,b.size - n⟩

@[simp] theorem advance_size (b : Buffer) (n : Nat) : (b.advance n).size = b.size - n := by
  unfold Buffer.advance
  split
  · exact (Nat.sub_eq_zero_of_le ‹_›).symm
  · rfl

theorem advance_of_le {b : Buffer} {n : Nat} (fits : n ≤ b.size) : b.advance n = ⟨b.data + n,b.size - n⟩ := by
  unfold Buffer.advance
  split
  · obtain rfl : b.size = n := by omega
    rw [Nat.sub_self]
  · rfl

/-- What `buffered_sequence` transfers: a single buffer or a span of buffers. -/
inductive BufferSequence where
  | single (b : Buffer)
  | span (bs : List Buffer)
  deriving DecidableEq

/-- `empty` of the buffer, or of the span. -/
def BufferSequence.empty : BufferSequence → Bool
  | .single b => b.size = 0
  | .span bs => bs.isEmpty

/-- `buffer_span`: what is left to transfer, and at which offset; -1 stands for
    the current position of the file. -/
structure BufferSpan where
  data : BufferSequence
  offset : BitVec 64
  deriving DecidableEq

/-- The loop of `buffer_span::advance` over a span: the buffers that are left, and
    what is left of the count. -/
def advanceBuffers : List Buffer → Nat → List Buffer × Nat
  | [],n => ([],n)
  | b :: bs,n =>
    if n = 0 then (b :: bs,0)
    else if n < b.size then (b.advance n :: bs,n)
    else advanceBuffers bs (n - b.size)

/-- What `advance` adds to an offset. -/
def advanceOffset (offset : BitVec 64) (n : Nat) : BitVec 64 :=
  if offset = -1 then offset else offset + BitVec.ofNat 64 n

/-- `buffer_span::advance`. Over a span, the offset advances by what its loop has
    left of the count. -/
def BufferSpan.advance (s : BufferSpan) (n : Nat) : BufferSpan :=
  match s.data with
  | .single b => ⟨.single (b.advance n),advanceOffset s.offset n⟩
  | .span bs => ⟨.span (advanceBuffers bs n).1,advanceOffset s.offset (advanceBuffers bs n).2⟩

/-- The number of bytes in the buffers. -/
def total (bs : List Buffer) : Nat := (bs.map (·.size)).sum

/-- By how much the offset advances when the buffers are filled byte by byte: the
    last byte of a buffer does not count. -/
def slack (bs : List Buffer) : Nat := (bs.map (·.size - 1)).sum

/-- The last buffer has a byte. -/
def EndsNonempty (bs : List Buffer) : Prop := ∀ b ∈ bs.getLast?, b.size ≠ 0

instance (bs : List Buffer) : Decidable (EndsNonempty bs) := by
  unfold EndsNonempty; infer_instance

variable {b : Buffer} {bs : List Buffer} {n r : Nat}

@[simp] theorem total_nil : total [] = 0 := rfl

@[simp] theorem total_cons (b : Buffer) (bs : List Buffer) : total (b :: bs) = b.size + total bs := by
  simp [total]

@[simp] theorem slack_nil : slack [] = 0 := rfl

@[simp] theorem slack_cons (b : Buffer) (bs : List Buffer) : slack (b :: bs) = (b.size - 1) + slack bs := by
  simp [slack]

theorem total_take_le (bs : List Buffer) (r : Nat) : total (bs.take r) ≤ total bs := by
  have whole : total bs = total (bs.take r) + total (bs.drop r) := by
    rw [total,total,total,← List.sum_append,← List.map_append,List.take_append_drop]
  omega

theorem endsNonempty_tail (ends : EndsNonempty (b :: bs)) : EndsNonempty bs := by
  cases bs with
  | nil => simp [EndsNonempty]
  | cons c bs => simpa [EndsNonempty] using ends

theorem endsNonempty_cons {c : Buffer} (more : bs ≠ []) : EndsNonempty (b :: bs) ↔ EndsNonempty (c :: bs) := by
  obtain ⟨d,rest,rfl⟩ := List.exists_cons_of_ne_nil more
  simp [EndsNonempty]

theorem total_pos_of_endsNonempty (ends : EndsNonempty bs) (some : bs ≠ []) : 0 < total bs := by
  induction bs with
  | nil => exact absurd rfl some
  | cons b bs ih =>
    rw [total_cons]
    by_cases more : bs = []
    · subst more
      have : b.size ≠ 0 := ends b (by simp)
      omega
    · have := ih (endsNonempty_tail ends) more
      omega

theorem total_advance (bs : List Buffer) (n : Nat) : total (advanceBuffers bs n).1 = total bs - n := by
  induction bs generalizing n with
  | nil => simp [advanceBuffers]
  | cons b bs ih =>
    rw [advanceBuffers]
    split
    · subst_vars; simp
    · split
      · simp only [total_cons,advance_size]; omega
      · rw [ih,total_cons]; omega

theorem count_advance_le (bs : List Buffer) (n : Nat) : (advanceBuffers bs n).2 ≤ n := by
  induction bs generalizing n with
  | nil => simp [advanceBuffers]
  | cons b bs ih =>
    rw [advanceBuffers]
    split
    · simp
    · split
      · simp
      · exact Nat.le_trans (ih _) (Nat.sub_le _ _)

/-- When all buffers are used up, the bytes of all of them were counted. -/
theorem count_of_used_up (none : (advanceBuffers bs n).1 = []) : (advanceBuffers bs n).2 = n - total bs := by
  induction bs generalizing n with
  | nil => rfl
  | cons b bs ih =>
    rw [advanceBuffers] at none ⊢
    split at none
    · cases none
    · next some =>
      rw [if_neg some]
      split at none
      · cases none
      · next outside =>
        rw [if_neg outside,ih none,total_cons]
        omega

theorem length_advance_le (bs : List Buffer) (n : Nat) : (advanceBuffers bs n).1.length ≤ bs.length := by
  induction bs generalizing n with
  | nil => simp [advanceBuffers]
  | cons b bs ih =>
    rw [advanceBuffers]
    split
    · simp
    · split
      · simp
      · exact Nat.le_trans (ih _) (Nat.le_succ _)

theorem endsNonempty_advance (ends : EndsNonempty bs) (n : Nat) : EndsNonempty (advanceBuffers bs n).1 := by
  induction bs generalizing n with
  | nil => exact ends
  | cons b bs ih =>
    rw [advanceBuffers]
    split
    · exact ends
    · split
      · by_cases more : bs = []
        · subst more
          simp only [EndsNonempty,List.getLast?_singleton,Option.mem_some_iff,forall_eq',advance_size]
          omega
        · exact (endsNonempty_cons more).mp ends
      · exact ih (endsNonempty_tail ends) _

/-- The offset never advances past the slack of the buffers. -/
theorem slack_advance_le (left : (advanceBuffers bs n).1 ≠ []) :
    (advanceBuffers bs n).2 + slack (advanceBuffers bs n).1 ≤ slack bs := by
  induction bs generalizing n with
  | nil => exact absurd rfl left
  | cons b bs ih =>
    rw [advanceBuffers] at left ⊢
    split at left
    · simp [*]
    · next some =>
      rw [if_neg some]
      split at left
      · next inside =>
        rw [if_pos inside]
        simp only [slack_cons,advance_size]
        omega
      · next outside =>
        rw [if_neg outside,slack_cons]
        have := ih left
        omega

/-! ### One byte -/

theorem advance_zero (bs : List Buffer) : advanceBuffers bs 0 = (bs,0) := by
  cases bs <;> simp [advanceBuffers]

/-- A single byte uses up exactly its share of the slack. -/
theorem slack_advance_one (bytes : 0 < total bs) :
    (advanceBuffers bs 1).2 + slack (advanceBuffers bs 1).1 = slack bs := by
  induction bs with
  | nil => simp at bytes
  | cons b bs ih =>
    rw [total_cons] at bytes
    rw [advanceBuffers,if_neg Nat.one_ne_zero,slack_cons]
    split
    · simp only [slack_cons,advance_size]; omega
    · by_cases none : b.size = 0
      · rw [none,Nat.sub_zero,ih (by omega)]; omega
      · rw [show 1 - b.size = 0 by omega,advance_zero]
        simp only
        omega

theorem endsEmpty_advance_one (bytes : 0 < total bs) (ends : ¬ EndsNonempty bs) :
    ¬ EndsNonempty (advanceBuffers bs 1).1 := by
  induction bs with
  | nil => simp at bytes
  | cons b bs ih =>
    rw [total_cons] at bytes
    have more : b.size ≠ 0 → bs ≠ [] := by
      rintro some rfl
      exact ends (by simpa [EndsNonempty] using some)
    rw [advanceBuffers,if_neg Nat.one_ne_zero]
    split
    · exact fun later => ends ((endsNonempty_cons (more (by omega))).mpr later)
    · by_cases none : b.size = 0
      · have some : bs ≠ [] := by rintro rfl; simp [none] at bytes
        rw [none,Nat.sub_zero]
        refine ih (by omega) fun later => ends ?_
        obtain ⟨c,rest,rfl⟩ := List.exists_cons_of_ne_nil some
        simpa [EndsNonempty] using later
      · rw [show 1 - b.size = 0 by omega,advance_zero]
        obtain ⟨c,rest,rfl⟩ := List.exists_cons_of_ne_nil (more none)
        simpa [EndsNonempty] using ends

/-- A byte of the first buffers drops no other buffer. -/
theorem length_advance_one (bytes : 0 < total (bs.take r)) : bs.length ≤ (advanceBuffers bs 1).1.length + r := by
  induction bs generalizing r with
  | nil => simp
  | cons b bs ih =>
    cases r with
    | zero => simp at bytes
    | succ r =>
      rw [List.take_succ_cons,total_cons] at bytes
      rw [advanceBuffers,if_neg Nat.one_ne_zero]
      split
      · simp only [List.length_cons]; omega
      · by_cases none : b.size = 0
        · rw [none,Nat.sub_zero,List.length_cons]
          have := ih (r := r) (by omega)
          omega
        · rw [show 1 - b.size = 0 by omega,advance_zero]
          simp only [List.length_cons]
          omega

end SendersIo.Buffers
