import SendersIo.BufferedSequence

/-!
Where a transfer goes on. The cursor of a transfer loses the bytes that were
transferred, and its offset should advance by their number. Over a single buffer it
does; over a span of buffers the loop uses up the count that is then added to the
offset, so that it does only up to the end of the first buffer that has a byte.
-/
namespace SendersIo.BufferCursor
open SendersIo.Buffers SendersIo.FileHandle SendersIo.BufferedSequence

/-- The addresses of the bytes of the buffers. -/
def addresses (bs : List Buffer) : List Nat := bs.flatMap fun b => List.range' b.data b.size

/-- The addresses of the bytes that are left to transfer. -/
def bytes : BufferSequence → List Nat
  | .single b => List.range' b.data b.size
  | .span bs => addresses bs

/-- The size of the first buffer that has a byte. -/
def firstSize : List Buffer → Nat
  | [] => 0
  | b :: bs => if b.size = 0 then firstSize bs else b.size

/-- The cursor after a sequence of calls of `advance`. -/
def cursor (s : BufferSpan) (counts : List Nat) : BufferSpan := counts.foldl BufferSpan.advance s

/-- The cursor has what is left without the first `n` bytes, and its offset belongs to the
    first one of the others. -/
structure Follows (data : BufferSequence) (offset : BitVec 64) (n : Nat) (s : BufferSpan) : Prop where
  bytes : bytes s.data = (bytes data).drop n
  offset : s.offset.toInt = offset.toInt + n

/-- The number of bytes of the answers. -/
def transferred (answers : List Answer) : Nat := (answers.map (·.count)).sum

/-- A sequence with any factory, started. -/
def begin (factory : BufferSequence → BitVec 64 → Sqe) (data : BufferSequence) (offset : BitVec 64) (w : World) : Transfer :=
  ⟨bufferedSequence factory data offset,w⟩

/-- The kernel never transfers more than a request asks for. -/
def Allowed : Transfer → List Answer → Prop
  | _,[] => True
  | t,a :: answers => (∀ sqe ∈ t.op.nextOp, a.count ≤ sqe.length) ∧ Allowed (t.item a) answers

/-- The cursor follows the transfer, and so does every request of the sequence, whatever its
    factory. -/
structure Tracks (data : BufferSequence) (offset : BitVec 64) (answers : List Answer) : Prop where
  follows : Follows data offset (transferred answers) (cursor ⟨data,offset⟩ (answers.map (·.count)))
  requests : ∀ factory w j sqe, (answers.foldl Transfer.item (begin factory data offset w)).op.requests[j]? = some sqe →
    ∃ s, sqe = factory s.data s.offset ∧ Follows data offset (transferred (answers.take j)) s

/-- What the loop of `advance` adds to the offset for a sequence of counts. -/
def counted : List Buffer → List Nat → Nat
  | _,[] => 0
  | bs,n :: ns => (advanceBuffers bs n).2 + counted (advanceBuffers bs n).1 ns

variable {b : Buffer} {bs : List Buffer} {n k : Nat} {ns : List Nat} {offset : BitVec 64} {data : BufferSequence}
  {answers : List Answer} {s : BufferSpan} {t : Transfer}

/-! ### The bytes -/

theorem range_advance (b : Buffer) (n : Nat) :
    List.range' (b.advance n).data (b.advance n).size = (List.range' b.data b.size).drop n := by
  by_cases fits : n ≤ b.size
  · rw [advance_of_le fits,List.drop_range',Nat.mul_one]
  · have none : (b.advance n).size = 0 := by rw [advance_size]; omega
    rw [none,List.range'_zero,List.drop_eq_nil_of_le (by rw [List.length_range']; omega)]

theorem addresses_advance (bs : List Buffer) (n : Nat) :
    addresses (advanceBuffers bs n).1 = (addresses bs).drop n := by
  induction bs generalizing n with
  | nil => simp [advanceBuffers,addresses]
  | cons b bs ih =>
    have cons : ∀ c : Buffer, addresses (c :: bs) = List.range' c.data c.size ++ addresses bs := fun c => by simp [addresses]
    rw [advanceBuffers]
    split
    · subst_vars
      simp
    · split
      · next inside =>
        rw [cons,cons,range_advance,List.drop_append_of_le_length (by rw [List.length_range']; omega)]
      · next outside =>
        have used : (List.range' b.data b.size).drop n = [] := List.drop_eq_nil_of_le (by rw [List.length_range']; omega)
        rw [ih,cons,List.drop_append,used,List.length_range',List.nil_append]

theorem bytes_advance (s : BufferSpan) (n : Nat) : bytes (s.advance n).data = (bytes s.data).drop n := by
  obtain ⟨data,offset⟩ := s
  cases data with
  | single b => exact range_advance b n
  | span bs => exact addresses_advance bs n

/-- The cursor always has the right bytes left. -/
theorem bytes_cursor (s : BufferSpan) (ns : List Nat) : bytes (cursor s ns).data = (bytes s.data).drop ns.sum := by
  induction ns generalizing s with
  | nil => rfl
  | cons n ns ih => rw [cursor,List.foldl_cons,← cursor,ih,bytes_advance,List.drop_drop,List.sum_cons]

/-! ### The offset -/

/-- Within the first buffer that has a byte, the whole count is added to the offset, and
    beyond it less than that. -/
theorem advance_first (more : 0 < n) (within : n ≤ total bs) :
    if n < firstSize bs then (advanceBuffers bs n).2 = n ∧ firstSize (advanceBuffers bs n).1 = firstSize bs - n
    else (advanceBuffers bs n).2 < n := by
  induction bs with
  | nil =>
    rw [total_nil] at within
    omega
  | cons b bs ih =>
    rw [total_cons] at within
    rw [advanceBuffers,if_neg (show n ≠ 0 by omega),firstSize]
    by_cases none : b.size = 0
    · rw [none,if_pos rfl,if_neg (Nat.not_lt_zero n),Nat.sub_zero]
      exact ih (by omega)
    · rw [if_neg none]
      by_cases inside : n < b.size
      · simp only [if_pos inside,firstSize,advance_size,if_neg (show b.size - n ≠ 0 by omega),and_self]
      · rw [if_neg inside,if_neg inside]
        have := count_advance_le bs (n - b.size)
        omega

theorem counted_le (bs : List Buffer) (ns : List Nat) : counted bs ns ≤ ns.sum := by
  induction ns generalizing bs with
  | nil => exact Nat.le_refl 0
  | cons n ns ih =>
    rw [counted,List.sum_cons]
    exact Nat.add_le_add (count_advance_le bs n) (ih _)

/-- All counts are added if and only if the transfer has not reached the end of the first
    buffer that has a byte. -/
theorem counted_eq_iff (within : ns.sum ≤ total bs) : counted bs ns = ns.sum ↔ ns.sum = 0 ∨ ns.sum < firstSize bs := by
  induction ns generalizing bs with
  | nil => simp [counted]
  | cons n ns ih =>
    rw [List.sum_cons] at within ⊢
    rw [counted]
    have rest := total_advance bs n
    have later : counted (advanceBuffers bs n).1 ns = ns.sum ↔ ns.sum = 0 ∨ ns.sum < firstSize (advanceBuffers bs n).1 :=
      ih (by omega)
    have least := count_advance_le bs n
    have last := counted_le (advanceBuffers bs n).1 ns
    rcases Nat.eq_zero_or_pos n with none | more
    · subst none
      rw [advance_zero] at later ⊢
      simpa using later
    · have first := advance_first more (show n ≤ total bs by omega)
      split at first
      · obtain ⟨count,left⟩ := first
        rw [left] at later
        omega
      · omega

theorem toInt_of_lt (small : offset.toNat < 2 ^ 63) : offset.toInt = offset.toNat := by
  rw [BitVec.toInt_eq_toNat_cond,if_pos (by omega)]

theorem toNat_lt (positive : 0 ≤ offset.toInt) : offset.toNat < 2 ^ 63 := by
  rw [BitVec.toInt_eq_toNat_cond] at positive
  split at positive <;> omega

theorem cursor_offset (within : offset.toNat + ns.sum < 2 ^ 63) :
    (cursor ⟨.span bs,offset⟩ ns).offset.toNat = offset.toNat + counted bs ns := by
  induction ns generalizing bs offset with
  | nil => rfl
  | cons n ns ih =>
    rw [List.sum_cons] at within
    have less := count_advance_le bs n
    have some : offset ≠ -1 := ne_current_of_lt (by omega)
    have next := advanceOffset_toNat (n := (advanceBuffers bs n).2) some (by omega)
    change (cursor ⟨.span (advanceBuffers bs n).1,advanceOffset offset (advanceBuffers bs n).2⟩ ns).offset.toNat = _
    rw [ih (by omega),next,counted,Nat.add_assoc]

theorem cursor_offset_single (within : offset.toNat + ns.sum < 2 ^ 63) :
    (cursor ⟨.single b,offset⟩ ns).offset.toNat = offset.toNat + ns.sum := by
  induction ns generalizing b offset with
  | nil => rfl
  | cons n ns ih =>
    rw [List.sum_cons] at within
    have some : offset ≠ -1 := ne_current_of_lt (by omega)
    have next := advanceOffset_toNat (n := n) some (by omega)
    change (cursor ⟨.single (b.advance n),advanceOffset offset n⟩ ns).offset.toNat = _
    rw [ih (by omega),next,List.sum_cons,Nat.add_assoc]

theorem toInt_lt (offset : BitVec 64) : offset.toInt < 2 ^ 63 := by
  have := BitVec.toInt_lt (x := offset)
  simpa using this

/-- Over a span of buffers, the cursor follows the transfer up to the end of the first buffer
    that has a byte. -/
theorem follows_span_iff (positive : 0 ≤ offset.toInt) (within : ns.sum ≤ total bs) :
    Follows (.span bs) offset ns.sum (cursor ⟨.span bs,offset⟩ ns) ↔
      (ns.sum = 0 ∨ ns.sum < firstSize bs) ∧ offset.toInt + ns.sum < 2 ^ 63 := by
  have start := toInt_of_lt (toNat_lt positive)
  rw [← counted_eq_iff within]
  constructor
  · rintro ⟨_,same⟩
    have bounded := toInt_lt (cursor ⟨.span bs,offset⟩ ns).offset
    have place : (cursor ⟨.span bs,offset⟩ ns).offset.toNat = offset.toNat + counted bs ns := cursor_offset (by omega)
    have less := counted_le bs ns
    have small := toInt_of_lt (show (cursor ⟨.span bs,offset⟩ ns).offset.toNat < 2 ^ 63 by omega)
    omega
  · rintro ⟨all,bounded⟩
    have place : (cursor ⟨.span bs,offset⟩ ns).offset.toNat = offset.toNat + counted bs ns := cursor_offset (by omega)
    exact ⟨bytes_cursor _ ns,by rw [toInt_of_lt (by omega)]; omega⟩

/-- Over a single buffer it always does. -/
theorem follows_single_iff (positive : 0 ≤ offset.toInt) :
    Follows (.single b) offset ns.sum (cursor ⟨.single b,offset⟩ ns) ↔ offset.toInt + ns.sum < 2 ^ 63 := by
  have start := toInt_of_lt (toNat_lt positive)
  constructor
  · rintro ⟨_,same⟩
    have bounded := toInt_lt (cursor ⟨.single b,offset⟩ ns).offset
    omega
  · intro bounded
    have place : (cursor ⟨.single b,offset⟩ ns).offset.toNat = offset.toNat + ns.sum := cursor_offset_single (by omega)
    exact ⟨bytes_cursor _ ns,by rw [toInt_of_lt (by omega)]; omega⟩

/-! ### The requests -/

theorem items_of_done (done : t.op.nextOp = none) (answers : List Answer) : answers.foldl Transfer.item t = t := by
  induction answers with
  | nil => rfl
  | cons a answers ih =>
    have still : t.item a = t := by simp [Transfer.item,done]
    rw [List.foldl_cons,still,ih]

/-- An item submits the request for what is left then, or none. -/
theorem item_requests (going : t.op.nextOp.isSome = true) (a : Answer) :
    (t.item a).op.nextOp = none ∧ (t.item a).op.requests = t.op.requests ∨
    (t.item a).op.nextOp.isSome = true ∧ (t.item a).op.factory = t.op.factory ∧
      (t.item a).op.buffer = t.op.buffer.advance a.count ∧ (t.op.buffer.advance a.count).data.empty = false ∧
      (t.item a).op.requests = t.op.requests ++
        [t.op.factory (t.op.buffer.advance a.count).data (t.op.buffer.advance a.count).offset] := by
  obtain ⟨sqe,next⟩ := Option.isSome_iff_exists.mp going
  by_cases goesOn : a.goesOn
  · simp only [Transfer.item,next,goesOn,if_true,SequenceOp.itemSetValue,SequenceOp.nextSetValue]
    split
    · exact .inl ⟨rfl,rfl⟩
    · next left => exact .inr ⟨rfl,rfl,rfl,by simpa using left,rfl⟩
  · exact .inl (by simp [Transfer.item,next,goesOn,SequenceOp.itemSetValue,SequenceOp.nextSetStopped])

/-- Every later request is one for what the cursor has left. -/
theorem items_requests (going : t.op.nextOp.isSome = true) (answers : List Answer) :
    ∃ later, (answers.foldl Transfer.item t).op.requests = t.op.requests ++ later ∧
      ∀ j sqe, later[j]? = some sqe → ∃ s, s = cursor t.op.buffer ((answers.take (j + 1)).map (·.count)) ∧
        sqe = t.op.factory s.data s.offset ∧ s.data.empty = false := by
  induction answers generalizing t with
  | nil => exact ⟨[],by simp,by simp⟩
  | cons a answers ih =>
    rw [List.foldl_cons]
    rcases item_requests going a with ⟨done,same⟩ | ⟨more,factory,buffer,left,submitted⟩
    · rw [items_of_done done,same]
      exact ⟨[],by simp,by simp⟩
    · obtain ⟨later,requests,rest⟩ := ih more
      refine ⟨_ :: later,by rw [requests,submitted,List.append_assoc,List.singleton_append],?_⟩
      intro j sqe at_j
      cases j with
      | zero =>
        simp only [List.getElem?_cons_zero,Option.some.injEq] at at_j
        exact ⟨_,rfl,by simp [← at_j,cursor],by simpa [cursor] using left⟩
      | succ j =>
        obtain ⟨s,same,request,left⟩ := rest j sqe (by simpa using at_j)
        exact ⟨s,by rw [same,buffer]; simp [cursor],by rw [request,factory],left⟩

/-- Every request is one for what the cursor has left after the items before it, and it has
    something left after the first of them. -/
theorem request_is_cursor {factory : BufferSequence → BitVec 64 → Sqe} {w : World} {j : Nat} {sqe : Sqe}
    (at_j : (answers.foldl Transfer.item (begin factory data offset w)).op.requests[j]? = some sqe) :
    ∃ s, s = cursor ⟨data,offset⟩ ((answers.take j).map (·.count)) ∧ sqe = factory s.data s.offset ∧
      (0 < j → s.data.empty = false) := by
  obtain ⟨later,requests,rest⟩ := items_requests (t := begin factory data offset w) rfl answers
  rw [requests] at at_j
  cases j with
  | zero => exact ⟨⟨data,offset⟩,rfl,(Option.some.inj at_j).symm,by simp⟩
  | succ j =>
    obtain ⟨s,same,request,left⟩ := rest j sqe at_j
    exact ⟨s,same,request,fun _ => left⟩

theorem transferred_take_le (answers : List Answer) (k : Nat) : transferred (answers.take k) ≤ transferred answers := by
  have whole : transferred answers = transferred (answers.take k) + transferred (answers.drop k) := by
    rw [transferred,transferred,transferred,← List.sum_append,← List.map_append,List.take_append_drop]
  omega

/-- Over a span of buffers, the cursor and every request follow the transfer if and only if
    it has not reached the end of the first buffer that has a byte. -/
theorem span_tracks_iff (positive : 0 ≤ offset.toInt) (within : transferred answers ≤ total bs) :
    Tracks (.span bs) offset answers ↔
      (transferred answers = 0 ∨ transferred answers < firstSize bs) ∧ offset.toInt + transferred answers < 2 ^ 63 := by
  constructor
  · exact fun tracks => (follows_span_iff positive within).mp tracks.follows
  · rintro ⟨first,bounded⟩
    refine ⟨(follows_span_iff positive within).mpr ⟨first,bounded⟩,fun factory w j sqe at_j => ?_⟩
    obtain ⟨s,same,request,_⟩ := request_is_cursor at_j
    have less := transferred_take_le answers j
    exact ⟨s,request,same ▸ (follows_span_iff positive (Nat.le_trans less within)).mpr
      ⟨by change transferred _ = 0 ∨ transferred _ < _; omega,by change _ + (transferred _ : Int) < _; omega⟩⟩

/-- A transfer that is in the first of two buffers. -/
theorem span_tracks_inside : Tracks (.span [⟨0,2⟩,⟨8,3⟩]) 4 [⟨1,true,false⟩] :=
  (span_tracks_iff (by decide) (by decide)).mpr (by decide)

/-- After the first of two buffers, the offset is still that of the first one. -/
theorem offset_stays_behind :
    0 ≤ (4 : BitVec 64).toInt ∧ transferred [⟨2,true,false⟩] ≤ total [⟨0,2⟩,⟨8,3⟩] ∧
    ¬ Tracks (.span [⟨0,2⟩,⟨8,3⟩]) 4 [⟨2,true,false⟩] :=
  ⟨by decide,by decide,fun tracks => absurd tracks.follows.offset (by decide)⟩

/-- Over a single buffer, the cursor and every request follow the transfer. -/
theorem single_tracks_iff (positive : 0 ≤ offset.toInt) :
    Tracks (.single b) offset answers ↔ offset.toInt + transferred answers < 2 ^ 63 := by
  constructor
  · exact fun tracks => (follows_single_iff positive).mp tracks.follows
  · intro bounded
    refine ⟨(follows_single_iff positive).mpr bounded,fun factory w j sqe at_j => ?_⟩
    obtain ⟨s,same,request,_⟩ := request_is_cursor at_j
    have less := transferred_take_le answers j
    exact ⟨s,request,same ▸ (follows_single_iff positive).mpr (by change _ + (transferred _ : Int) < _; omega)⟩

end SendersIo.BufferCursor
