import SendersIo.FileHandle
import SendersIo.Schedules
import SendersIo.Signals

/-!
The sequence of the requests that transfer a buffer. Every item is one request for
what is left of the buffer, and the sequence ends when nothing is left. A read
beyond the end of the file transfers nothing, and so does a request of length
zero: whether the sequence ends depends on the buffers, the offset and the file.
-/
namespace SendersIo.BufferedSequence
open SendersIo.Buffers SendersIo.FileHandle SendersIo.Signals SendersIo.Schedules

/-- `sequence_op`: the factory and the cursor, the request of the item operation in
    `next_op_` with all requests so far, and the completion of the receiver. -/
structure SequenceOp where
  factory : BufferSequence → BitVec 64 → Sqe
  buffer : BufferSpan
  nextOp : Option Sqe
  requests : List Sqe
  completion : Option (Signal Empty)

/-- `sequence_op::connect_next`, and the start of the item. -/
def SequenceOp.connectNext (op : SequenceOp) : SequenceOp :=
  let sqe := op.factory op.buffer.data op.buffer.offset
  { op with nextOp := some sqe, requests := op.requests ++ [sqe] }

/-- `item_receiver::set_value`. -/
def SequenceOp.itemSetValue (op : SequenceOp) (n : Nat) : SequenceOp :=
  { op with buffer := op.buffer.advance n }

/-- `next_receiver::set_value`. -/
def SequenceOp.nextSetValue (op : SequenceOp) : SequenceOp :=
  if op.buffer.data.empty then { op with nextOp := none, completion := some (.value ()) } else op.connectNext

/-- `next_receiver::set_stopped`. -/
def SequenceOp.nextSetStopped (op : SequenceOp) (stopRequested : Bool) : SequenceOp :=
  { op with nextOp := none, completion := some (setValueUnlessStopped stopRequested) }

/-- `buffered_sequence`, started. -/
def bufferedSequence (factory : BufferSequence → BitVec 64 → Sqe) (data : BufferSequence) (offset : BitVec 64) :
    SequenceOp :=
  SequenceOp.connectNext ⟨factory,⟨data,offset⟩,none,[],none⟩

/-- A sequence and the kernel. -/
structure Transfer where
  op : SequenceOp
  world : World

/-- The kernel reports a count, and the receiver of the item then goes on, or it
    stops the sequence. -/
structure Answer where
  count : Nat
  goesOn : Bool
  stopRequested : Bool

/-- One item of the sequence. -/
def Transfer.item (t : Transfer) (a : Answer) : Transfer :=
  match t.op.nextOp with
  | none => t
  | some sqe =>
    { world := t.world.transfer sqe a.count
      op :=
        if a.goesOn then (t.op.itemSetValue a.count).nextSetValue
        else (t.op.itemSetValue a.count).nextSetStopped a.stopRequested }

/-- A read transfers nothing if the request has length zero or nothing is left of the
    file; otherwise it transfers at least one byte. -/
def ReadAnswer (t : Transfer) (a : Answer) : Prop :=
  ∀ sqe ∈ t.op.nextOp,
    if sqe.length = 0 ∨ t.world.file.size ≤ t.world.place sqe then a.count = 0
    else 1 ≤ a.count ∧ a.count ≤ sqe.length

/-- Where the next byte is transferred. -/
def place (s : BufferSpan) (position : Nat) : Nat := if s.offset = -1 then position else s.offset.toNat

/-- The buffers that a read can fill: those with no byte to fill, and those whose
    count the request can hold, whose last buffer has a byte, and for which the
    file has enough bytes. Over a span at an offset, that offset does not get past
    the slack of the buffers. -/
def Fills (s : BufferSpan) (position size : Nat) : Prop :=
  match s.data with
  | .single b => b.size = 0 ∨ b.size < 2 ^ 32 ∧ place s position + b.size ≤ size
  | .span bs => bs = [] ∨ bs.length < 2 ^ 32 ∧ EndsNonempty bs ∧
      if s.offset = -1 then position + total bs ≤ size else s.offset.toNat + slack bs < size

instance (s : BufferSpan) (position size : Nat) : Decidable (Fills s position size) := by
  unfold Fills; split <;> infer_instance

/-- The bytes that are left. -/
def bytesLeft : BufferSequence → Nat
  | .single b => b.size
  | .span bs => total bs

/-- The length of the next request. -/
def nextLength : BufferSequence → Nat
  | .single b => b.size % 2 ^ 32
  | .span bs => total (bs.take (bs.length % 2 ^ 32))

variable {s : BufferSpan} {b : Buffer} {bs : List Buffer} {offset : BitVec 64} {position size n : Nat} {t : Transfer}

theorem readFactory_length (data : BufferSequence) (offset : BitVec 64) :
    (readFactory data offset).length = nextLength data := by
  cases data with
  | single b => exact length_single .read b offset
  | span bs => exact length_span .readv bs offset

/-- The position of the file after `n` bytes at an offset were read. -/
def moved (offset : BitVec 64) (position n : Nat) : Nat := if offset = -1 then position + n else position

/-! ### Offsets -/

theorem advanceOffset_current (n : Nat) : advanceOffset (-1) n = -1 := if_pos rfl

theorem advanceOffset_toNat (some : offset ≠ -1) (fits : offset.toNat + n < 2 ^ 63) :
    (advanceOffset offset n).toNat = offset.toNat + n := by
  rw [advanceOffset,if_neg some,BitVec.toNat_add,BitVec.toNat_ofNat]
  omega

theorem ne_current_of_lt (fits : offset.toNat < 2 ^ 63) : offset ≠ -1 := by
  rintro rfl
  simp at fits

theorem advanceOffset_ne (some : offset ≠ -1) (fits : offset.toNat + n < 2 ^ 63) : advanceOffset offset n ≠ -1 :=
  ne_current_of_lt (by rw [advanceOffset_toNat some fits]; exact fits)

/-- An offset in the file and the current position advance alike. -/
theorem place_advance (b : Buffer) (fits : place ⟨.single b,offset⟩ position + n < 2 ^ 63) :
    place ⟨.single (b.advance n),advanceOffset offset n⟩ (moved offset position n) =
      place ⟨.single b,offset⟩ position + n := by
  by_cases current : offset = -1
  · rw [current,advanceOffset_current]
    simp only [place,moved,if_true]
  · simp only [place,if_neg current] at fits ⊢
    rw [if_neg (advanceOffset_ne current fits),advanceOffset_toNat current fits]

/-! ### One item -/

theorem fills_single (small : size < 2 ^ 63) (fills : Fills ⟨.single b,offset⟩ position size) (some : b.size ≠ 0)
    (answered : 0 < b.size % 2 ^ 32 → place ⟨.single b,offset⟩ position < size → 1 ≤ n ∧ n ≤ b.size % 2 ^ 32) :
    Fills ⟨.single (b.advance n),advanceOffset offset n⟩ (moved offset position n) size ∧
    (b.advance n).size < b.size := by
  obtain ⟨short,enough⟩ := fills.resolve_left some
  rw [Nat.mod_eq_of_lt short] at answered
  obtain ⟨least,most⟩ := answered (by omega) (by omega)
  simp only [Fills]
  rw [place_advance b (by omega),advance_size]
  exact ⟨.inr ⟨by omega,by omega⟩,by omega⟩

theorem fills_span (small : size < 2 ^ 63) (fills : Fills ⟨.span bs,offset⟩ position size) (some : bs ≠ [])
    (answered : 0 < total (bs.take (bs.length % 2 ^ 32)) → place ⟨.span bs,offset⟩ position < size →
      1 ≤ n ∧ n ≤ total (bs.take (bs.length % 2 ^ 32))) :
    (advanceBuffers bs n).1 = [] ∨
    Fills ⟨.span (advanceBuffers bs n).1,advanceOffset offset (advanceBuffers bs n).2⟩ (moved offset position n) size ∧
    total (advanceBuffers bs n).1 < total bs := by
  obtain ⟨short,ends,enough⟩ := fills.resolve_left some
  have bytes := total_pos_of_endsNonempty ends some
  rw [Nat.mod_eq_of_lt short,List.take_length] at answered
  simp only at enough
  have before : place ⟨.span bs,offset⟩ position < size := by
    by_cases current : offset = -1
    · simp only [current,if_true,place] at enough ⊢; omega
    · simp only [if_neg current,place] at enough ⊢; omega
  obtain ⟨least,most⟩ := answered bytes before
  by_cases rest : (advanceBuffers bs n).1 = []
  · exact .inl rest
  have length := length_advance_le bs n
  have fewer := total_advance bs n
  refine .inr ⟨.inr ⟨by omega,endsNonempty_advance ends n,?_⟩,by omega⟩
  simp only
  by_cases current : offset = -1
  · rw [if_pos current] at enough
    rw [current,advanceOffset_current,if_pos rfl,moved,if_pos rfl]
    omega
  · rw [if_neg current] at enough
    have within := slack_advance_le rest
    have fits : offset.toNat + (advanceBuffers bs n).2 < 2 ^ 63 := by omega
    rw [if_neg (advanceOffset_ne current fits),advanceOffset_toNat current fits]
    omega

/-- A read that can fill its buffers gets on with every answer. -/
theorem fills_advance (small : size < 2 ^ 63) (fills : Fills s position size) (left : s.data.empty = false)
    (answered : 0 < nextLength s.data → place s position < size → 1 ≤ n ∧ n ≤ nextLength s.data) :
    (s.advance n).data.empty = true ∨
    Fills (s.advance n) (moved s.offset position n) size ∧ bytesLeft (s.advance n).data < bytesLeft s.data := by
  obtain ⟨data,offset⟩ := s
  cases data with
  | single b => exact .inr (fills_single small fills (by simpa [BufferSequence.empty] using left) answered)
  | span bs =>
    refine (fills_span small fills (by simpa [BufferSequence.empty] using left) answered).imp_left ?_
    intro empty
    simp [BufferSpan.advance,BufferSequence.empty,empty]

/-- The count of a kernel that transfers a single byte, if it may transfer any. -/
def byteByByte (s : BufferSpan) (position size : Nat) : Nat :=
  if 0 < nextLength s.data ∧ place s position < size then 1 else 0

/-- A count of zero changes nothing. -/
theorem advance_none (s : BufferSpan) : s.advance 0 = s := by
  obtain ⟨data,offset⟩ := s
  cases data with
  | single b => simp [BufferSpan.advance,advance_of_le,advanceOffset]
  | span bs => simp [BufferSpan.advance,advance_zero,advanceOffset]

theorem not_empty_of_not_fills (endless : ¬ Fills s position size) : s.data.empty = false := by
  obtain ⟨data,offset⟩ := s
  cases data with
  | single b => simpa [BufferSequence.empty] using (not_or.mp endless).1
  | span bs => simpa [BufferSequence.empty] using (not_or.mp endless).1

theorem not_fills_single (small : size < 2 ^ 63) (endless : ¬ Fills ⟨.single b,offset⟩ position size)
    (bytes : 0 < b.size % 2 ^ 32) (inside : place ⟨.single b,offset⟩ position < size) :
    ¬ Fills ⟨.single (b.advance 1),advanceOffset offset 1⟩ (moved offset position 1) size := by
  simp only [Fills,not_or,not_and] at endless ⊢
  rw [place_advance b (by omega),advance_size]
  have single : b.size ≠ 1 := by
    intro one
    have := endless.2 (by omega)
    omega
  refine ⟨by omega,fun short => ?_⟩
  have := endless.2 (by omega)
  omega

theorem not_fills_span (small : size < 2 ^ 63) (endless : ¬ Fills ⟨.span bs,offset⟩ position size)
    (bytes : 0 < total (bs.take (bs.length % 2 ^ 32))) (inside : place ⟨.span bs,offset⟩ position < size) :
    ¬ Fills ⟨.span (advanceBuffers bs 1).1,advanceOffset offset (advanceBuffers bs 1).2⟩
      (moved offset position 1) size := by
  obtain ⟨some,long⟩ := not_or.mp endless
  have all : 0 < total bs :=
    Nat.lt_of_lt_of_le bytes (total_take_le bs _)
  have length := length_advance_one bytes
  have fewer := total_advance bs 1
  have slackness := slack_advance_one all
  have count := count_advance_le bs 1
  refine not_or.mpr ?_
  simp only
  by_cases many : bs.length < 2 ^ 32
  · by_cases ends : EndsNonempty bs
    · have short := fun enough => long ⟨many,ends,enough⟩
      by_cases current : offset = -1
      · simp only [current,if_true,place,advanceOffset_current,moved] at short inside ⊢
        refine ⟨fun empty => ?_,fun later => short ?_⟩
        · rw [empty,total_nil] at fewer
          exact short (by omega)
        · omega
      · simp only [if_neg current,place] at short inside
        have fits : offset.toNat + (advanceBuffers bs 1).2 < 2 ^ 63 := by omega
        rw [if_neg (advanceOffset_ne current fits),advanceOffset_toNat current fits]
        refine ⟨fun empty => short ?_,fun later => short ?_⟩
        · have used := count_of_used_up empty
          rw [empty,slack_nil] at slackness
          omega
        · omega
    · have ends' := endsEmpty_advance_one all ends
      refine ⟨fun empty => ends' ?_,fun later => ends' later.2.1⟩
      rw [empty]
      simp [EndsNonempty]
  · refine ⟨fun empty => ?_,fun later => ?_⟩
    · rw [empty,List.length_nil] at length
      omega
    · omega

/-- A read that cannot fill its buffers does not get there byte by byte. -/
theorem not_fills_advance (small : size < 2 ^ 63) (endless : ¬ Fills s position size)
    (one : n = byteByByte s position size) : ¬ Fills (s.advance n) (moved s.offset position n) size := by
  unfold byteByByte at one
  split at one
  · next going =>
    obtain ⟨data,offset⟩ := s
    subst one
    cases data with
    | single b => exact not_fills_single small endless going.1 going.2
    | span bs => exact not_fills_span small endless going.1 going.2
  · have still : moved s.offset position 0 = position := by simp [moved]
    rw [one,advance_none,still]
    exact endless

/-! ### Runs -/

/-- The request that a sequence has submitted is the one for what is left. -/
structure Reading (t : Transfer) : Prop where
  factory : t.op.factory = readFactory
  next : t.op.nextOp = some (readFactory t.op.buffer.data t.op.buffer.offset)
  open_ : t.op.completion = none

theorem place_readFactory (w : World) (s : BufferSpan) : w.place (readFactory s.data s.offset) = place s w.position := by
  simp only [World.place,place,readFactory_off]

/-- What an item of a read does to the sequence and to the file. -/
theorem item_reading {a : Answer} (reading : Reading t) (goesOn : a.goesOn = true) :
    (t.item a).world.file = t.world.file ∧
    (t.item a).world.position = moved t.op.buffer.offset t.world.position a.count ∧
    (t.item a).op.buffer = t.op.buffer.advance a.count ∧
    if (t.op.buffer.advance a.count).data.empty then (t.item a).op.completion = some (.value ()) else Reading (t.item a) := by
  have kernel := transfer_read t.world t.op.buffer.data t.op.buffer.offset a.count
  simp only [Transfer.item,reading.next,goesOn,if_true,SequenceOp.itemSetValue,SequenceOp.nextSetValue]
  refine ⟨kernel.1,kernel.2,?_,?_⟩
  · split <;> rfl
  · split
    · next done => simp
    · next more => exact ⟨reading.factory,by simp [SequenceOp.connectNext,reading.factory],reading.open_⟩

theorem nextLength_of_empty {data : BufferSequence} (empty : data.empty = true) : nextLength data = 0 := by
  cases data with
  | single b =>
    have none : b.size = 0 := by simpa [BufferSequence.empty] using empty
    simp [nextLength,none]
  | span bs =>
    have none : bs = [] := by simpa [BufferSequence.empty] using empty
    simp [nextLength,none]

/-- The counts that a read may report, in terms of what is left to read. -/
theorem readAnswer_iff {a : Answer} (reading : Reading t) :
    ReadAnswer t a ↔
      if 0 < nextLength t.op.buffer.data ∧ place t.op.buffer t.world.position < t.world.file.size then
        1 ≤ a.count ∧ a.count ≤ nextLength t.op.buffer.data
      else a.count = 0 := by
  simp only [ReadAnswer,reading.next,Option.mem_some_iff,forall_eq',readFactory_length,place_readFactory]
  by_cases none : nextLength t.op.buffer.data = 0 ∨ t.world.file.size ≤ place t.op.buffer t.world.position
  · rw [if_pos none,if_neg (by omega)]
  · rw [if_neg none,if_pos (by omega)]

/-- A read of the given buffers has been started. -/
def start (data : BufferSequence) (offset : BitVec 64) (w : World) : Transfer :=
  ⟨bufferedSequence readFactory data offset,w⟩

theorem start_reading (data : BufferSequence) (offset : BitVec 64) (w : World) : Reading (start data offset w) :=
  ⟨rfl,rfl,rfl⟩

section
variable {data : BufferSequence} {w : World}

theorem ends_of_fills (small : w.file.size < 2 ^ 63) (fills : Fills ⟨data,offset⟩ w.position w.file.size)
    {schedule : Nat → Answer} (answers : Answers Transfer.item ReadAnswer schedule (start data offset w)) :
    ∃ k, (run Transfer.item schedule (start data offset w) k).op.completion.isSome := by
  refine run_finishes (fun t => Reading t ∧ t.world.file.size < 2 ^ 63 ∧
    Fills t.op.buffer t.world.position t.world.file.size) (fun t => t.op.completion.isSome)
    (fun t => bytesLeft t.op.buffer.data) ⟨start_reading data offset w,small,fills⟩ ?_ answers
  rintro t a ⟨reading,small,fills⟩ answer
  by_cases goesOn : a.goesOn
  case neg => exact .inl (by simp [Transfer.item,reading.next,goesOn,SequenceOp.nextSetStopped])
  obtain ⟨file,position,buffer,after⟩ := item_reading reading goesOn
  rw [readAnswer_iff reading] at answer
  have progress : (t.op.buffer.advance a.count).data.empty = true ∨
      Fills (t.op.buffer.advance a.count) (moved t.op.buffer.offset t.world.position a.count) t.world.file.size ∧
      bytesLeft (t.op.buffer.advance a.count).data < bytesLeft t.op.buffer.data := by
    cases empty : t.op.buffer.data.empty with
    | true =>
      rw [if_neg (by simp [nextLength_of_empty empty])] at answer
      rw [answer,advance_none]
      exact .inl empty
    | false => exact fills_advance small fills empty fun length inside => by rwa [if_pos ⟨length,inside⟩] at answer
  cases empty : (t.op.buffer.advance a.count).data.empty with
  | true =>
    rw [if_pos empty] at after
    exact .inl (by simp [after])
  | false =>
    rw [if_neg (by simp [empty])] at after
    obtain ⟨fills,less⟩ := progress.resolve_left (by simp [empty])
    refine .inr ⟨⟨after,by rwa [file],?_⟩,by rwa [buffer]⟩
    rwa [buffer,position,file]

/-- The kernel can answer so that the sequence never ends. -/
theorem endless_of_not_fills (small : w.file.size < 2 ^ 63) (endless : ¬ Fills ⟨data,offset⟩ w.position w.file.size) :
    ∃ schedule, Answers Transfer.item ReadAnswer schedule (start data offset w) ∧
      ∀ k, (run Transfer.item schedule (start data offset w) k).op.completion = none := by
  refine (exists_endless Transfer.item ReadAnswer
    (fun t => Reading t ∧ t.world.file.size < 2 ^ 63 ∧ ¬ Fills t.op.buffer t.world.position t.world.file.size)
    ⟨start_reading data offset w,small,endless⟩
    (fun t => ⟨byteByByte t.op.buffer t.world.position t.world.file.size,true,false⟩) ?_).imp
    fun schedule runs => ⟨runs.1,fun k => (runs.2 k).1.open_⟩
  rintro t ⟨reading,small,endless⟩
  have later := not_fills_advance small endless rfl
  obtain ⟨file,position,buffer,after⟩ := item_reading
    (a := ⟨byteByByte t.op.buffer t.world.position t.world.file.size,true,false⟩) reading rfl
  rw [if_neg (by simp [not_empty_of_not_fills later])] at after
  refine ⟨(readAnswer_iff reading).mpr ?_,after,by rwa [file],?_⟩
  · simp only [byteByByte]
    split
    · next going => exact ⟨Nat.le_refl 1,going.1⟩
    · rfl
  · rwa [buffer,position,file]

end

/-- A read completes its receiver after finitely many items, whatever the kernel
    answers, if and only if the buffers are ones that it can fill. -/
theorem sequence_ends_iff (data : BufferSequence) (offset : BitVec 64) (w : World) (small : w.file.size < 2 ^ 63) :
    (∀ schedule, Answers Transfer.item ReadAnswer schedule (start data offset w) →
      ∃ k, (run Transfer.item schedule (start data offset w) k).op.completion.isSome) ↔
    Fills ⟨data,offset⟩ w.position w.file.size := by
  constructor
  · intro ends
    by_contra not_filled
    obtain ⟨schedule,answers,endless⟩ := endless_of_not_fills small not_filled
    obtain ⟨k,done⟩ := ends schedule answers
    simp [endless k] at done
  · exact fun fills schedule answers => ends_of_fills small fills answers

/-- A file of zeros, read from its first byte. -/
def zeros (size : Nat) : World := ⟨⟨fun _ => 0,size,fun _ _ => rfl⟩,0,fun _ => 0⟩

/-- Three buffers at an offset, one of them empty. -/
theorem sequence_ends_span : Fills ⟨.span [⟨0,2⟩,⟨8,0⟩,⟨16,3⟩],4⟩ 0 9 ∧
    ∀ schedule, Answers Transfer.item ReadAnswer schedule (start (.span [⟨0,2⟩,⟨8,0⟩,⟨16,3⟩]) 4 (zeros 9)) →
      ∃ k, (run Transfer.item schedule (start (.span [⟨0,2⟩,⟨8,0⟩,⟨16,3⟩]) 4 (zeros 9)) k).op.completion.isSome :=
  ⟨by decide,(sequence_ends_iff (.span [⟨0,2⟩,⟨8,0⟩,⟨16,3⟩]) 4 (zeros 9) (by decide)).mpr (by decide)⟩

/-- A buffer of two bytes and a file of one: the sequence reads beyond the end for ever. -/
theorem short_file_is_read_for_ever : ∃ schedule,
    Answers Transfer.item ReadAnswer schedule (start (.single ⟨0,2⟩) 0 (zeros 1)) ∧
    ∀ k, (run Transfer.item schedule (start (.single ⟨0,2⟩) 0 (zeros 1)) k).op.completion = none :=
  endless_of_not_fills (by decide) (by decide)

end SendersIo.BufferedSequence
