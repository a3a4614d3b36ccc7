import SendersIo.BufferCursor
import SendersIo.ByteStream

/-!
Transfers at the current position of the file. `read` and `write` of a byte stream name no
offset: every request of theirs goes on where the one before it has left the position. They
transfer consecutive bytes, into or out of a span of buffers as well as a single one.
-/
namespace SendersIo.CurrentPosition
open SendersIo.Buffers SendersIo.Bytes SendersIo.FileHandle SendersIo.Signals SendersIo.Schedules
open SendersIo.BufferedSequence SendersIo.BufferCursor SendersIo.ByteStream

variable {Error : Type}

/-- `byte_stream::read` and `byte_stream::write` of a buffer or of a span of buffers, started. -/
def begin (Error : Type) (dir : Direction) (data : BufferSequence) (w : World) : Stream Error :=
  ⟨bufferedSequence dir.factory data (-1),0,none,[],false,w,0⟩

/-- The first `n` bytes of the buffers are transferred, at the position of the file, and no
    other byte has changed. -/
structure Moved (dir : Direction) (data : BufferSequence) (w w' : World) (n : Nat) : Prop where
  position : w'.position = w.position + n
  content : match dir with
    | .read => bytesAt w'.memory ((bytes data).take n) = bytesAt w.file.bytes (List.range' w.position n) ∧
        (∀ a, a ∉ (bytes data).take n → w'.memory a = w.memory a) ∧ w'.file = w.file
    | .write => bytesAt w'.file.bytes (List.range' w.position n) = bytesAt w.memory ((bytes data).take n) ∧
        (∀ x, x < w.position ∨ w.position + n ≤ x → w'.file.bytes x = w.file.bytes x) ∧ w'.memory = w.memory ∧
        w'.file.size = if n = 0 then w.file.size else max w.file.size (w.position + n)

/-- The buffers that requests can transfer: the length of a request can hold the size of a
    single one, or the number of those in a span, of which the last one has a byte. -/
def Whole : BufferSequence → Prop
  | .single b => b.size < 2 ^ 32
  | .span bs => bs = [] ∨ bs.length < 2 ^ 32 ∧ EndsNonempty bs

instance (data : BufferSequence) : Decidable (Whole data) := by
  unfold Whole; split <;> infer_instance

/-- The kernel transfers nothing for a request of length zero, nor for a read at the end of the
    file; for any other one it transfers between one byte and all of them, and no read gets
    beyond the end. -/
def KernelCounts (dir : Direction) (s : Stream Error) (r : Reply Error) : Prop :=
  ∀ sqe ∈ s.op.nextOp, ∀ n, r.result = .value n →
    if sqe.length = 0 ∨ dir = .read ∧ s.world.file.size ≤ s.world.position then n = 0
    else 1 ≤ n ∧ n ≤ sqe.length ∧ (dir = .read → s.world.position + n ≤ s.world.file.size)

/-- The bytes that can be transferred: a read ends where the file does, a write makes it longer. -/
def room (dir : Direction) (data : BufferSequence) (w : World) : Nat :=
  match dir with
  | .read => w.file.size
  | .write => w.position + bytesLeft data

/-- What a transfer at the current position is to do, whatever the kernel replies: at every
    moment the bytes that were transferred are the first ones of the buffers, at consecutive
    places of the file; if no request fails, all of them are in the end, and the receiver gets
    their number; if one fails, the receiver gets its error, unless stop was requested, and
    nothing more is transferred. -/
structure Consecutive (dir : Direction) (data : BufferSequence) (w : World) (schedule : Nat → Reply Error) : Prop where
  moved : ∀ k, Moved dir data w (run Stream.step schedule (begin Error dir data w) k).world
    (run Stream.step schedule (begin Error dir data w) k).transferred
  succeeds : (∀ k, ∃ n, (schedule k).result = .value n) → ∃ k,
    let s := run Stream.step schedule (begin Error dir data w) k
    s.completions = [.value (bytesLeft data)] ∧ s.op.nextOp = none ∧ s.transferred = bytesLeft data
  fails : ∀ k, (run Stream.step schedule (begin Error dir data w) k).op.nextOp.isSome →
    (∀ n, (schedule k).result ≠ .value n) → ∀ j, k < j →
    (run Stream.step schedule (begin Error dir data w) j).completions =
      [if (schedule k).stopRequested then .stopped else (schedule k).result] ∧
    (run Stream.step schedule (begin Error dir data w) j).world = (run Stream.step schedule (begin Error dir data w) k).world

variable {dir : Direction} {data : BufferSequence} {w w' : World} {s : Stream Error} {r : Reply Error}
  {schedule : Nat → Reply Error} {b : Buffer} {bs : List Buffer} {p n t : Nat} {file memory : Store}

/-! ### Buffers that are filled and drained -/

theorem addresses_cons (b : Buffer) (bs : List Buffer) : addresses (b :: bs) = List.range' b.data b.size ++ addresses bs :=
  List.flatMap_cons

theorem length_addresses (bs : List Buffer) : (addresses bs).length = total bs := by
  induction bs with
  | nil => rfl
  | cons b bs ih => rw [addresses_cons,List.length_append,List.length_range',ih,total_cons]

theorem length_bytes (data : BufferSequence) : (bytes data).length = bytesLeft data := by
  cases data with
  | single b => exact List.length_range'
  | span bs => exact length_addresses bs

theorem take_places (p n m : Nat) : (List.range' p n).take m = List.range' p (min m n) := by
  rcases Nat.le_total m n with few | many
  · rw [List.take_range'_of_length_ge few,Nat.min_eq_left few]
  · rw [List.take_range'_of_length_le many,Nat.min_eq_right many]

theorem take_addresses (b : Buffer) (bs : List Buffer) (n : Nat) : (addresses (b :: bs)).take n =
    List.range' b.data (min n b.size) ++ (addresses bs).take (n - b.size) := by
  rw [addresses_cons,List.take_append,take_places,List.length_range']

/-- A buffer takes as many of the places in the file as it has bytes. -/
theorem split_places (b : Buffer) (bs : List Buffer) (p n : Nat) : List.range' p (min n (total (b :: bs))) =
    List.range' p (min n b.size) ++ List.range' (p + min n b.size) (min (n - b.size) (total bs)) := by
  rw [List.range'_append_1,total_cons]
  congr 1
  omega

theorem fill_outside {a : Nat} (outside : a ∉ (addresses bs).take n) : fill file bs p n memory a = memory a := by
  induction bs generalizing p n memory with
  | nil => rfl
  | cons b bs ih =>
    rw [take_addresses,List.mem_append,not_or] at outside
    rw [fill,ih outside.2]
    refine copy_outside ?_
    have := outside.1
    rw [List.mem_range'_1] at this
    omega

/-- The buffers hold the bytes of the file one after the other. -/
theorem fill_bytes (distinct : (addresses bs).Nodup) :
    bytesAt (fill file bs p n memory) ((addresses bs).take n) = bytesAt file (List.range' p (min n (total bs))) := by
  induction bs generalizing p n memory with
  | nil => simp [addresses,bytesAt]
  | cons b bs ih =>
    rw [addresses_cons] at distinct
    obtain ⟨_,rest,apart⟩ := List.nodup_append.mp distinct
    have first : bytesAt (fill file (b :: bs) p n memory) (List.range' b.data (min n b.size)) =
        bytesAt file (List.range' p (min n b.size)) := by
      rw [← bytesAt_copy file p memory b.data (min n b.size)]
      refine bytesAt_congr fun a member => ?_
      rw [fill]
      refine fill_outside fun later => ?_
      rw [List.mem_range'_1] at member
      exact apart a (List.mem_range'_1.mpr ⟨member.1,by omega⟩) a (List.mem_of_mem_take later) rfl
    rw [take_addresses,split_places,bytesAt_append,bytesAt_append,first,fill,ih rest]

theorem drain_outside (f : File) {x : Nat} (outside : x < p ∨ p + min n (total bs) ≤ x) :
    (drain memory bs p n f).bytes x = f.bytes x := by
  induction bs generalizing p n f with
  | nil => rfl
  | cons b bs ih =>
    rw [total_cons] at outside
    rw [drain,ih _ (by omega),write_bytes,copy_outside (by omega)]

/-- The file holds the bytes of the buffers one after the other. -/
theorem drain_bytes (memory : Store) (bs : List Buffer) (p n : Nat) (f : File) :
    bytesAt (drain memory bs p n f).bytes (List.range' p (min n (total bs))) = bytesAt memory ((addresses bs).take n) := by
  induction bs generalizing p n f with
  | nil => simp [addresses,bytesAt]
  | cons b bs ih =>
    have first : bytesAt (drain memory (b :: bs) p n f).bytes (List.range' p (min n b.size)) =
        bytesAt memory (List.range' b.data (min n b.size)) := by
      rw [← bytesAt_copy memory b.data f.bytes p (min n b.size)]
      refine bytesAt_congr fun x member => ?_
      rw [List.mem_range'_1] at member
      exact drain_outside _ (.inl member.2)
    rw [take_addresses,split_places,bytesAt_append,bytesAt_append,first,drain,ih]

theorem drain_size (memory : Store) (bs : List Buffer) (p n : Nat) (f : File) : (drain memory bs p n f).size =
    if min n (total bs) = 0 then f.size else max f.size (p + min n (total bs)) := by
  induction bs generalizing p n f with
  | nil => simp [drain]
  | cons b bs ih =>
    rw [drain,ih,write_size,total_cons]
    split <;> split <;> split <;> omega

/-! ### Requests -/

theorem factory_span (dir : Direction) (bs : List Buffer) (offset : BitVec 64) :
    ∃ opcode, dir.factory (.span bs) offset = submitSpan opcode bs offset := by
  cases dir
  · exact ⟨.readv,rfl⟩
  · exact ⟨.writev,rfl⟩

theorem length_request (dir : Direction) (data : BufferSequence) (offset : BitVec 64) :
    (dir.factory data offset).length = nextLength data := by
  cases data with
  | single b => exact factory_length dir b offset
  | span bs =>
    obtain ⟨opcode,same⟩ := factory_span dir bs offset
    rw [same,length_span,nextLength]

theorem nextLength_le (data : BufferSequence) : nextLength data ≤ bytesLeft data := by
  cases data with
  | single b => exact Nat.mod_le _ _
  | span bs => exact total_take_le bs _

/-- A request is for the first bytes of the buffers. -/
theorem take_target (dir : Direction) (data : BufferSequence) (offset : BitVec 64) (fits : n ≤ nextLength data) :
    (addresses (dir.factory data offset).target).take n = (bytes data).take n := by
  cases data with
  | single b =>
    have within : b.size % 2 ^ 32 ≤ b.size := Nat.mod_le _ _
    simp only [nextLength] at fits
    rw [(factory_target dir b offset).1,addresses_cons,bytes,List.take_append_of_le_length (by simpa using fits),
      take_places,take_places,Nat.min_eq_left fits,Nat.min_eq_left (by omega)]
  | span bs =>
    obtain ⟨opcode,same⟩ := factory_span dir bs offset
    have target : (submitSpan opcode bs offset).target = bs.take (bs.length % 2 ^ 32) := by simp [submitSpan,Sqe.target]
    have whole : addresses bs = addresses (bs.take (bs.length % 2 ^ 32)) ++ addresses (bs.drop (bs.length % 2 ^ 32)) := by
      rw [addresses,addresses,addresses,← List.flatMap_append,List.take_append_drop]
    rw [same,target,bytes,whole,List.take_append_of_le_length (by rwa [length_addresses])]

theorem distinct_target (dir : Direction) (data : BufferSequence) (offset : BitVec 64) (distinct : (bytes data).Nodup) :
    (addresses (dir.factory data offset).target).Nodup := by
  have all := take_target dir data offset (Nat.le_refl _)
  rw [List.take_of_length_le (by rw [length_addresses,← length_request dir data offset,Sqe.length])] at all
  rw [all]
  exact distinct.sublist (List.take_sublist _ _)

theorem transfer_reads (w : World) (data : BufferSequence) (n : Nat) :
    (w.transfer (readFactory data (-1)) n).memory =
      fill w.file.bytes (readFactory data (-1)).target w.position n w.memory ∧
    (w.transfer (readFactory data (-1)) n).file = w.file ∧
    (w.transfer (readFactory data (-1)) n).position = w.position + n := by
  cases data <;> exact ⟨rfl,rfl,rfl⟩

theorem transfer_writes (w : World) (data : BufferSequence) (n : Nat) :
    (w.transfer (writeFactory data (-1)) n).file =
      drain w.memory (writeFactory data (-1)).target w.position n w.file ∧
    (w.transfer (writeFactory data (-1)) n).memory = w.memory ∧
    (w.transfer (writeFactory data (-1)) n).position = w.position + n := by
  cases data <;> exact ⟨rfl,rfl,rfl⟩

theorem moved_none (dir : Direction) (data : BufferSequence) (w : World) : Moved dir data w w 0 := by
  cases dir <;> exact ⟨rfl,by simp [bytesAt]⟩

theorem Moved.le (moved : Moved dir data w w' n) : n ≤ bytesLeft data := by
  have lengths : n = ((bytes data).take n).length := by
    obtain ⟨_,content⟩ := moved
    cases dir with
    | read => simpa [bytesAt] using (congrArg List.length content.1).symm
    | write => simpa [bytesAt] using congrArg List.length content.1
  rw [List.length_take,length_bytes] at lengths
  omega

theorem range_append (p t n : Nat) : List.range' p (t + n) = List.range' p t ++ List.range' (p + t) n :=
  List.range'_append_1.symm

section
variable {data' : BufferSequence}

theorem take_split (left : bytes data' = (bytes data).drop t) (n : Nat) :
    (bytes data).take (t + n) = (bytes data).take t ++ (bytes data').take n := by
  rw [left,List.take_add]

theorem total_target (dir : Direction) (data : BufferSequence) (fits : n ≤ nextLength data) :
    min n (total (dir.factory data (-1)).target) = n := by
  rw [← Sqe.length,length_request]
  exact Nat.min_eq_left fits

theorem moved_read (moved : Moved .read data w w' t) (left : bytes data' = (bytes data).drop t)
    (fits : n ≤ nextLength data') (distinct : (bytes data).Nodup) :
    Moved .read data w (w'.transfer (readFactory data' (-1)) n) (t + n) := by
  obtain ⟨memory,file,moves⟩ := transfer_reads w' data' n
  obtain ⟨position,filled,others,same⟩ := moved
  have next : (addresses (readFactory data' (-1)).target).take n = (bytes data').take n := take_target .read data' (-1) fits
  have whole : min n (total (readFactory data' (-1)).target) = n := total_target .read data' fits
  have split := take_split left n
  have parts : ((bytes data).take t ++ (bytes data').take n).Nodup := by
    rw [← split]
    exact distinct.sublist (List.take_sublist _ _)
  have rest : (bytes data').Nodup := left ▸ distinct.sublist (List.drop_sublist _ _)
  have kept : bytesAt (w'.transfer (readFactory data' (-1)) n).memory ((bytes data).take t) =
      bytesAt w.file.bytes (List.range' w.position t) := by
    rw [← filled,memory]
    refine bytesAt_congr fun a member => fill_outside fun later => ?_
    rw [next] at later
    exact (List.nodup_append.mp parts).2.2 a member a later rfl
  have new : bytesAt (w'.transfer (readFactory data' (-1)) n).memory ((bytes data').take n) =
      bytesAt w.file.bytes (List.range' (w.position + t) n) := by
    have once : (addresses (readFactory data' (-1)).target).Nodup := distinct_target .read data' (-1) rest
    rw [memory,← next,fill_bytes once,whole,same,position]
  refine ⟨by rw [moves,position,Nat.add_assoc],?_,?_,by rw [file,same]⟩
  · rw [split,range_append,bytesAt_append,bytesAt_append,kept,new]
  · intro a outside
    rw [split,List.mem_append,not_or] at outside
    rw [memory,fill_outside (by rw [next]; exact outside.2)]
    exact others a outside.1

theorem moved_write (moved : Moved .write data w w' t) (left : bytes data' = (bytes data).drop t)
    (fits : n ≤ nextLength data') : Moved .write data w (w'.transfer (writeFactory data' (-1)) n) (t + n) := by
  obtain ⟨file,memory,moves⟩ := transfer_writes w' data' n
  obtain ⟨position,drained,others,same,size⟩ := moved
  have next : (addresses (writeFactory data' (-1)).target).take n = (bytes data').take n := take_target .write data' (-1) fits
  have whole : min n (total (writeFactory data' (-1)).target) = n := total_target .write data' fits
  have kept : bytesAt (w'.transfer (writeFactory data' (-1)) n).file.bytes (List.range' w.position t) =
      bytesAt w.memory ((bytes data).take t) := by
    rw [← drained,file]
    refine bytesAt_congr fun x member => drain_outside _ (.inl ?_)
    rw [List.mem_range'_1] at member
    omega
  have new : bytesAt (w'.transfer (writeFactory data' (-1)) n).file.bytes (List.range' (w.position + t) n) =
      bytesAt w.memory ((bytes data').take n) := by
    have drained := drain_bytes w'.memory (writeFactory data' (-1)).target w'.position n w'.file
    rwa [← file,whole,next,position,same] at drained
  refine ⟨by rw [moves,position,Nat.add_assoc],?_,?_,by rw [memory,same],?_⟩
  · rw [take_split left n,range_append,bytesAt_append,bytesAt_append,kept,new]
  · intro x outside
    rw [file,drain_outside _ (by rw [whole,position]; omega)]
    exact others x (by omega)
  · rw [file,drain_size,whole,size,position]
    split <;> split <;> split <;> omega

/-- The bytes that are transferred next continue those that were. -/
theorem moved_transfer (moved : Moved dir data w w' t) (left : bytes data' = (bytes data).drop t)
    (fits : n ≤ nextLength data') (distinct : dir = .read → (bytes data).Nodup) :
    Moved dir data w (w'.transfer (dir.factory data' (-1)) n) (t + n) := by
  cases dir with
  | read => exact moved_read moved left fits (distinct rfl)
  | write => exact moved_write moved left fits

end

/-! ### One request -/

/-- A transfer in progress. -/
structure Going (dir : Direction) (data : BufferSequence) (w : World) (s : Stream Error) : Prop where
  factory : s.op.factory = dir.factory
  offset : s.op.buffer.offset = -1
  left : bytes s.op.buffer.data = (bytes data).drop s.transferred
  next : s.op.nextOp = some (dir.factory s.op.buffer.data (-1))
  open_ : s.op.completion = none
  value : s.value = s.transferred
  silent : s.completions = []
  moved : Moved dir data w s.world s.transferred

/-- A transfer that has completed with the number of the bytes. -/
structure Finished (dir : Direction) (data : BufferSequence) (w : World) (s : Stream Error) : Prop where
  completions : s.completions = [.value (bytesLeft data)]
  ended : s.op.nextOp = none
  transferred : s.transferred = bytesLeft data
  moved : Moved dir data w s.world (bytesLeft data)

theorem begin_going (dir : Direction) (data : BufferSequence) (w : World) : Going dir data w (begin Error dir data w) where
  factory := rfl
  offset := rfl
  left := rfl
  next := rfl
  open_ := rfl
  value := rfl
  silent := rfl
  moved := moved_none dir data w

theorem advance_current (s : BufferSpan) (current : s.offset = -1) (n : Nat) : (s.advance n).offset = -1 := by
  obtain ⟨data,offset⟩ := s
  obtain rfl : offset = -1 := current
  cases data <;> simp only [BufferSpan.advance,advanceOffset_current]

theorem bytes_of_empty (empty : data.empty = true) : bytes data = [] := by
  cases data with
  | single b => simpa [BufferSequence.empty,bytes] using empty
  | span bs => simp_all [BufferSequence.empty,bytes,addresses]

theorem going_left (going : Going dir data w s) : bytesLeft s.op.buffer.data = bytesLeft data - s.transferred := by
  rw [← length_bytes,going.left,List.length_drop,length_bytes]

/-- The position and the size of the file of a transfer in progress. -/
theorem going_world (going : Going dir data w s) :
    s.world.position = w.position + s.transferred ∧ (dir = .read → s.world.file = w.file) := by
  obtain ⟨position,content⟩ := going.moved
  refine ⟨position,?_⟩
  rintro rfl
  exact content.2.2

/-- What the kernel may report for a transfer in progress. -/
theorem going_counted (going : Going dir data w s) (replied : KernelCounts dir s r) (count : r.result = .value n) :
    if 0 < nextLength s.op.buffer.data ∧ s.world.position < room dir data w then 1 ≤ n ∧ n ≤ nextLength s.op.buffer.data
    else n = 0 := by
  have counted := replied _ going.next n count
  have left := going_left going
  have fits := nextLength_le s.op.buffer.data
  obtain ⟨position,same⟩ := going_world going
  rw [length_request] at counted
  cases dir with
  | read =>
    rw [same rfl] at counted
    simp only [true_and] at counted
    rw [room]
    split <;> split at counted <;> omega
  | write =>
    simp only [reduceCtorEq,false_and,or_false] at counted
    rw [room]
    split <;> split at counted <;> omega

theorem going_fits (going : Going dir data w s) (replied : KernelCounts dir s r) (count : r.result = .value n) :
    n ≤ nextLength s.op.buffer.data := by
  have counted := going_counted going replied count
  split at counted <;> omega

/-- A reported count brings the transfer on; when nothing is left, to its end. -/
theorem going_value (small : bytesLeft data < 2 ^ 63) (distinct : dir = .read → (bytes data).Nodup)
    (going : Going dir data w s) (replied : KernelCounts dir s r) (count : r.result = .value n) :
    if (s.op.buffer.advance n).data.empty then Finished dir data w (s.step r)
    else Going dir data w (s.step r) ∧ (s.step r).op.buffer = s.op.buffer.advance n ∧
      (s.step r).transferred = s.transferred + n := by
  have fits := going_fits going replied count
  have bound : s.transferred + n ≤ bytesLeft data := by
    have := nextLength_le s.op.buffer.data
    have := going_left going
    have := going.moved.le
    omega
  have kernel := moved_transfer going.moved going.left fits distinct
  have sum : (s.value + n) % 2 ^ 64 = s.transferred + n := by
    rw [going.value]
    exact Nat.mod_eq_of_lt (by omega)
  have rest : bytes (s.op.buffer.advance n).data = (bytes data).drop (s.transferred + n) := by
    rw [bytes_advance,going.left,List.drop_drop]
  split
  · next empty =>
    have all : s.transferred + n = bytesLeft data := by
      rw [bytes_of_empty empty] at rest
      have := List.drop_eq_nil_iff.mp rest.symm
      rw [length_bytes] at this
      omega
    simp only [Stream.step,going.next,count,Stream.itemComplete,SequenceOp.itemSetValue,SequenceOp.nextSetValue,empty,
      if_true,Stream.lastComplete,Stream.visitResult,sum]
    exact ⟨by simp [going.silent,all],rfl,all,all ▸ kernel⟩
  · next more =>
    have current := advance_current s.op.buffer going.offset n
    simp only [Stream.step,going.next,count,Stream.itemComplete,SequenceOp.itemSetValue,SequenceOp.nextSetValue,more,
      Bool.false_eq_true,if_false,Stream.lastComplete,SequenceOp.connectNext,going.open_,sum]
    exact ⟨⟨going.factory,current,rest,by rw [going.factory,current],rfl,rfl,going.silent,kernel⟩,trivial,trivial⟩

/-- A request that fails, or that is stopped, ends the transfer. -/
theorem going_failed (going : Going dir data w s) (failed : ∀ n, r.result ≠ .value n) :
    (s.step r).op.nextOp = none ∧ (s.step r).world = s.world ∧ (s.step r).transferred = s.transferred ∧
    (s.step r).completions = [if r.stopRequested then .stopped else r.result] := by
  cases outcome : r.result with
  | value n => exact absurd outcome (failed n)
  | error e =>
    cases stop : r.stopRequested <;>
      simp [Stream.step,going.next,outcome,Stream.itemComplete,SequenceOp.nextSetStopped,Stream.lastComplete,
        Stream.visitResult,stop,going.silent]
  | stopped =>
    cases stop : r.stopRequested <;>
      simp [Stream.step,going.next,outcome,Stream.itemComplete,SequenceOp.nextSetStopped,Stream.lastComplete,
        Stream.visitResult,stop,going.silent]

/-! ### Runs -/

/-- The buffers that a transfer at the current position gets done with. -/
theorem fills_room (dir : Direction) (data : BufferSequence) (w : World) :
    Fills ⟨data,-1⟩ w.position (room dir data w) ↔
    Whole data ∧ (dir = .read → bytesLeft data = 0 ∨ w.position + bytesLeft data ≤ w.file.size) := by
  cases data with
  | single b =>
    simp only [Whole,Fills,place,if_true,bytesLeft]
    cases dir with
    | read => simp only [room,true_implies]; omega
    | write => simp only [room,bytesLeft,reduceCtorEq,false_implies,and_true]; omega
  | span bs =>
    have some : bs ≠ [] → EndsNonempty bs → 0 < total bs := fun some ends => total_pos_of_endsNonempty ends some
    have none : bs = [] → total bs = 0 := by rintro rfl; rfl
    simp only [Whole,Fills,if_true,bytesLeft]
    by_cases empty : bs = []
    · simp [empty]
    · cases dir with
      | read =>
        simp only [room,true_implies,empty,false_or]
        constructor
        · exact fun fills => ⟨⟨fills.1,fills.2.1⟩,.inr fills.2.2⟩
        · rintro ⟨⟨short,ends⟩,enough⟩
          have := some empty ends
          exact ⟨short,ends,by omega⟩
      | write => simp [room,bytesLeft]

section
variable (small : bytesLeft data < 2 ^ 63) (distinct : dir = .read → (bytes data).Nodup)
include small distinct

/-- At every moment the transfer is in progress or has ended, and what was transferred is where
    it belongs. -/
theorem run_moved (answers : Answers Stream.step (KernelCounts dir) schedule (begin Error dir data w)) (k : Nat) :
    (Going dir data w (run Stream.step schedule (begin Error dir data w) k) ∨
      (run Stream.step schedule (begin Error dir data w) k).op.nextOp = none) ∧
    Moved dir data w (run Stream.step schedule (begin Error dir data w) k).world
      (run Stream.step schedule (begin Error dir data w) k).transferred := by
  refine run_invariant (fun s => (Going dir data w s ∨ s.op.nextOp = none) ∧ Moved dir data w s.world s.transferred)
    ⟨.inl (begin_going dir data w),moved_none dir data w⟩ ?_ answers k
  rintro s r ⟨going | ended,moved⟩ replied
  · cases outcome : r.result with
    | value n =>
      have later := going_value small distinct going replied outcome
      split at later
      · exact ⟨.inr later.ended,later.transferred ▸ later.moved⟩
      · exact ⟨.inl later.1,later.1.moved⟩
    | error e =>
      obtain ⟨ended,world,same,_⟩ := going_failed going (r := r) (by simp [outcome])
      exact ⟨.inr ended,by rwa [world,same]⟩
    | stopped =>
      obtain ⟨ended,world,same,_⟩ := going_failed going (r := r) (by simp [outcome])
      exact ⟨.inr ended,by rwa [world,same]⟩
  · rw [step_ended ended]
    exact ⟨.inr ended,moved⟩

omit small distinct in
/-- Where a transfer in progress stands after a count. -/
theorem moved_current {s' : Stream Error} (going : Going dir data w s) (next : Going dir data w s')
    (transferred : s'.transferred = s.transferred + n) :
    BufferedSequence.moved s.op.buffer.offset s.world.position n = s'.world.position := by
  rw [BufferedSequence.moved,if_pos going.offset,(going_world going).1,(going_world next).1,transferred,Nat.add_assoc]

/-- A transfer of buffers that it can get done with does so. -/
theorem run_finishes_room (fits : room dir data w < 2 ^ 63) (fills : Fills ⟨data,-1⟩ w.position (room dir data w))
    (answers : Answers Stream.step (KernelCounts dir) schedule (begin Error dir data w))
    (counts : ∀ k, ∃ n, (schedule k).result = .value n) :
    ∃ k, Finished dir data w (run Stream.step schedule (begin Error dir data w) k) := by
  have both : Answers Stream.step (fun s r => KernelCounts dir s r ∧ ∃ n, r.result = .value n) schedule
      (begin Error dir data w) := fun k => ⟨answers k,counts k⟩
  refine run_finishes (fun s => Going dir data w s ∧ Fills s.op.buffer s.world.position (room dir data w))
    (Finished dir data w) (fun s => bytesLeft s.op.buffer.data) ⟨begin_going dir data w,fills⟩ ?_ both
  rintro s r ⟨going,fills⟩ ⟨replied,n,outcome⟩
  have later := going_value small distinct going replied outcome
  have counted := going_counted going replied outcome
  split at later
  · exact .inl later
  · next more =>
    obtain ⟨next,buffer,transferred⟩ := later
    have some : s.op.buffer.data.empty = false := by
      by_contra empty
      rw [nextLength_of_empty (by simpa using empty),if_neg (by simp)] at counted
      rw [counted,advance_none] at more
      exact empty (by simpa using more)
    have answered : 0 < nextLength s.op.buffer.data → BufferedSequence.place s.op.buffer s.world.position < room dir data w →
        1 ≤ n ∧ n ≤ nextLength s.op.buffer.data := by
      intro asks before
      rw [BufferedSequence.place,if_pos going.offset] at before
      rwa [if_pos ⟨asks,before⟩] at counted
    rcases fills_advance fits fills some answered with empty | ⟨fills,less⟩
    · exact absurd empty more
    · rw [moved_current going next transferred,← buffer] at fills
      rw [← buffer] at less
      exact .inr ⟨⟨next,fills⟩,less⟩

theorem run_consecutive (fits : room dir data w < 2 ^ 63) (fills : Fills ⟨data,-1⟩ w.position (room dir data w))
    (answers : Answers Stream.step (KernelCounts dir) schedule (begin Error dir data w)) :
    Consecutive dir data w schedule where
  moved k := (run_moved small distinct answers k).2
  succeeds counts := by
    obtain ⟨k,finished⟩ := run_finishes_room small distinct fits fills answers counts
    exact ⟨k,finished.completions,finished.ended,finished.transferred⟩
  fails k open_ failed j later := by
    have going := (run_moved small distinct answers k).1.resolve_right fun ended => by simp [ended] at open_
    obtain ⟨ended,world,_,completions⟩ := going_failed going (r := schedule k) failed
    have stays : run Stream.step schedule (begin Error dir data w) j =
        run Stream.step schedule (begin Error dir data w) (k + 1) := run_stays (fun r => step_ended ended r) later
    rw [stays]
    exact ⟨completions,world⟩

/-- The kernel can transfer the bytes one by one so that other buffers are never done with. -/
theorem exists_endless_transfer (fits : room dir data w < 2 ^ 63)
    (never : ¬ Fills ⟨data,-1⟩ w.position (room dir data w)) : ∃ schedule : Nat → Reply Error,
    Answers Stream.step (KernelCounts dir) schedule (begin Error dir data w) ∧ (∀ k, ∃ n, (schedule k).result = .value n) ∧
    ∀ k, (run Stream.step schedule (begin Error dir data w) k).completions = [] := by
  refine (exists_endless Stream.step (fun s r => KernelCounts dir s r ∧ ∃ n, r.result = .value n)
    (fun s => Going dir data w s ∧ ¬ Fills s.op.buffer s.world.position (room dir data w))
    ⟨begin_going dir data w,never⟩
    (fun s => ⟨.value (byteByByte s.op.buffer s.world.position (room dir data w)),false⟩) ?_).imp
    fun schedule runs => ⟨fun k => (runs.1 k).1,fun k => (runs.1 k).2,fun k => (runs.2 k).1.silent⟩
  rintro s ⟨going,endless⟩
  have left := going_left going
  have length := nextLength_le s.op.buffer.data
  obtain ⟨position,same⟩ := going_world going
  have replied : KernelCounts dir s ⟨.value (byteByByte s.op.buffer s.world.position (room dir data w)),false⟩ := by
    intro sqe next n outcome
    obtain rfl := Option.some.inj (going.next.symm.trans next)
    obtain rfl := Completion.value.inj outcome
    have one : byteByByte s.op.buffer s.world.position (room dir data w) =
        if 0 < nextLength s.op.buffer.data ∧ s.world.position < room dir data w then 1 else 0 := by
      rw [byteByByte,BufferedSequence.place,if_pos going.offset]
    rw [length_request,one]
    by_cases asks : 0 < nextLength s.op.buffer.data ∧ s.world.position < room dir data w
    · rw [if_pos asks]
      cases dir with
      | read =>
        rw [same rfl,if_neg (by simp only [room] at asks; omega)]
        simp only [room] at asks
        omega
      | write =>
        rw [if_neg (by simp; omega)]
        exact ⟨Nat.le_refl 1,asks.1,by simp⟩
    · rw [if_neg asks,if_pos]
      cases dir with
      | read =>
        simp only [room] at asks
        rw [same rfl]
        simp only [true_and]
        omega
      | write =>
        simp only [room] at asks
        simp only [reduceCtorEq,false_and,or_false]
        omega
  have later := going_value small distinct going replied rfl
  have still := not_fills_advance fits endless rfl
  rw [if_neg (by simp [not_empty_of_not_fills still])] at later
  obtain ⟨next,buffer,transferred⟩ := later
  rw [moved_current going next transferred,← buffer] at still
  exact ⟨⟨replied,_,rfl⟩,next,still⟩

end

/-- A transfer at the current position of buffers that do not overlap, of less than `2 ^ 63`
    bytes, does what it is to do, for every schedule of the kernel, if and only if requests
    can transfer the buffers and a read finds enough bytes in the file. Otherwise the kernel
    can answer each request with a count so that the operation never completes. -/
theorem consecutive_iff (dir : Direction) (data : BufferSequence) (w : World)
    (small : w.position + bytesLeft data < 2 ^ 63) (file : w.file.size < 2 ^ 63)
    (distinct : dir = .read → (bytes data).Nodup) :
    ((∀ schedule : Nat → Reply Error, Answers Stream.step (KernelCounts dir) schedule (begin Error dir data w) →
        Consecutive dir data w schedule) ↔
      Whole data ∧ (dir = .read → bytesLeft data = 0 ∨ w.position + bytesLeft data ≤ w.file.size)) ∧
    (¬ (Whole data ∧ (dir = .read → bytesLeft data = 0 ∨ w.position + bytesLeft data ≤ w.file.size)) →
      ∃ schedule : Nat → Reply Error,
        Answers Stream.step (KernelCounts dir) schedule (begin Error dir data w) ∧
        (∀ k, ∃ n, (schedule k).result = .value n) ∧
        ∀ k, (run Stream.step schedule (begin Error dir data w) k).completions = []) := by
  have fits : room dir data w < 2 ^ 63 := by cases dir <;> simpa [room]
  have small : bytesLeft data < 2 ^ 63 := by omega
  rw [← fills_room]
  have endless := @exists_endless_transfer Error _ _ _ small distinct fits
  refine ⟨⟨fun consecutive => ?_,fun fills schedule answers => ?_⟩,endless⟩
  · by_contra never
    obtain ⟨schedule,answers,counts,silent⟩ := endless never
    obtain ⟨k,completions,_⟩ := (consecutive schedule answers).succeeds counts
    rw [silent k] at completions
    cases completions
  · exact run_consecutive small distinct fits fills answers

/-- Three buffers, one of them empty, that are read where the file stands: a file of nine bytes
    has enough of them, and an empty file does not. -/
theorem consecutive_three :
    (∀ schedule, Answers Stream.step (KernelCounts .read) schedule
        (begin Nat .read (.span [⟨16,3⟩,⟨8,0⟩,⟨0,2⟩]) (zeros 9)) →
      Consecutive .read (.span [⟨16,3⟩,⟨8,0⟩,⟨0,2⟩]) (zeros 9) schedule) ∧
    ∃ schedule, Answers Stream.step (KernelCounts .read) schedule
        (begin Nat .read (.span [⟨16,3⟩,⟨8,0⟩,⟨0,2⟩]) (zeros 0)) ∧
      ∀ k, (run Stream.step schedule (begin Nat .read (.span [⟨16,3⟩,⟨8,0⟩,⟨0,2⟩]) (zeros 0)) k).completions = [] := by
  constructor
  · exact (consecutive_iff .read (.span [⟨16,3⟩,⟨8,0⟩,⟨0,2⟩]) (zeros 9) (by decide) (by decide) (by decide)).1.mpr
      (by decide)
  · obtain ⟨schedule,answers,_,silent⟩ := (consecutive_iff .read (.span [⟨16,3⟩,⟨8,0⟩,⟨0,2⟩]) (zeros 0) (by decide)
      (by decide) (by decide)).2 (by decide)
    exact ⟨schedule,answers,silent⟩

end SendersIo.CurrentPosition
