import SendersIo.BufferedSequence

/-!
Reading a buffer from a file and writing it to one: `reduce` over the sequence of
the requests adds up what the kernel reports, and completes with the sum when the
sequence ends, or with the error of the request that failed.
-/
namespace SendersIo.ByteStream
open SendersIo.Buffers SendersIo.Bytes SendersIo.FileHandle SendersIo.Signals SendersIo.Schedules
open SendersIo.BufferedSequence

inductive Direction where
  | read
  | write
  deriving DecidableEq

/-- `read_factory` or `write_factory`. -/
def Direction.factory : Direction → BufferSequence → BitVec 64 → Sqe
  | .read => readFactory
  | .write => writeFactory

/-- The operation of `reduce`: the sequence, `value_` of `scan`, the slot of `last`,
    the completions of the receiver, and whether the slot was visited while it was
    empty; with the kernel and what it has transferred so far. -/
structure Stream (Error : Type) where
  op : SequenceOp
  value : Nat
  result : Option (Completion Nat Error)
  completions : List (Completion Nat Error)
  undefined : Bool
  world : World
  transferred : Nat

/-- How the kernel completes a request, and whether the receiver's token is
    requested by then. -/
structure Reply (Error : Type) where
  result : Completion Nat Error
  stopRequested : Bool

variable {Error : Type}

/-- `result_type::visit_result` of `last`. -/
def Stream.visitResult (s : Stream Error) : Stream Error :=
  match s.result with
  | some result => { s with completions := s.completions ++ [result] }
  | none => { s with undefined := true }

/-- `receiver` of `last`, when the sequence has completed. -/
def Stream.lastComplete (s : Stream Error) : Stream Error :=
  match s.op.completion with
  | some (.value ()) => s.visitResult
  | some .stopped => { s with completions := s.completions ++ [.stopped] }
  | some (.error e) => nomatch e
  | none => s

/-- The item receivers: the sequence advances its cursor, `scan` adds the count, and
    `last` stores what its item completes with before the sequence goes on. -/
def Stream.itemComplete (s : Stream Error) (r : Reply Error) : Stream Error :=
  match r.result with
  | .value n =>
    let value := (s.value + n) % 2 ^ 64
    { s with op := (s.op.itemSetValue n).nextSetValue, value, result := some (.value value) }.lastComplete
  | .error e => { s with op := s.op.nextSetStopped r.stopRequested, result := some (.error e) }.lastComplete
  | .stopped => { s with op := s.op.nextSetStopped r.stopRequested, result := some .stopped }.lastComplete

/-- The kernel completes the request that is in progress. -/
def Stream.step (s : Stream Error) (r : Reply Error) : Stream Error :=
  match s.op.nextOp with
  | none => s
  | some sqe =>
    match r.result with
    | .value n =>
      { s with world := s.world.transfer sqe n, transferred := s.transferred + n }.itemComplete r
    | _ => s.itemComplete r

/-- `seekable_byte_stream::read` and `seekable_byte_stream::write`, started. -/
def start (Error : Type) (dir : Direction) (b : Buffer) (offset : BitVec 64) (w : World) : Stream Error :=
  ⟨bufferedSequence dir.factory (.single b) offset,0,none,[],false,w,0⟩

/-- The kernel transfers nothing for a request of length zero, and between one byte
    and all of them for any other. -/
def KernelReply (s : Stream Error) (r : Reply Error) : Prop :=
  ∀ sqe ∈ s.op.nextOp, ∀ n, r.result = .value n → if sqe.length = 0 then n = 0 else 1 ≤ n ∧ n ≤ sqe.length

/-- The first `n` bytes are transferred, and no other byte has changed. -/
def Moved (dir : Direction) (b : Buffer) (p : Nat) (w w' : World) (n : Nat) : Prop :=
  match dir with
  | .read => w'.memory = copy w.file.bytes p w.memory b.data n ∧ w'.file = w.file
  | .write => w'.file.bytes = copy w.memory b.data w.file.bytes p n ∧ w'.memory = w.memory ∧
      w'.file.size = if n = 0 then w.file.size else max w.file.size (p + n)

/-- What a transfer of a buffer at an offset is to do, whatever the kernel replies:
    request `k` is for the bytes that are left, at the offset of the first of them;
    if no request fails, the operation completes with the size of the buffer, all
    of whose bytes have been transferred; if one fails while stop is not requested,
    the operation completes with its error and makes no further request. -/
structure Transfers (Error : Type) (dir : Direction) (b : Buffer) (offset : BitVec 64) (w : World)
    (schedule : Nat → Reply Error) : Prop where
  requests : ∀ k, ∀ sqe ∈ (run Stream.step schedule (start Error dir b offset w) k).op.nextOp,
    let t := (run Stream.step schedule (start Error dir b offset w) k).transferred
    (run Stream.step schedule (start Error dir b offset w) k).op.requests[k]? = some sqe ∧
    sqe.target = [⟨b.data + t,b.size - t⟩] ∧ sqe.off.toNat = offset.toNat + t
  succeeds : (∀ k, ∃ n, (schedule k).result = .value n) → ∃ k,
    let s := run Stream.step schedule (start Error dir b offset w) k
    s.completions = [.value b.size] ∧ s.op.nextOp = none ∧ Moved dir b offset.toNat w s.world b.size
  fails : ∀ k e, (run Stream.step schedule (start Error dir b offset w) k).op.nextOp.isSome →
    (schedule k).result = .error e → (schedule k).stopRequested = false → ∀ j, k < j →
    (run Stream.step schedule (start Error dir b offset w) j).completions = [.error e] ∧
    (run Stream.step schedule (start Error dir b offset w) j).op.requests =
      (run Stream.step schedule (start Error dir b offset w) k).op.requests

variable {dir : Direction} {b : Buffer} {offset : BitVec 64} {w : World} {s : Stream Error} {r : Reply Error}
  {schedule : Nat → Reply Error} {n : Nat}

/-! ### What completes does not change the sequence -/

theorem lastComplete_op (s : Stream Error) : s.lastComplete.op = s.op := by
  unfold Stream.lastComplete Stream.visitResult
  split
  · split <;> rfl
  · rfl
  · contradiction
  · rfl

/-- A reported count is an item of the sequence that goes on. -/
theorem step_value_op {sqe : Sqe} (next : s.op.nextOp = some sqe) (outcome : r.result = .value n) :
    (s.step r).op = (s.op.itemSetValue n).nextSetValue := by
  simp only [Stream.step,next,outcome,Stream.itemComplete,lastComplete_op]

theorem lastComplete_keeps (s : Stream Error) :
    ∃ completions undefined, s.lastComplete = { s with completions, undefined } := by
  unfold Stream.lastComplete Stream.visitResult
  split
  · split <;> exact ⟨_,_,rfl⟩
  · exact ⟨_,_,rfl⟩
  · contradiction
  · exact ⟨_,_,rfl⟩

/-- What the kernel has transferred after a reported count. -/
theorem step_value_world {sqe : Sqe} (next : s.op.nextOp = some sqe) (outcome : r.result = .value n) :
    (s.step r).world = s.world.transfer sqe n ∧ (s.step r).transferred = s.transferred + n := by
  simp only [Stream.step,next,outcome,Stream.itemComplete]
  obtain ⟨_,_,same⟩ := lastComplete_keeps { s with
    op := (s.op.itemSetValue n).nextSetValue, value := (s.value + n) % 2 ^ 64
    result := some (.value ((s.value + n) % 2 ^ 64)), world := s.world.transfer sqe n
    transferred := s.transferred + n }
  rw [same]
  exact ⟨rfl,rfl⟩

/-- The operation does not look at what the kernel transfers. -/
theorem step_world (s : Stream Error) (v : World) (r : Reply Error) :
    ({ s with world := v } : Stream Error).step r =
      { s.step r with world := (({ s with world := v } : Stream Error).step r).world } := by
  obtain ⟨op,value,result,completions,undefined,world,transferred⟩ := s
  simp only [Stream.step,Stream.itemComplete,Stream.lastComplete,Stream.visitResult]
  split
  · rfl
  · cases r.result with
    | value n => simp only; split <;> rfl
    | error e => simp only; split <;> rfl
    | stopped => simp only; split <;> rfl

/-- The sequence makes one more request, if it goes on. -/
theorem nextSetValue_requests {op : SequenceOp} {sqe : Sqe} (more : sqe ∈ op.nextSetValue.nextOp) :
    op.nextSetValue.requests = op.requests ++ [sqe] := by
  unfold SequenceOp.nextSetValue at more ⊢
  split at more
  · cases more
  · next left =>
    rw [if_neg left]
    obtain rfl : _ = sqe := Option.some.inj more
    rfl

/-! ### A request for a single buffer -/

theorem factory_single (dir : Direction) (b : Buffer) (offset : BitVec 64) :
    ∃ opcode, dir.factory (.single b) offset = submitSingle opcode b offset := by
  cases dir
  · exact ⟨.read,rfl⟩
  · exact ⟨.write,rfl⟩

theorem factory_target (dir : Direction) (b : Buffer) (offset : BitVec 64) :
    (dir.factory (.single b) offset).target = [⟨b.data,b.size % 2 ^ 32⟩] ∧
    (dir.factory (.single b) offset).off = offset := by
  obtain ⟨opcode,same⟩ := factory_single dir b offset
  rw [same]
  exact ⟨by simp [submitSingle,Sqe.target],rfl⟩

theorem factory_length (dir : Direction) (b : Buffer) (offset : BitVec 64) :
    (dir.factory (.single b) offset).length = b.size % 2 ^ 32 := by
  obtain ⟨opcode,same⟩ := factory_single dir b offset
  rw [same,length_single]

/-- The bytes that are transferred next continue those that were. -/
theorem moved_transfer {w' : World} {t : Nat} (moved : Moved dir b offset.toNat w w' t) {sqe : Sqe}
    (request : sqe = dir.factory (.single ⟨b.data + t,b.size - t⟩) (offset + BitVec.ofNat 64 t))
    (at_ : (offset + BitVec.ofNat 64 t).toNat = offset.toNat + t) (absolute : offset + BitVec.ofNat 64 t ≠ -1)
    (short : b.size < 2 ^ 32) (fits : n ≤ b.size - t) :
    Moved dir b offset.toNat w (w'.transfer sqe n) (t + n) := by
  have len : (BitVec.ofNat 32 (b.size - t)).toNat = b.size - t := by
    rw [BitVec.toNat_ofNat]
    exact Nat.mod_eq_of_lt (by omega)
  have place : w'.place sqe = offset.toNat + t := by
    rw [World.place,request,(factory_target _ _ _).2,if_neg absolute,at_]
  cases dir with
  | read =>
    have filled : (w'.transfer sqe n).memory = copy w'.file.bytes (offset.toNat + t) w'.memory (b.data + t) n := by
      rw [← place,request]
      simp only [World.transfer,Direction.factory,readFactory,readSubmissionSingle,submitSingle,Sqe.target,fill,len,
        Nat.min_eq_left fits]
    refine ⟨?_,?_⟩
    · rw [filled,moved.1,moved.2,copy_append]
    · rw [request]; exact moved.2
  | write =>
    have drained : (w'.transfer sqe n).file = w'.file.write w'.memory (b.data + t) (offset.toNat + t) n := by
      rw [← place,request]
      simp only [World.transfer,Direction.factory,writeFactory,writeSubmissionSingle,submitSingle,Sqe.target,drain,len,
        Nat.min_eq_left fits]
    obtain ⟨bytes,memory,size⟩ := moved
    refine ⟨?_,?_,?_⟩
    · rw [drained,write_bytes,bytes,memory,copy_append]
    · rw [request]; exact memory
    · rw [drained,write_size,size]
      split <;> split <;> split <;> omega

/-! ### One request -/

/-- A transfer in progress: the cursor is behind the bytes that have been
    transferred, the sum counts them, and they are where they belong. -/
structure Going (dir : Direction) (b : Buffer) (offset : BitVec 64) (w : World) (s : Stream Error) : Prop where
  factory : s.op.factory = dir.factory
  buffer : s.op.buffer =
    ⟨.single ⟨b.data + s.transferred,b.size - s.transferred⟩,offset + BitVec.ofNat 64 s.transferred⟩
  next : s.op.nextOp = some (dir.factory s.op.buffer.data s.op.buffer.offset)
  open_ : s.op.completion = none
  left : s.transferred < b.size ∨ b.size = 0 ∧ s.transferred = 0
  value : s.value = s.transferred
  silent : s.completions = []
  moved : Moved dir b offset.toNat w s.world s.transferred

/-- A transfer that has completed with the size of the buffer. -/
structure Finished (dir : Direction) (b : Buffer) (offset : BitVec 64) (w : World) (s : Stream Error) : Prop where
  completions : s.completions = [.value b.size]
  ended : s.op.nextOp = none
  moved : Moved dir b offset.toNat w s.world b.size

theorem start_going (dir : Direction) (b : Buffer) (offset : BitVec 64) (w : World) :
    Going dir b offset w (start Error dir b offset w) where
  factory := rfl
  buffer := by simp [start,bufferedSequence,SequenceOp.connectNext]
  next := rfl
  open_ := rfl
  left := (Nat.eq_zero_or_pos b.size).symm.imp_right fun none => ⟨none,rfl⟩
  value := rfl
  silent := rfl
  moved := by cases dir <;> simp [Moved,start]

/-- The request of a transfer in progress. -/
theorem going_request (going : Going dir b offset w s) :
    s.op.nextOp = some (dir.factory (.single ⟨b.data + s.transferred,b.size - s.transferred⟩)
      (offset + BitVec.ofNat 64 s.transferred)) := by
  rw [going.next,going.buffer]

section
variable (start_ : offset.toNat < 2 ^ 63) (short : b.size < 2 ^ 32)
include start_ short

theorem going_offset (going : Going dir b offset w s) :
    (offset + BitVec.ofNat 64 s.transferred).toNat = offset.toNat + s.transferred ∧
    offset + BitVec.ofNat 64 s.transferred ≠ -1 := by
  have bound : s.transferred ≤ b.size := by have := going.left; omega
  have value : (offset + BitVec.ofNat 64 s.transferred).toNat = offset.toNat + s.transferred := by
    rw [BitVec.toNat_add,BitVec.toNat_ofNat]
    omega
  refine ⟨value,fun current => ?_⟩
  rw [current] at value
  simp at value
  omega

/-- A reported count brings the transfer on, or to its end. -/
theorem going_value (going : Going dir b offset w s) (replied : KernelReply s r) (count : r.result = .value n) :
    (Finished dir b offset w (s.step r) ∧ s.transferred + n = b.size) ∨
    Going dir b offset w (s.step r) ∧ s.transferred < (s.step r).transferred := by
  have request := going_request going
  have bound : s.transferred ≤ b.size := by have := going.left; omega
  have few : (b.size - s.transferred) % 2 ^ 32 = b.size - s.transferred := Nat.mod_eq_of_lt (by omega)
  obtain ⟨at_,absolute⟩ := going_offset start_ short going
  have counted := replied _ request n count
  rw [factory_length] at counted
  simp only [few] at counted
  have fits : n ≤ b.size - s.transferred := by split at counted <;> omega
  have kernel := moved_transfer going.moved rfl at_ absolute short fits
  have sum : (s.value + n) % 2 ^ 64 = s.transferred + n := by
    rw [going.value]
    exact Nat.mod_eq_of_lt (by omega)
  have cursor : s.op.buffer.advance n =
      ⟨.single ⟨b.data + (s.transferred + n),b.size - (s.transferred + n)⟩,
        offset + BitVec.ofNat 64 (s.transferred + n)⟩ := by
    rw [going.buffer,BufferSpan.advance]
    simp only [advance_of_le (b := ⟨b.data + s.transferred,b.size - s.transferred⟩) fits,advanceOffset,if_neg absolute]
    rw [Nat.add_assoc,Nat.sub_sub,BitVec.add_assoc,← BitVec.ofNat_add]
  by_cases last : s.transferred + n = b.size
  · left
    have empty : (s.op.buffer.advance n).data.empty = true := by
      rw [cursor]
      simp [BufferSequence.empty,last]
    simp only [Stream.step,request,count,Stream.itemComplete,SequenceOp.itemSetValue,SequenceOp.nextSetValue,empty,
      if_true,Stream.lastComplete,Stream.visitResult,sum]
    exact ⟨⟨by simp [going.silent,last],rfl,last ▸ kernel⟩,last⟩
  · right
    have more : (s.op.buffer.advance n).data.empty = false := by
      rw [cursor]
      simp only [BufferSequence.empty,decide_eq_false_iff_not]
      omega
    simp only [Stream.step,request,count,Stream.itemComplete,SequenceOp.itemSetValue,SequenceOp.nextSetValue,more,
      Bool.false_eq_true,if_false,Stream.lastComplete,SequenceOp.connectNext,going.open_,sum]
    refine ⟨⟨going.factory,cursor,by rw [going.factory],rfl,?_,rfl,going.silent,kernel⟩,?_⟩
    · left
      simp only
      omega
    · split at counted <;> omega

end

/-- A request that fails, or that is stopped, ends the transfer. -/
theorem going_failed (going : Going dir b offset w s) (failed : ∀ n, r.result ≠ .value n) :
    (s.step r).op.nextOp = none ∧ (s.step r).op.requests = s.op.requests ∧
    ∀ e, r.result = .error e → r.stopRequested = false → (s.step r).completions = [.error e] := by
  cases outcome : r.result with
  | value n => exact absurd outcome (failed n)
  | error e =>
    cases stop : r.stopRequested <;>
      simp [Stream.step,going.next,outcome,Stream.itemComplete,SequenceOp.nextSetStopped,Stream.lastComplete,
        Stream.visitResult,stop,going.silent]
  | stopped =>
    cases stop : r.stopRequested <;>
      simp [Stream.step,going.next,outcome,Stream.itemComplete,SequenceOp.nextSetStopped,Stream.lastComplete,
        Stream.visitResult,stop]

/-! ### Runs -/

theorem step_ended (ended : s.op.nextOp = none) (r : Reply Error) : s.step r = s := by
  simp [Stream.step,ended]

section
variable (start_ : offset.toNat < 2 ^ 63) (short : b.size < 2 ^ 32)
include start_ short

/-- At every moment, the transfer is in progress or ended. -/
theorem run_going (answers : Answers Stream.step KernelReply schedule (start Error dir b offset w)) (k : Nat) :
    Going dir b offset w (run Stream.step schedule (start Error dir b offset w) k) ∨
    (run Stream.step schedule (start Error dir b offset w) k).op.nextOp = none := by
  refine run_invariant (fun s => Going dir b offset w s ∨ s.op.nextOp = none) (.inl (start_going dir b offset w)) ?_ answers k
  rintro s r (going | ended) replied
  · cases outcome : r.result with
    | value n =>
      rcases going_value start_ short going replied outcome with ⟨finished,_⟩ | ⟨later,_⟩
      · exact .inr finished.ended
      · exact .inl later
    | error e => exact .inr (going_failed going (by simp [outcome])).1
    | stopped => exact .inr (going_failed going (by simp [outcome])).1
  · rw [step_ended ended]
    exact .inr ended

/-- The request in progress is the last one of those that were made. -/
theorem run_requests (answers : Answers Stream.step KernelReply schedule (start Error dir b offset w)) (k : Nat) :
    ∀ sqe ∈ (run Stream.step schedule (start Error dir b offset w) k).op.nextOp,
      (run Stream.step schedule (start Error dir b offset w) k).op.requests.length = k + 1 ∧
      (run Stream.step schedule (start Error dir b offset w) k).op.requests[k]? = some sqe := by
  induction k with
  | zero =>
    intro sqe next
    obtain rfl : _ = sqe := Option.some.inj next
    exact ⟨rfl,rfl⟩
  | succ k ih =>
    generalize before : run Stream.step schedule (start Error dir b offset w) k = s at ih
    intro sqe next
    rw [run,before] at next ⊢
    have going := (before ▸ run_going start_ short answers k).resolve_right fun ended => by
      rw [step_ended ended,ended] at next
      cases next
    obtain ⟨length,_⟩ := ih _ (going_request going)
    cases outcome : (schedule k).result with
    | value n =>
      rw [step_value_op going.next outcome] at next ⊢
      rw [nextSetValue_requests next]
      exact ⟨by simp [SequenceOp.itemSetValue,length],by simp [SequenceOp.itemSetValue,← length]⟩
    | error e => rw [(going_failed going (by simp [outcome])).1] at next; cases next
    | stopped => rw [(going_failed going (by simp [outcome])).1] at next; cases next

theorem run_transfers (answers : Answers Stream.step KernelReply schedule (start Error dir b offset w)) :
    Transfers Error dir b offset w schedule where
  requests k sqe next := by
    have going := (run_going start_ short answers k).resolve_right fun ended => by rw [ended] at next; cases next
    have bound := going.left
    refine ⟨(run_requests start_ short answers k sqe next).2,?_⟩
    obtain rfl := Option.some.inj ((going_request going).symm.trans next)
    obtain ⟨target,off⟩ := factory_target dir _ (offset + BitVec.ofNat 64
      (run Stream.step schedule (start Error dir b offset w) k).transferred)
    rw [target,off,(going_offset start_ short going).1]
    exact ⟨by rw [Nat.mod_eq_of_lt (Nat.lt_of_le_of_lt (Nat.sub_le _ _) short)],rfl⟩
  succeeds counts := by
    have both : Answers Stream.step (fun s r => KernelReply s r ∧ ∃ n, r.result = .value n) schedule
        (start Error dir b offset w) := fun k => ⟨answers k,counts k⟩
    have finishes : ∃ k, Finished dir b offset w (run Stream.step schedule (start Error dir b offset w) k) := by
      refine run_finishes (Going dir b offset w) (Finished dir b offset w) (fun s => b.size - s.transferred)
        (start_going dir b offset w) ?_ both
      rintro s r going ⟨replied,n,outcome⟩
      refine (going_value start_ short going replied outcome).imp And.left fun more => ⟨more.1,?_⟩
      have := going.left
      have := more.1.left
      omega
    obtain ⟨k,finished⟩ := finishes
    exact ⟨k,finished.completions,finished.ended,finished.moved⟩
  fails k e open_ outcome calm j later := by
    have going := (run_going start_ short answers k).resolve_right fun ended => by simp [ended] at open_
    obtain ⟨ended,requests,sent⟩ := going_failed going (r := schedule k) (by simp [outcome])
    have stays : run Stream.step schedule (start Error dir b offset w) j =
        run Stream.step schedule (start Error dir b offset w) (k + 1) := run_stays (fun r => step_ended ended r) later
    rw [stays]
    exact ⟨sent e outcome calm,requests⟩

end

/-- The kernel may always transfer as little as it can. -/
theorem exists_replies (s : Stream Error) : ∃ schedule, Answers Stream.step KernelReply schedule s := by
  obtain ⟨schedule,answers,_⟩ := exists_endless Stream.step KernelReply (fun _ => True) (s := s) trivial
    (fun s => ⟨.value (if (s.op.nextOp.map Sqe.length) = some 0 then 0 else 1),false⟩) (by
      refine fun s _ => ⟨fun sqe next n outcome => ?_,trivial⟩
      have next : s.op.nextOp = some sqe := next
      simp only [Completion.value.injEq,next,Option.map_some,Option.some.injEq] at outcome
      split at outcome <;> simp [*]; omega)
  exact ⟨schedule,answers⟩

/-- A transfer of a single buffer does what it is to do, for every schedule of the
    kernel, if and only if the length of a request can hold the size of the buffer. -/
theorem transfers_iff (dir : Direction) (b : Buffer) (offset : BitVec 64) (w : World) (start_ : offset.toNat < 2 ^ 63) :
    (∀ schedule, Answers Stream.step KernelReply schedule (start Error dir b offset w) →
      Transfers Error dir b offset w schedule) ↔ b.size < 2 ^ 32 := by
  constructor
  · intro transfers
    obtain ⟨schedule,answers⟩ := exists_replies (start Error dir b offset w)
    have first := (transfers schedule answers).requests 0 _ rfl
    have request : (dir.factory (.single b) offset).target = [⟨b.data,b.size⟩] := first.2.1
    rw [(factory_target dir b offset).1] at request
    have size : b.size % 2 ^ 32 = b.size := by simpa using request
    omega
  · exact fun short schedule answers => run_transfers start_ short answers

/-- Two bytes are read at offset 1, however the kernel splits them. -/
theorem transfers_two : (⟨8,2⟩ : Buffer).size < 2 ^ 32 ∧
    ∀ schedule, Answers Stream.step KernelReply schedule (start Nat .read ⟨8,2⟩ 1 (zeros 3)) →
      Transfers Nat .read ⟨8,2⟩ 1 (zeros 3) schedule :=
  ⟨by decide,(transfers_iff .read ⟨8,2⟩ 1 (zeros 3) (by decide)).mpr (by decide)⟩

/-- A read of 2^32 bytes asks for none of them, again and again. -/
theorem read_of_four_gibibytes_is_endless : ∃ schedule,
    Answers Stream.step KernelReply schedule (start Nat .read ⟨0,2 ^ 32⟩ 0 (zeros (2 ^ 32))) ∧
    (∀ k, ∃ n, (schedule k).result = .value n) ∧
    ∀ k, (run Stream.step schedule (start Nat .read ⟨0,2 ^ 32⟩ 0 (zeros (2 ^ 32))) k).completions = [] := by
  refine (exists_endless Stream.step (fun s r => KernelReply s r ∧ ∃ n, r.result = .value n)
    (fun s => s.op.factory = readFactory ∧ s.op.buffer = ⟨.single ⟨0,2 ^ 32⟩,0⟩ ∧
      s.op.nextOp = some (readFactory (.single ⟨0,2 ^ 32⟩) 0) ∧ s.op.completion = none ∧ s.completions = [])
    ⟨rfl,rfl,rfl,rfl,rfl⟩ (fun _ => ⟨.value 0,false⟩) ?_).imp
    fun schedule runs => ⟨fun k => (runs.1 k).1,fun k => (runs.1 k).2,fun k => (runs.2 k).2.2.2.2⟩
  rintro s ⟨factory,buffer,next,open_,silent⟩
  have none : (readFactory (.single ⟨0,2 ^ 32⟩) 0).length = 0 := by decide
  refine ⟨⟨fun sqe request n outcome => ?_,0,rfl⟩,?_⟩
  · obtain rfl := Option.some.inj (next.symm.trans request)
    rw [if_pos none]
    exact (Completion.value.inj outcome).symm
  · simp only [Stream.step,next,Stream.itemComplete,SequenceOp.itemSetValue,SequenceOp.nextSetValue,buffer,
      SequenceOp.connectNext,Stream.lastComplete,open_,advance_none,factory]
    exact ⟨rfl,rfl,rfl,rfl,silent⟩

end SendersIo.ByteStream
