import SendersIo.CurrentPosition
import SendersIo.ReadSome
import SendersIo.Subspans

/-!
The programs that echo what they read: `echo`, which copies the standard input to the standard
output, and `echo_input`, which the echo server runs for a connection. They read some bytes
into a buffer, write all of them, and go on until a read gets none. A stream delivers every
byte once. A regular file is read at offset zero every time, so that its first bytes are
written for ever.
-/
namespace SendersIo.Echo
open SendersIo.Buffers SendersIo.Bytes SendersIo.FileHandle SendersIo.Signals SendersIo.Schedules
open SendersIo.BufferedSequence SendersIo.ByteStream SendersIo.CurrentPosition

/-- What the input is: a stream delivers its bytes in order, whatever the offset of a request is. -/
inductive Kind where
  | stream
  | file
  deriving DecidableEq

/-- The input, and the place of its next byte. -/
structure Input where
  kind : Kind
  content : File
  position : Nat

/-- Where a request reads. -/
def Input.place (input : Input) (sqe : Sqe) : Nat :=
  if input.kind = .file ∧ sqe.off ≠ -1 then sqe.off.toNat else input.position

/-- The input after a request got `n` bytes. -/
def Input.advance (input : Input) (sqe : Sqe) (n : Nat) : Input :=
  if input.kind = .file ∧ sqe.off ≠ -1 then input else { input with position := input.position + n }

/-- The bytes of the input from a place on, up to `n` of them. -/
def Input.section (input : Input) (p n : Nat) : List UInt8 := bytesAt input.content.bytes (List.range' p n)

inductive Program where
  | echo
  | echoInput
  deriving DecidableEq

/-- The size of the buffer of the program. -/
def Program.bufferSize : Program → Nat
  | .echo => 64
  | .echoInput => 1024

/-- What a program waits for, or how it has ended. -/
inductive Await (Error : Type) where
  | readSome
  | write (nbytes : Nat) (op : Stream Error)
  | done (completion : Signal Error)
  | shortWrite

/-- A program with its buffer, its input and its output. The world is that of the output when no
    write is in progress; `received` is what the reads have got. -/
structure Loop (Error : Type) where
  program : Program
  address : Nat
  input : Input
  world : World
  await : Await Error
  received : List UInt8

variable {Error : Type}

/-- `buffer`. -/
def Loop.buffer (l : Loop Error) : Buffer := ⟨l.address,l.program.bufferSize⟩

/-- The request of `read_some`. -/
def Loop.request (l : Loop Error) : Sqe := ReadSome.readSome l.buffer

/-- The output, also while it is written to. -/
def Loop.output (l : Loop Error) : World :=
  match l.await with
  | .write _ op => op.world
  | _ => l.world

/-- What follows a write: `echo` compares the number of bytes, `echo_input` stops after a write of
    none. -/
def Program.afterWrite (program : Program) (nbytes written : Nat) : Await Error :=
  match program with
  | .echo => if written ≠ nbytes then .shortWrite else .readSome
  | .echoInput => if written = 0 then .done (.value ()) else .readSome

/-- `read_some` has got `n` bytes: a program writes them, and ends if there are none. -/
def Loop.afterRead (l : Loop Error) (n : Nat) : Loop Error :=
  let world := { l.world with
    memory := fill l.input.content.bytes l.request.target (l.input.place l.request) n l.world.memory }
  { l with
    input := l.input.advance l.request n
    world
    received := l.received ++ l.input.section (l.input.place l.request) n
    await :=
      if n = 0 then .done (.value ())
      else .write n (begin Error .write (.single (Subspans.Buffer.prefixOf l.buffer n)) world) }

/-- The kernel completes the request that the program waits for. -/
def Loop.step (l : Loop Error) (r : Reply Error) : Loop Error :=
  match l.await with
  | .readSome =>
    match r.result with
    | .value n => l.afterRead n
    | .error e => { l with await := .done (.error e) }
    | .stopped => { l with await := .done .stopped }
  | .write nbytes op =>
    let op := op.step r
    match op.completions with
    | [] => { l with await := .write nbytes op }
    | .value written :: _ => { l with world := op.world, await := l.program.afterWrite nbytes written }
    | .error e :: _ => { l with world := op.world, await := .done (.error e) }
    | .stopped :: _ => { l with world := op.world, await := .done .stopped }
  | .done _ => l
  | .shortWrite => l

/-- A program, started. -/
def start (Error : Type) (program : Program) (address : Nat) (input : Input) (w : World) : Loop Error :=
  ⟨program,address,input,w,.readSome,[]⟩

/-- A read gets at least one byte, unless it is at the end of the input; the writes are those of
    `KernelCounts`. -/
def KernelReplies (l : Loop Error) (r : Reply Error) : Prop :=
  match l.await with
  | .readSome => ∀ n, r.result = .value n →
    if l.input.content.size ≤ l.input.place l.request then n = 0
    else 1 ≤ n ∧ n ≤ l.request.length ∧ l.input.place l.request + n ≤ l.input.content.size
  | .write _ op => KernelCounts .write op r
  | _ => True

/-- The bytes were written at the position, and no other byte of the file has changed. -/
structure Appended (w w' : World) (l : List UInt8) : Prop where
  position : w'.position = w.position + l.length
  content : bytesAt w'.file.bytes (List.range' w.position l.length) = l
  others : ∀ x, x < w.position ∨ w.position + l.length ≤ x → w'.file.bytes x = w.file.bytes x
  size : w'.file.size = if l = [] then w.file.size else max w.file.size (w.position + l.length)

variable {program : Program} {address : Nat} {input : Input} {w w' w'' : World} {l : Loop Error} {r : Reply Error}
  {schedule : Nat → Reply Error} {n t : Nat} {out out' : List UInt8} {b : Buffer} {s : Stream Error}

/-! ### The output -/

theorem appended_nil (w : World) (memory : Store) : Appended w { w with memory } [] :=
  ⟨rfl,rfl,fun _ _ => rfl,rfl⟩

theorem Appended.trans (first : Appended w w' out) (second : Appended w' w'' out') : Appended w w'' (out ++ out') where
  position := by rw [second.position,first.position,List.length_append,Nat.add_assoc]
  content := by
    rw [List.length_append,range_append,bytesAt_append,← first.position,second.content]
    congr 1
    refine (bytesAt_congr fun x member => second.others x (.inl ?_)).trans first.content
    rw [List.mem_range'_1,← first.position] at member
    exact member.2
  others x outside := by
    rw [List.length_append] at outside
    have := first.position
    rw [second.others x (by omega),first.others x (by omega)]
  size := by
    have position := first.position
    rw [second.size,first.size,List.length_append]
    by_cases none : out = []
    · subst none
      simp only [List.length_nil,Nat.add_zero] at position
      simp [position]
    · by_cases none' : out' = []
      · simp [none,none']
      · rw [if_neg none,if_neg none',if_neg (by simp [none]),position]
        omega

/-- Bytes that are only read do not change the output. -/
theorem Appended.memory (appended : Appended w w' out) (memory : Store) : Appended w { w' with memory } out :=
  ⟨appended.position,appended.content,appended.others,appended.size⟩

/-- What a write of a buffer has written so far. -/
theorem appended_of_moved (moved : Moved .write (.single b) w w' t) : Appended w w' (bytesAt w.memory (List.range' b.data t)) := by
  have bound : t ≤ b.size := CurrentPosition.Moved.le moved
  obtain ⟨position,content,others,_,size⟩ := moved
  have first : (BufferCursor.bytes (.single b)).take t = List.range' b.data t := by
    rw [BufferCursor.bytes,take_places,Nat.min_eq_left bound]
  have length : (bytesAt w.memory (List.range' b.data t)).length = t := by rw [bytesAt_length,List.length_range']
  have empty : bytesAt w.memory (List.range' b.data t) = [] ↔ t = 0 := by
    rw [← List.length_eq_zero_iff,length]
  rw [first] at content
  refine ⟨by rw [length,position],by rw [length,content],by rwa [length],?_⟩
  rw [length,size]
  by_cases none : t = 0
  · rw [if_pos none,if_pos (empty.mpr none)]
  · rw [if_neg none,if_neg fun nothing => none (empty.mp nothing)]

/-! ### A write in progress -/

/-- A write of a buffer that has not got to its end. -/
structure Writing (b : Buffer) (w : World) (s : Stream Error) : Prop where
  going : Going .write (.single b) w s
  single : s.op.buffer.data = .single ⟨b.data + s.transferred,b.size - s.transferred⟩
  more : s.transferred < b.size

theorem begin_writing (w : World) (some : b.size ≠ 0) : Writing b w (begin Error .write (.single b) w) where
  going := begin_going .write (.single b) w
  single := rfl
  more := Nat.pos_of_ne_zero some

/-- A write that goes on transfers at least one byte, and one that ends has transferred all. -/
theorem writing_value (writing : Writing b w s) (short : b.size < 2 ^ 32) (replied : KernelCounts .write s r)
    (count : r.result = .value n) : Finished .write (.single b) w (s.step r) ∨
    Writing b w (s.step r) ∧ s.transferred < (s.step r).transferred := by
  have small : bytesLeft (.single b) < 2 ^ 63 := by
    simp only [bytesLeft]
    omega
  have later := going_value small (by simp) writing.going replied count
  have counted := replied _ writing.going.next n count
  have fits := going_fits writing.going replied count
  have more := writing.more
  have length : nextLength s.op.buffer.data = b.size - s.transferred := by
    rw [writing.single,nextLength]
    exact Nat.mod_eq_of_lt (show b.size - s.transferred < 2 ^ 32 by omega)
  rw [length] at fits
  rw [length_request,length,if_neg (by simp; omega)] at counted
  split at later
  · exact .inl later
  · next left =>
    obtain ⟨going,buffer,transferred⟩ := later
    have single : (s.step r).op.buffer.data =
        .single ⟨b.data + (s.step r).transferred,b.size - (s.step r).transferred⟩ := by
      rw [buffer,BufferSpan.advance,writing.single]
      simp only [advance_of_le (b := ⟨b.data + s.transferred,b.size - s.transferred⟩) fits]
      rw [transferred,Nat.add_assoc,Nat.sub_sub]
    refine .inr ⟨⟨going,single,?_⟩,by omega⟩
    rw [← buffer,single] at left
    simp only [BufferSequence.empty,decide_eq_true_eq] at left
    omega

/-! ### The loop -/

/-- Where a program stands: it has written what it has read, but for what is left of the write in
    progress; and if it has failed, but for what was left then. -/
inductive Stands (w : World) (l : Loop Error) : Prop
  | reading : l.await = .readSome → Appended w l.world l.received → Stands w l
  | writing {op : Stream Error} {nbytes : Nat} {before : List UInt8} : l.await = .write nbytes op →
      Writing ⟨l.address,nbytes⟩ l.world op → nbytes ≤ l.program.bufferSize → Appended w l.world before →
      l.received = before ++ bytesAt l.world.memory (List.range' l.address nbytes) → Stands w l
  | returned : l.await = .done (.value ()) → Appended w l.world l.received →
      l.input.content.size ≤ l.input.place l.request → Stands w l
  | failed {completion : Signal Error} {out : List UInt8} : l.await = .done completion → completion ≠ .value () →
      Appended w l.world out → out <+: l.received → Stands w l

theorem bufferSize_le (program : Program) : program.bufferSize ≤ 1024 := by
  cases program <;> decide

theorem request_target (l : Loop Error) : l.request.target = [⟨l.address,l.program.bufferSize⟩] := by
  have small : l.program.bufferSize < 4294967296 := Nat.lt_of_le_of_lt (bufferSize_le _) (by decide)
  simp [Loop.request,Loop.buffer,ReadSome.readSome,readSubmissionSingle,submitSingle,Sqe.target,small]

theorem request_length (l : Loop Error) : l.request.length = l.program.bufferSize := by
  rw [Sqe.length,request_target,total_cons,total_nil]
  rfl

theorem prefixOf_of_le (fits : n ≤ b.size) : Subspans.Buffer.prefixOf b n = ⟨b.data,n⟩ := by
  unfold Subspans.Buffer.prefixOf
  split
  · obtain rfl : n = b.size := by omega
    rfl
  · rfl

/-- The buffer holds what was read. -/
theorem bytesAt_fill (l : Loop Error) (file : Store) (p : Nat) (fits : n ≤ l.program.bufferSize) :
    bytesAt (fill file l.request.target p n l.world.memory) (List.range' l.address n) = bytesAt file (List.range' p n) := by
  rw [request_target,fill,fill,Nat.min_eq_left fits,bytesAt_copy]

/-- What the kernel may report for a `read_some`. -/
theorem read_allowed (replied : KernelReplies l r) (reads : l.await = .readSome) (count : r.result = .value n) :
    if l.input.content.size ≤ l.input.place l.request then n = 0
    else 1 ≤ n ∧ n ≤ l.request.length ∧ l.input.place l.request + n ≤ l.input.content.size := by
  simp only [KernelReplies,reads] at replied
  exact replied n count

theorem afterRead_stands (stands : Appended w l.world l.received) (replied : KernelReplies l r) (reading : l.await = .readSome)
    (count : r.result = .value n) : Stands w (l.afterRead n) := by
  have allowed := read_allowed replied reading count
  split at allowed
  · next ended =>
    subst allowed
    have nothing : l.input.section (l.input.place l.request) 0 = [] := rfl
    have same : (l.input.advance l.request 0).place l.request = l.input.place l.request := by
      unfold Input.advance
      split <;> rfl
    refine .returned rfl ?_ ?_
    · simp only [Loop.afterRead,nothing,List.append_nil]
      exact stands.memory _
    · have content : (l.input.advance l.request 0).content = l.input.content := by
        unfold Input.advance
        split <;> rfl
      simp only [Loop.afterRead,Loop.request,Loop.buffer,ReadSome.readSome]
      exact (content.symm ▸ same.symm ▸ ended)
  · obtain ⟨some,fits,_⟩ := allowed
    rw [request_length] at fits
    have chunk : Subspans.Buffer.prefixOf l.buffer n = ⟨l.address,n⟩ := prefixOf_of_le fits
    have starts := @begin_writing Error ⟨l.address,n⟩
    refine .writing ?_ (starts _ (show n ≠ 0 by omega)) fits (stands.memory _) ?_
    · simp only [Loop.afterRead,if_neg (show n ≠ 0 by omega),chunk]
    · simp only [Loop.afterRead]
      rw [bytesAt_fill l _ _ fits]
      rfl

theorem afterWrite_all (program : Program) (some : n ≠ 0) : (program.afterWrite n n : Await Error) = .readSome := by
  cases program <;> simp [Program.afterWrite,some]

theorem stands_failed {completion : Signal Error} (other : completion ≠ .value ()) (appended : Appended w w' out)
    (start : out <+: l.received) : Stands w { l with world := w', await := .done completion } :=
  .failed rfl other appended start

section
variable {op : Stream Error} {nbytes : Nat} {before : List UInt8}

/-- What a write in progress has written of what was read. -/
theorem writing_partly (writing : Writing ⟨l.address,nbytes⟩ l.world op) (appended : Appended w l.world before)
    (received : l.received = before ++ bytesAt l.world.memory (List.range' l.address nbytes)) :
    ∃ out, out <+: l.received ∧ Appended w op.world out := by
  refine ⟨_,?_,appended.trans (appended_of_moved writing.going.moved)⟩
  have more : op.transferred < nbytes := writing.more
  rw [received,show nbytes = op.transferred + (nbytes - op.transferred) by omega,range_append,bytesAt_append,
    ← List.append_assoc]
  exact List.prefix_append _ _

theorem write_failed_stands (writes : l.await = .write nbytes op) (writing : Writing ⟨l.address,nbytes⟩ l.world op)
    (appended : Appended w l.world before)
    (received : l.received = before ++ bytesAt l.world.memory (List.range' l.address nbytes))
    (failed : ∀ n, r.result ≠ .value n) : Stands w (l.step r) := by
  obtain ⟨_,world,_,completions⟩ := going_failed writing.going failed
  obtain ⟨out,start,partly⟩ := writing_partly writing appended received
  have stopped : (op.step r).completions = [.stopped] → Stands w (l.step r) := by
    intro completions
    have ended : l.step r = { l with world := op.world, await := .done .stopped } := by
      simp only [Loop.step,writes,completions,world]
    rw [ended]
    exact stands_failed (by simp) partly start
  cases outcome : r.result with
  | value n => exact absurd outcome (failed n)
  | error e =>
    rw [outcome] at completions
    cases stop : r.stopRequested with
    | true => exact stopped (by simpa [stop] using completions)
    | false =>
      have ended : l.step r = { l with world := op.world, await := .done (.error e) } := by
        simp [Loop.step,writes,completions,stop,world]
      rw [ended]
      exact stands_failed (by simp) partly start
  | stopped =>
    rw [outcome,ite_self] at completions
    exact stopped completions

/-- A reported count brings a write on, or to its end. -/
theorem write_value (writes : l.await = .write nbytes op) (writing : Writing ⟨l.address,nbytes⟩ l.world op)
    (fits : nbytes ≤ l.program.bufferSize) (replied : KernelReplies l r) (count : r.result = .value n) :
    (Finished .write (.single ⟨l.address,nbytes⟩) l.world (op.step r) ∧
      l.step r = { l with world := (op.step r).world, await := .readSome }) ∨
    (Writing ⟨l.address,nbytes⟩ l.world (op.step r) ∧ op.transferred < (op.step r).transferred ∧
      l.step r = { l with await := .write nbytes (op.step r) }) := by
  have replied : KernelCounts .write op r := by simpa only [KernelReplies,writes] using replied
  have short : nbytes < 2 ^ 32 := Nat.lt_of_le_of_lt (fits.trans (bufferSize_le _)) (by decide)
  have more : op.transferred < nbytes := writing.more
  refine (writing_value writing short replied count).imp (fun finished => ⟨finished,?_⟩) fun later => ⟨later.1,later.2,?_⟩
  · have completions : (op.step r).completions = [.value nbytes] := finished.completions
    simp only [Loop.step,writes,completions,afterWrite_all l.program (show nbytes ≠ 0 by omega)]
  · simp only [Loop.step,writes,later.1.going.silent]

theorem write_stands (writes : l.await = .write nbytes op) (writing : Writing ⟨l.address,nbytes⟩ l.world op)
    (fits : nbytes ≤ l.program.bufferSize) (appended : Appended w l.world before)
    (received : l.received = before ++ bytesAt l.world.memory (List.range' l.address nbytes))
    (replied : KernelReplies l r) : Stands w (l.step r) := by
  cases outcome : r.result with
  | value n =>
    rcases write_value writes writing fits replied outcome with ⟨finished,ended⟩ | ⟨later,_,goes⟩
    · rw [ended]
      refine .reading rfl ?_
      rw [received]
      exact appended.trans (appended_of_moved finished.moved)
    · rw [goes]
      exact .writing rfl later fits appended received
  | error e => exact write_failed_stands writes writing appended received (by simp [outcome])
  | stopped => exact write_failed_stands writes writing appended received (by simp [outcome])

end

theorem step_stands (stands : Stands w l) (replied : KernelReplies l r) : Stands w (l.step r) := by
  cases stands with
  | reading reads appended =>
    cases outcome : r.result with
    | value n =>
      have next := afterRead_stands appended replied reads outcome
      simpa only [Loop.step,reads,outcome] using next
    | error e =>
      have ended : l.step r = { l with world := l.world, await := .done (.error e) } := by
        simp only [Loop.step,reads,outcome]
      rw [ended]
      exact stands_failed (by simp) appended List.prefix_rfl
    | stopped =>
      have ended : l.step r = { l with world := l.world, await := .done .stopped } := by
        simp only [Loop.step,reads,outcome]
      rw [ended]
      exact stands_failed (by simp) appended List.prefix_rfl
  | writing writes writing fits appended received => exact write_stands writes writing fits appended received replied
  | returned done appended ended =>
    have same : l.step r = l := by simp only [Loop.step,done]
    rw [same]
    exact .returned done appended ended
  | failed done other appended start =>
    have same : l.step r = l := by simp only [Loop.step,done]
    rw [same]
    exact .failed done other appended start

/-- The output begins with what was read. -/
theorem stands_output (stands : Stands w l) : ∃ out, out <+: l.received ∧ Appended w l.output out := by
  cases stands with
  | reading reads appended => exact ⟨_,List.prefix_rfl,by simpa only [Loop.output,reads] using appended⟩
  | writing writes writing fits appended received =>
    simpa only [Loop.output,writes] using writing_partly writing appended received
  | returned done appended _ => exact ⟨_,List.prefix_rfl,by simpa only [Loop.output,done] using appended⟩
  | failed done _ appended start => exact ⟨_,start,by simpa only [Loop.output,done] using appended⟩

/-- What a step does to the input. -/
theorem step_input (l : Loop Error) (r : Reply Error) : (l.step r).program = l.program ∧
    (((l.step r).input = l.input ∧ (l.step r).received = l.received) ∨
    ∃ n, l.await = .readSome ∧ r.result = .value n ∧ (l.step r).input = l.input.advance l.request n ∧
      (l.step r).received = l.received ++ l.input.section (l.input.place l.request) n) := by
  unfold Loop.step
  split
  · next reads =>
    split
    · next n outcome => exact ⟨rfl,.inr ⟨n,reads,outcome,rfl,rfl⟩⟩
    · exact ⟨rfl,.inl ⟨rfl,rfl⟩⟩
    · exact ⟨rfl,.inl ⟨rfl,rfl⟩⟩
  · simp only
    split <;> exact ⟨rfl,.inl ⟨rfl,rfl⟩⟩
  · exact ⟨rfl,.inl ⟨rfl,rfl⟩⟩
  · exact ⟨rfl,.inl ⟨rfl,rfl⟩⟩

/-! ### Streams -/

/-- The bytes that a stream has left. -/
def Input.rest (input : Input) : List UInt8 := input.section input.position (input.content.size - input.position)

/-- The bytes that were read from a stream are the first ones that it had left. -/
structure Streamed (input : Input) (l : Loop Error) : Prop where
  moved : l.input = { input with position := input.position + l.received.length }
  received : l.received = input.section input.position l.received.length
  within : input.position + l.received.length ≤ input.content.size

theorem length_section (input : Input) (p n : Nat) : (input.section p n).length = n := by
  rw [Input.section,bytesAt_length,List.length_range']

theorem section_append (input : Input) (p n m : Nat) :
    input.section p (n + m) = input.section p n ++ input.section (p + n) m := by
  rw [Input.section,range_append,bytesAt_append]
  rfl

theorem place_file (l : Loop Error) (file : l.input.kind = .file) : l.input.place l.request = 0 := by
  simp [Input.place,file,Loop.request,ReadSome.readSome,readSubmissionSingle,submitSingle]

theorem advance_file (l : Loop Error) (file : l.input.kind = .file) (n : Nat) : l.input.advance l.request n = l.input := by
  simp [Input.advance,file,Loop.request,ReadSome.readSome,readSubmissionSingle,submitSingle]

section
variable (once : input.kind = .stream ∨ input.content.size = 0)
include once

/-- A stream is read where the reads before have left it, and so is an empty file. -/
theorem streamed_place (streamed : Streamed input l) : l.input.place l.request = l.input.position := by
  have within := streamed.within
  have position : l.input.position = input.position + l.received.length := by rw [streamed.moved]
  by_cases kind : l.input.kind = .file
  · rw [place_file l kind,position]
    have same : input.kind = l.input.kind := by rw [streamed.moved]
    have empty := once.resolve_left (by simp [same,kind])
    omega
  · simp [Input.place,kind]

theorem streamed_advance (streamed : Streamed input l) (few : l.input.position + n ≤ l.input.content.size) :
    l.input.advance l.request n = { l.input with position := l.input.position + n } := by
  by_cases kind : l.input.kind = .file
  · have same : input.kind = l.input.kind := by rw [streamed.moved]
    have content : l.input.content = input.content := by rw [streamed.moved]
    have empty := once.resolve_left (by simp [same,kind])
    obtain rfl : n = 0 := by
      rw [content] at few
      omega
    exact advance_file l kind 0
  · simp [Input.advance,kind]

/-- What the kernel may report is within the stream. -/
theorem streamed_allowed (streamed : Streamed input l) (replied : KernelReplies l r) (reads : l.await = .readSome)
    (count : r.result = .value n) : l.input.position + n ≤ l.input.content.size ∧
      (n = 0 ↔ l.input.content.size ≤ l.input.position) := by
  have within := streamed.within
  have allowed := read_allowed replied reads count
  have position : l.input.position = input.position + l.received.length := by rw [streamed.moved]
  have content : l.input.content = input.content := by rw [streamed.moved]
  rw [streamed_place once streamed] at allowed
  rw [content] at allowed ⊢
  split at allowed <;> omega

theorem step_streamed (streamed : Streamed input l) (replied : KernelReplies l r) : Streamed input (l.step r) := by
  rcases (step_input l r).2 with ⟨same,kept⟩ | ⟨n,reads,count,moved,grown⟩
  · exact ⟨by rw [same,kept]; exact streamed.moved,by rw [kept]; exact streamed.received,by rw [kept]; exact streamed.within⟩
  · have position : l.input.position = input.position + l.received.length := by rw [streamed.moved]
    have content : l.input.content = input.content := by rw [streamed.moved]
    obtain ⟨few,_⟩ := streamed_allowed once streamed replied reads count
    rw [streamed_place once streamed] at grown
    have length : (l.step r).received.length = l.received.length + n := by
      rw [grown,List.length_append,length_section]
    refine ⟨?_,?_,?_⟩
    · rw [moved,streamed_advance once streamed few,length,streamed.moved,Nat.add_assoc]
    · rw [length,grown,section_append,← streamed.received,← position,Input.section,content]
      rfl
    · rw [content] at few
      rw [length]
      omega

end

/-- What the echo of a stream is to do, whatever the kernel replies: at every moment the output
    is a beginning of the stream; the program returns only when it has written all of it; no
    write is short; and if no request fails, the program returns. -/
structure Echoes (program : Program) (address : Nat) (input : Input) (w : World) (schedule : Nat → Reply Error) : Prop where
  output : ∀ k, ∃ out, out <+: input.rest ∧
    Appended w (run Loop.step schedule (start Error program address input w) k).output out
  returned : ∀ k, (run Loop.step schedule (start Error program address input w) k).await = .done (.value ()) →
    Appended w (run Loop.step schedule (start Error program address input w) k).output input.rest
  complete : ∀ k, (run Loop.step schedule (start Error program address input w) k).await ≠ .shortWrite
  returns : (∀ k, ∃ n, (schedule k).result = .value n) →
    ∃ k, (run Loop.step schedule (start Error program address input w) k).await = .done (.value ())

theorem start_stands (program : Program) (address : Nat) (input : Input) (w : World) :
    Stands w (start Error program address input w) := .reading rfl (appended_nil w w.memory)

theorem run_stands (answers : Answers Loop.step KernelReplies schedule (start Error program address input w)) (k : Nat) :
    Stands w (run Loop.step schedule (start Error program address input w) k) :=
  run_invariant (Stands w) (start_stands program address input w) (fun _ _ => step_stands) answers k

theorem stands_complete (stands : Stands w l) : l.await ≠ .shortWrite := by
  cases stands <;> simp [*]

theorem section_prefix (input : Input) (p : Nat) {m : Nat} (few : n ≤ m) : input.section p n <+: input.section p m := by
  rw [show m = n + (m - n) by omega,section_append]
  exact List.prefix_append _ _

/-- The steps of the echo of a stream that are still to come, at most. -/
def stepsLeft (l : Loop Error) : Nat :=
  2 * (l.input.content.size - l.input.position) +
    match l.await with
    | .readSome => 1
    | .write nbytes op => nbytes - op.transferred + 1
    | _ => 0

/-- A program that has not ended gets on with every count. -/
theorem step_progress (once : input.kind = .stream ∨ input.content.size = 0) (stands : Stands w l) (streamed : Streamed input l)
    (open_ : ∀ completion, l.await ≠ .done completion) (replied : KernelReplies l r) (count : r.result = .value n) :
    (l.step r).await = .done (.value ()) ∨
    (∀ completion, (l.step r).await ≠ .done completion) ∧ stepsLeft (l.step r) < stepsLeft l := by
  cases stands with
  | reading reads _ =>
    have goes : l.step r = l.afterRead n := by simp only [Loop.step,reads,count]
    obtain ⟨few,_⟩ := streamed_allowed once streamed replied reads count
    rw [goes]
    by_cases none : n = 0
    · exact .inl (by simp only [Loop.afterRead,if_pos none])
    · right
      have moved := streamed_advance once streamed few
      refine ⟨by simp [Loop.afterRead,none],?_⟩
      simp only [stepsLeft,Loop.afterRead,if_neg none,reads,moved,begin]
      omega
  | writing writes writing fits _ _ =>
    have more := writing.more
    simp only at more
    rcases write_value writes writing fits replied count with ⟨_,ended⟩ | ⟨_,less,goes⟩
    · rw [ended]
      refine .inr ⟨by simp,?_⟩
      simp only [stepsLeft,writes]
      omega
    · rw [goes]
      refine .inr ⟨by simp,?_⟩
      simp only [stepsLeft,writes]
      omega
  | returned done _ _ => exact absurd done (open_ _)
  | failed done _ _ _ => exact absurd done (open_ _)

theorem start_streamed (program : Program) (address : Nat) (w : World) (within : input.position ≤ input.content.size) :
    Streamed input (start Error program address input w) := ⟨rfl,rfl,within⟩

theorem run_echoes (once : input.kind = .stream ∨ input.content.size = 0) (within : input.position ≤ input.content.size)
    (answers : Answers Loop.step KernelReplies schedule (start Error program address input w)) :
    Echoes program address input w schedule := by
  have streamed : ∀ k, Streamed input (run Loop.step schedule (start Error program address input w) k) :=
    run_invariant (Streamed input) (start_streamed program address w within) (fun _ _ => step_streamed once) answers
  refine ⟨fun k => ?_,fun k returned => ?_,fun k => stands_complete (run_stands answers k),fun counts => ?_⟩
  · obtain ⟨out,start,appended⟩ := stands_output (run_stands answers k)
    refine ⟨out,start.trans ?_,appended⟩
    rw [(streamed k).received]
    exact section_prefix input _ (by have := (streamed k).within; omega)
  · have held := streamed k
    cases run_stands answers k with
    | reading reads _ => simp [returned] at reads
    | writing writes _ _ _ _ => simp [returned] at writes
    | returned done appended ended =>
      rw [streamed_place once held,held.moved] at ended
      have all := held.within
      simp only at ended
      have rest : input.rest = (run Loop.step schedule (start Error program address input w) k).received := by
        rw [held.received,Input.rest]
        congr 1
        omega
      rw [rest]
      simpa only [Loop.output,done] using appended
    | failed done other _ _ =>
      rw [returned] at done
      exact absurd (Await.done.inj done).symm other
  · have both : Answers Loop.step (fun l r => KernelReplies l r ∧ ∃ n, r.result = .value n) schedule
        (start Error program address input w) := fun k => ⟨answers k,counts k⟩
    refine run_finishes (fun l => Stands w l ∧ Streamed input l ∧ ∀ completion, l.await ≠ .done completion)
      (fun l => l.await = .done (.value ())) stepsLeft
      ⟨start_stands program address input w,start_streamed program address w within,by simp [start]⟩ ?_ both
    rintro l r ⟨stands,streamed,open_⟩ ⟨replied,n,count⟩
    refine (step_progress once stands streamed open_ replied count).imp id fun later => ⟨?_,later.2⟩
    exact ⟨step_stands stands replied,step_streamed once streamed replied,later.1⟩

/-! ### Regular files -/

/-- What was read from a regular file is its first bytes, again and again. -/
structure Repeats (program : Program) (input : Input) (l : Loop Error) : Prop where
  same : l.program = program ∧ l.input = input
  received : ∃ counts : List Nat, (∀ n ∈ counts, 1 ≤ n ∧ n ≤ min program.bufferSize input.content.size) ∧
    l.received = counts.flatMap (input.section 0)

theorem step_repeats (file : input.kind = .file) (repeats : Repeats program input l) (replied : KernelReplies l r) :
    Repeats program input (l.step r) := by
  obtain ⟨⟨program_same,input_same⟩,counts,few,received⟩ := repeats
  have kind : l.input.kind = .file := by rw [input_same]; exact file
  obtain ⟨kept,⟨same,unread⟩ | ⟨n,reads,count,moved,grown⟩⟩ := step_input l r
  · exact ⟨⟨kept.trans program_same,same.trans input_same⟩,counts,few,unread.trans received⟩
  · rw [advance_file l kind] at moved
    have allowed := read_allowed replied reads count
    rw [place_file l kind] at allowed grown
    rw [request_length,program_same,input_same] at allowed
    refine ⟨⟨kept.trans program_same,moved.trans input_same⟩,?_⟩
    by_cases none : n = 0
    · subst none
      exact ⟨counts,few,by rw [grown,← received]; exact List.append_nil _⟩
    · rw [if_neg fun empty => none (by rwa [if_pos empty] at allowed)] at allowed
      refine ⟨counts ++ [n],?_,by rw [grown,received,List.flatMap_append,input_same]; simp⟩
      intro m member
      rcases List.mem_append.mp member with before | last
      · exact few m before
      · rw [List.mem_singleton.mp last]
        omega

/-- What the program has read and written. -/
def work (l : Loop Error) : Nat := l.output.position + l.received.length

/-- The echo of a regular file that has a byte goes on with every count. -/
theorem step_works (file : l.input.kind = .file) (some : 0 < l.input.content.size) (stands : Stands w l)
    (open_ : ∀ completion, l.await ≠ .done completion) (replied : KernelReplies l r) (count : r.result = .value n) :
    (∀ completion, (l.step r).await ≠ .done completion) ∧ work l < work (l.step r) := by
  cases stands with
  | reading reads _ =>
    have goes : l.step r = l.afterRead n := by simp only [Loop.step,reads,count]
    have allowed := read_allowed replied reads count
    rw [place_file l file,if_neg (by omega)] at allowed
    have more : n ≠ 0 := by omega
    rw [goes]
    refine ⟨by simp [Loop.afterRead,more],?_⟩
    simp only [work,Loop.output,Loop.afterRead,if_neg more,reads,begin,List.length_append,length_section]
    omega
  | writing writes writing fits _ _ =>
    have position := (going_world writing.going).1
    rcases write_value writes writing fits replied count with ⟨finished,ended⟩ | ⟨later,less,goes⟩
    · have more := writing.more
      have all : (_ : Stream Error).world.position = l.world.position + _ := finished.moved.position
      rw [ended]
      refine ⟨by simp,?_⟩
      simp only [work,Loop.output,writes,all,bytesLeft]
      simp only at more
      omega
    · have position' := (going_world later.going).1
      rw [goes]
      refine ⟨by simp,?_⟩
      simp only [work,Loop.output,writes]
      omega
  | returned done _ _ => exact absurd done (open_ _)
  | failed done _ _ _ => exact absurd done (open_ _)

/-- A program that has not ended has written what it has read but for what its buffer holds. -/
theorem received_le (stands : Stands w l) (open_ : ∀ completion, l.await ≠ .done completion) :
    w.position + l.received.length ≤ l.output.position + 1024 := by
  cases stands with
  | reading reads appended =>
    simp only [Loop.output,reads,appended.position]
    omega
  | writing writes writing fits appended received =>
    have position := (going_world writing.going).1
    have small := fits.trans (bufferSize_le _)
    simp only [Loop.output,writes,received,List.length_append,bytesAt_length,List.length_range']
    have := appended.position
    omega
  | returned done _ _ => exact absurd done (open_ _)
  | failed done _ _ _ => exact absurd done (open_ _)

section
variable (file : input.kind = .file)
include file

theorem run_repeats (answers : Answers Loop.step KernelReplies schedule (start Error program address input w)) (k : Nat) :
    Repeats program input (run Loop.step schedule (start Error program address input w) k) :=
  run_invariant (Repeats program input) ⟨⟨rfl,rfl⟩,[],by simp,rfl⟩ (fun _ _ => step_repeats file) answers k

theorem run_works (some : 0 < input.content.size)
    (answers : Answers Loop.step KernelReplies schedule (start Error program address input w))
    (counts : ∀ k, ∃ n, (schedule k).result = .value n) (k : Nat) :
    (∀ completion, (run Loop.step schedule (start Error program address input w) k).await ≠ .done completion) ∧
    w.position + k ≤ work (run Loop.step schedule (start Error program address input w) k) := by
  induction k with
  | zero => exact ⟨by simp [run,start],Nat.le_refl _⟩
  | succ k ih =>
    obtain ⟨n,count⟩ := counts k
    have same := (run_repeats file answers k).same.2
    have next := step_works (by rw [same]; exact file) (by rw [same]; exact some) (run_stands answers k) ih.1 (answers k) count
    rw [run]
    exact ⟨next.1,by omega⟩

end

/-- The kernel transfers as little as it may. -/
def least (l : Loop Error) : Nat :=
  match l.await with
  | .readSome => if l.input.content.size ≤ l.input.place l.request then 0 else 1
  | .write _ op => if op.op.nextOp.map Sqe.length = some 0 then 0 else 1
  | _ => 0

theorem least_replies (l : Loop Error) : KernelReplies l ⟨.value (least l),false⟩ := by
  cases await : l.await with
  | readSome =>
    simp only [KernelReplies,least,await]
    intro n count
    obtain rfl := Completion.value.inj count
    have some : 1 ≤ l.program.bufferSize := by cases l.program <;> decide
    rw [request_length]
    split <;> omega
  | write nbytes op =>
    simp only [KernelReplies,least,await]
    intro sqe next n count
    have next : op.op.nextOp = some sqe := next
    obtain rfl := Completion.value.inj count
    simp only [next,Option.map_some,Option.some.injEq,reduceCtorEq,false_and,or_false]
    split <;> simp
    omega
  | done completion => simp only [KernelReplies,await]
  | shortWrite => simp only [KernelReplies,await]

/-- The kernel can always report a count. -/
theorem exists_counts (l : Loop Error) : ∃ schedule : Nat → Reply Error, Answers Loop.step KernelReplies schedule l ∧
    ∀ k, ∃ n, (schedule k).result = .value n :=
  (exists_endless Loop.step (fun l r => KernelReplies l r ∧ ∃ n, r.result = .value n) (fun _ => True) trivial
    (fun l => ⟨.value (least l),false⟩) fun l _ => ⟨⟨least_replies l,_,rfl⟩,trivial⟩).imp
    fun _ runs => ⟨fun k => (runs.1 k).1,fun k => (runs.1 k).2⟩

/-- What the echo of a regular file does while no request fails: it never ends, what it writes
    are the first bytes of the file, again and again, and there is no end of them. -/
structure Endless (program : Program) (address : Nat) (input : Input) (w : World) (schedule : Nat → Reply Error) : Prop where
  open_ : ∀ k, (∀ completion, (run Loop.step schedule (start Error program address input w) k).await ≠ .done completion) ∧
    (run Loop.step schedule (start Error program address input w) k).await ≠ .shortWrite
  output : ∀ k, ∃ (counts : List Nat) (out : List UInt8), (∀ n ∈ counts, 1 ≤ n ∧ n ≤ min program.bufferSize input.content.size) ∧
    out <+: counts.flatMap (input.section 0) ∧
    Appended w (run Loop.step schedule (start Error program address input w) k).output out
  grows : ∀ m, ∃ k, w.position + m ≤ (run Loop.step schedule (start Error program address input w) k).output.position

/-- The echo of a regular file that has a byte goes on for ever as long as no request fails. -/
theorem echo_file_is_endless (program : Program) (address : Nat) (input : Input) (w : World)
    (schedule : Nat → Reply Error) (file : input.kind = .file) (some : 0 < input.content.size)
    (answers : Answers Loop.step KernelReplies schedule (start Error program address input w))
    (counts : ∀ k, ∃ n, (schedule k).result = .value n) : Endless program address input w schedule where
  open_ k := ⟨(run_works file some answers counts k).1,stands_complete (run_stands answers k)⟩
  output k := by
    obtain ⟨out,start,appended⟩ := stands_output (run_stands answers k)
    obtain ⟨counts,few,received⟩ := (run_repeats file answers k).received
    exact ⟨counts,out,few,received ▸ start,appended⟩
  grows m := by
    obtain ⟨open_,worked⟩ := run_works file some answers counts (2 * m + 1024)
    have few := received_le (run_stands answers (2 * m + 1024)) open_
    refine ⟨2 * m + 1024,?_⟩
    rw [work] at worked
    omega

/-- The first byte of a file of three, or more of them, over and over. -/
theorem echo_file_is_endless_three : ∃ schedule : Nat → Reply Nat, (∀ k, ∃ n, (schedule k).result = .value n) ∧
    Endless .echo 16 ⟨.file,(zeros 3).file,0⟩ (zeros 0) schedule := by
  obtain ⟨schedule,answers,counts⟩ := exists_counts (start Nat .echo 16 ⟨.file,(zeros 3).file,0⟩ (zeros 0))
  exact ⟨schedule,counts,
    echo_file_is_endless .echo 16 ⟨.file,(zeros 3).file,0⟩ (zeros 0) schedule rfl (by decide) answers counts⟩

/-- The programs echo their input, whatever the kernel replies, if and only if it is a stream or
    has no byte. -/
theorem echoes_iff (program : Program) (address : Nat) (input : Input) (w : World)
    (within : input.position ≤ input.content.size) :
    (∀ schedule : Nat → Reply Error, Answers Loop.step KernelReplies schedule (start Error program address input w) →
      Echoes program address input w schedule) ↔ input.kind = .stream ∨ input.content.size = 0 := by
  constructor
  · intro echoes
    by_contra other
    obtain ⟨not_stream,some⟩ := not_or.mp other
    have file : input.kind = .file := by
      cases kind : input.kind with
      | stream => exact absurd kind not_stream
      | file => rfl
    obtain ⟨schedule,answers,counts⟩ := exists_counts (start Error program address input w)
    obtain ⟨k,returned⟩ := (echoes schedule answers).returns counts
    exact (run_works file (Nat.pos_of_ne_zero some) answers counts k).1 _ returned
  · exact fun once schedule answers => run_echoes once within answers

/-- A stream of three bytes, written behind the second byte of a file. -/
theorem echoes_three : 0 ≤ (zeros 3).file.size ∧
    ∀ schedule : Nat → Reply Nat,
      Answers Loop.step KernelReplies schedule (start Nat .echo 16 ⟨.stream,(zeros 3).file,0⟩ ⟨(zeros 2).file,2,fun _ => 0⟩) →
      Echoes .echo 16 ⟨.stream,(zeros 3).file,0⟩ ⟨(zeros 2).file,2,fun _ => 0⟩ schedule :=
  ⟨by decide,(echoes_iff .echo 16 ⟨.stream,(zeros 3).file,0⟩ ⟨(zeros 2).file,2,fun _ => 0⟩ (by decide)).mpr (.inl rfl)⟩

end SendersIo.Echo
