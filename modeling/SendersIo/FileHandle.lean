import SendersIo.Buffers
import SendersIo.Bytes

/-!
The submissions of reads and writes to the kernel, and what the kernel does when
it has transferred a number of bytes.
-/
namespace SendersIo.FileHandle
open SendersIo.Buffers SendersIo.Bytes

/-- The operations that are submitted, for a single buffer and for a span of them. -/
inductive Opcode where
  | read
  | readv
  | write
  | writev
  deriving DecidableEq

/-- What `addr` points to: bytes, or the buffers of a span. -/
inductive Target where
  | bytes (address : Nat)
  | buffers (bs : List Buffer)
  deriving DecidableEq

/-- `io_uring_sqe`. -/
structure Sqe where
  opcode : Opcode
  off : BitVec 64
  addr : Target
  len : BitVec 32
  deriving DecidableEq

/-- A submission for a single buffer: `len` is what 32 bits hold of its size. -/
def submitSingle (opcode : Opcode) (buffer : Buffer) (offset : BitVec 64) : Sqe :=
  ⟨opcode,offset,.bytes buffer.data,BitVec.ofNat 32 buffer.size⟩

/-- A submission for a span: `len` is what 32 bits hold of the number of buffers. -/
def submitSpan (opcode : Opcode) (buffers : List Buffer) (offset : BitVec 64) : Sqe :=
  ⟨opcode,offset,.buffers buffers,BitVec.ofNat 32 buffers.length⟩

/-- `read_submission::submit`. -/
def readSubmission : List Buffer → BitVec 64 → Sqe := submitSpan .readv

/-- `read_submission_single::submit`. -/
def readSubmissionSingle : Buffer → BitVec 64 → Sqe := submitSingle .read

/-- `write_submission::submit`. -/
def writeSubmission : List Buffer → BitVec 64 → Sqe := submitSpan .writev

/-- `write_submission_single::submit`. -/
def writeSubmissionSingle : Buffer → BitVec 64 → Sqe := submitSingle .write

/-- `read_factory`. -/
def readFactory : BufferSequence → BitVec 64 → Sqe
  | .single b => readSubmissionSingle b
  | .span bs => readSubmission bs

/-- `write_factory`. -/
def writeFactory : BufferSequence → BitVec 64 → Sqe
  | .single b => writeSubmissionSingle b
  | .span bs => writeSubmission bs

/-- The bytes of the process that a request names. -/
def Sqe.target (sqe : Sqe) : List Buffer :=
  match sqe.addr with
  | .bytes address => [⟨address,sqe.len.toNat⟩]
  | .buffers bs => bs.take sqe.len.toNat

/-- How many bytes a request asks for. -/
def Sqe.length (sqe : Sqe) : Nat := total sqe.target

/-- A regular file. There is nothing after its last byte. -/
structure File where
  bytes : Store
  size : Nat
  beyond : ∀ p, size ≤ p → bytes p = 0

/-- The file after `n` bytes of the source at `a` were written at `p`. A hole reads
    as zeros. -/
def File.write (f : File) (source : Store) (a p n : Nat) : File where
  bytes := copy source a f.bytes p n
  size := if n = 0 then f.size else max f.size (p + n)
  beyond q out := by
    split at out
    · subst_vars; rw [copy_zero]; exact f.beyond q out
    · rw [copy_outside (by omega)]; exact f.beyond q (by omega)

theorem write_bytes (f : File) (source : Store) (a p n : Nat) :
    (f.write source a p n).bytes = copy source a f.bytes p n := rfl

theorem write_size (f : File) (source : Store) (a p n : Nat) :
    (f.write source a p n).size = if n = 0 then f.size else max f.size (p + n) := rfl

/-- The file, its current position, and the memory of the process. -/
structure World where
  file : File
  position : Nat
  memory : Store

/-- The position in the file that a request is for. -/
def World.place (w : World) (sqe : Sqe) : Nat :=
  if sqe.off = -1 then w.position else sqe.off.toNat

/-- The memory after the buffers were filled, one after the other, with `n` bytes of
    the file at `p`. -/
def fill (file : Store) : List Buffer → Nat → Nat → Store → Store
  | [],_,_,memory => memory
  | b :: bs,p,n,memory =>
    fill file bs (p + min n b.size) (n - b.size) (copy file p memory b.data (min n b.size))

/-- The file after `n` bytes of the buffers were written to it at `p`. -/
def drain (memory : Store) : List Buffer → Nat → Nat → File → File
  | [],_,_,file => file
  | b :: bs,p,n,file =>
    drain memory bs (p + min n b.size) (n - b.size) (file.write memory b.data p (min n b.size))

/-- What the kernel has done when it reports that it transferred `n` bytes. Only a
    request without an offset moves the current position. -/
def World.transfer (w : World) (sqe : Sqe) (n : Nat) : World where
  file := match sqe.opcode with
    | .read | .readv => w.file
    | .write | .writev => drain w.memory sqe.target (w.place sqe) n w.file
  position := if sqe.off = -1 then w.position + n else w.position
  memory := match sqe.opcode with
    | .read | .readv => fill w.file.bytes sqe.target (w.place sqe) n w.memory
    | .write | .writev => w.memory

theorem readFactory_off (data : BufferSequence) (offset : BitVec 64) : (readFactory data offset).off = offset := by
  cases data <;> rfl

theorem transfer_read (w : World) (data : BufferSequence) (offset : BitVec 64) (n : Nat) :
    (w.transfer (readFactory data offset) n).file = w.file ∧
    (w.transfer (readFactory data offset) n).position = if offset = -1 then w.position + n else w.position := by
  cases data <;> exact ⟨rfl,rfl⟩

theorem length_single (opcode : Opcode) (b : Buffer) (offset : BitVec 64) :
    (submitSingle opcode b offset).length = b.size % 2 ^ 32 := by
  simp [submitSingle,Sqe.length,Sqe.target]

theorem length_span (opcode : Opcode) (bs : List Buffer) (offset : BitVec 64) :
    (submitSpan opcode bs offset).length = total (bs.take (bs.length % 2 ^ 32)) := by
  simp [submitSpan,Sqe.length,Sqe.target]

end SendersIo.FileHandle
