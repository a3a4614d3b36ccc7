import SendersIo.BufferCursor
import SendersIo.ByteStream

/-!
The lengths of requests. The size of a buffer has 64 bits, and the length of a submission
for a single buffer has 32: a request asks for nothing if what is left of the buffer is a
multiple of 2^32 bytes, and a transfer of a larger buffer can always get there.
-/
namespace SendersIo.RequestLengths
open SendersIo.Buffers SendersIo.FileHandle SendersIo.BufferedSequence SendersIo.BufferCursor SendersIo.ByteStream

/-- The submission describes a prefix of the buffer, with at least one byte. -/
structure Describes (sqe : Sqe) (b : Buffer) : Prop where
  address : sqe.addr = .bytes b.data
  least : 1 ≤ sqe.len.toNat
  most : sqe.len.toNat ≤ b.size

/-- What is left of the buffer when the given request is made. -/
def left (b : Buffer) (answers : List Answer) (j : Nat) : Buffer := b.advance (transferred (answers.take j))

/-- The requests that the transfer of a buffer has made after the answers. -/
def requests (dir : Direction) (b : Buffer) (offset : BitVec 64) (w : World) (answers : List Answer) : List Sqe :=
  (answers.foldl Transfer.item (begin dir.factory (.single b) offset w)).op.requests

/-- Every request describes a prefix of what is left of the buffer. -/
def Progressing (dir : Direction) (b : Buffer) (offset : BitVec 64) (w : World) (answers : List Answer) : Prop :=
  ∀ j sqe, (requests dir b offset w answers)[j]? = some sqe → Describes sqe (left b answers j)

variable {dir : Direction} {b : Buffer} {offset : BitVec 64} {w : World} {answers : List Answer}

/-- A submission describes a prefix of its buffer unless 32 bits hold nothing of its size. -/
theorem describes_iff (dir : Direction) (b : Buffer) (offset : BitVec 64) :
    Describes (dir.factory (.single b) offset) b ↔ ¬ 2 ^ 32 ∣ b.size := by
  have submitted : ∃ opcode, dir.factory (.single b) offset = submitSingle opcode b offset := by
    cases dir <;> exact ⟨_,rfl⟩
  obtain ⟨opcode,same⟩ := submitted
  have len : (submitSingle opcode b offset).len.toNat = b.size % 2 ^ 32 := BitVec.toNat_ofNat _ _
  rw [same,Nat.dvd_iff_mod_eq_zero]
  constructor
  · intro describes
    have least := describes.least
    omega
  · intro some
    exact ⟨rfl,by omega,by have := Nat.mod_le b.size (2 ^ 32); omega⟩

theorem advance_advance (b : Buffer) (n m : Nat) : (b.advance n).advance m = b.advance (n + m) := by
  by_cases fits : n ≤ b.size
  · rw [advance_of_le fits]
    by_cases more : m ≤ b.size - n
    · rw [advance_of_le (show n + m ≤ b.size by omega),advance_of_le more]
      simp only [Buffer.mk.injEq]
      omega
    · unfold Buffer.advance
      rw [if_pos (show b.size - n ≤ m by omega),if_pos (show b.size ≤ n + m by omega)]
      simp only [Buffer.mk.injEq,and_true]
      omega
  · unfold Buffer.advance
    simp [show b.size ≤ n by omega,show b.size ≤ n + m by omega]

theorem cursor_single (b : Buffer) (offset : BitVec 64) (ns : List Nat) :
    (cursor ⟨.single b,offset⟩ ns).data = .single (b.advance ns.sum) := by
  induction ns generalizing b offset with
  | nil => simp [cursor,advance_of_le]
  | cons n ns ih =>
    change (cursor ⟨.single (b.advance n),advanceOffset offset n⟩ ns).data = _
    rw [ih,advance_advance,List.sum_cons]

/-- A request is the submission for what is left, which is something after the first request. -/
theorem request_left {j : Nat} {sqe : Sqe} (at_j : (requests dir b offset w answers)[j]? = some sqe) :
    (∃ place, sqe = dir.factory (.single (left b answers j)) place) ∧ (0 < j → (left b answers j).size ≠ 0) := by
  obtain ⟨s,same,request,some⟩ := request_is_cursor at_j
  have data : s.data = .single (left b answers j) := by rw [same,cursor_single]; rfl
  refine ⟨⟨s.offset,by rw [request,data]⟩,fun later => ?_⟩
  have nonempty := some later
  rw [data] at nonempty
  simpa [BufferSequence.empty] using nonempty

/-- The requests of a run progress if and only if none is made for a multiple of 2^32 bytes. -/
theorem progressing_iff : Progressing dir b offset w answers ↔
    ∀ j < (requests dir b offset w answers).length, ¬ 2 ^ 32 ∣ (left b answers j).size := by
  constructor
  · intro progressing j made
    have describes := progressing j _ (List.getElem?_eq_getElem made)
    obtain ⟨⟨place,same⟩,_⟩ := request_left (List.getElem?_eq_getElem made)
    rw [same,describes_iff] at describes
    exact describes
  · intro never j sqe at_j
    obtain ⟨⟨place,same⟩,_⟩ := request_left at_j
    rw [same,describes_iff]
    exact never j (List.getElem?_eq_some_iff.mp at_j).1

/-- The second request is for what the first transfer has left. -/
theorem second_request {n : Nat} (more : (b.advance n).size ≠ 0) : (requests dir b offset w [⟨n,true,false⟩])[1]? =
    some (dir.factory (.single (b.advance n)) (advanceOffset offset n)) := by
  have nonempty : BufferSequence.empty (.single (b.advance n)) = false := by simpa [BufferSequence.empty] using more
  simp [requests,begin,bufferedSequence,SequenceOp.connectNext,Transfer.item,SequenceOp.itemSetValue,
    SequenceOp.nextSetValue,BufferSpan.advance,nonempty]

/-- A transfer of 2^32 bytes or more can come to a request that asks for nothing: it has to
    transfer all that the first one asks for. -/
theorem exists_stuck (large : 2 ^ 32 ≤ b.size) : ∃ answers, Allowed (begin dir.factory (.single b) offset w) answers ∧
    ¬ Progressing dir b offset w answers := by
  by_cases first : 2 ^ 32 ∣ b.size
  · refine ⟨[],trivial,fun progressing => ?_⟩
    have describes := progressing 0 (dir.factory (.single b) offset) rfl
    have whole : left b [] 0 = b := by simp [left,transferred,advance_of_le]
    rw [whole,describes_iff] at describes
    exact describes first
  · have length : (dir.factory (.single b) offset).length = b.size % 2 ^ 32 := by
      cases dir <;> exact length_single _ b offset
    refine ⟨[⟨b.size % 2 ^ 32,true,false⟩],⟨?_,trivial⟩,fun progressing => ?_⟩
    · intro sqe next
      obtain rfl : dir.factory (.single b) offset = sqe := Option.some.inj next
      exact length.ge
    · have rest : (b.advance (b.size % 2 ^ 32)).size = b.size - b.size % 2 ^ 32 := advance_size b _
      have more : (b.advance (b.size % 2 ^ 32)).size ≠ 0 := by
        have := Nat.mod_lt b.size (show 2 ^ 32 > 0 by decide)
        omega
      have describes := progressing 1 _ (second_request more)
      have now : left b [⟨b.size % 2 ^ 32,true,false⟩] 1 = b.advance (b.size % 2 ^ 32) := by simp [left,transferred]
      rw [now,describes_iff,rest] at describes
      exact describes (Nat.dvd_sub_mod b.size)

/-- A submission for a buffer with a byte describes a prefix of it with a byte unless the size is
    a multiple of 2^32; the requests of a transfer do so unless one of them is made for such a
    multiple; and all requests of all transfers do if and only if the size is below 2^32. -/
theorem requests_progress_iff (dir : Direction) (b : Buffer) (offset : BitVec 64) (w : World) (nonempty : 1 ≤ b.size) :
    (Describes (dir.factory (.single b) offset) b ↔ ¬ 2 ^ 32 ∣ b.size) ∧
    (∀ answers, Progressing dir b offset w answers ↔
      ∀ j < (requests dir b offset w answers).length, ¬ 2 ^ 32 ∣ (left b answers j).size) ∧
    ((∀ answers, Allowed (begin dir.factory (.single b) offset w) answers → Progressing dir b offset w answers) ↔
      b.size < 2 ^ 32) := by
  refine ⟨describes_iff dir b offset,fun answers => progressing_iff,?_⟩
  constructor
  · intro all
    by_contra large
    obtain ⟨answers,allowed,stuck⟩ := exists_stuck (Nat.le_of_not_lt large)
    exact stuck (all answers allowed)
  · intro small answers _ j sqe at_j
    obtain ⟨⟨place,same⟩,later⟩ := request_left at_j
    rw [same,describes_iff]
    have size : (left b answers j).size = b.size - transferred (answers.take j) := advance_size b _
    have some : (left b answers j).size ≠ 0 := by
      rcases Nat.eq_zero_or_pos j with rfl | positive
      · simp [left,transferred,advance_of_le]
        omega
      · exact later positive
    exact Nat.not_dvd_of_pos_of_lt (Nat.pos_of_ne_zero some) (by omega)

/-- All requests for three bytes ask for some of them, here after a transfer of one. -/
theorem requests_progress_three : Progressing .read ⟨8,3⟩ 0 (zeros 3) [⟨1,true,false⟩] :=
  (requests_progress_iff .read ⟨8,3⟩ 0 (zeros 3) (by decide)).2.2.mpr (by decide) [⟨1,true,false⟩] ⟨by decide,trivial⟩

/-- The submission for 2^32 bytes has length zero. -/
theorem four_gibibytes_have_length_zero :
    ¬ ∀ dir : Direction, ∀ b : Buffer, ∀ offset, 1 ≤ b.size → Describes (dir.factory (.single b) offset) b := by
  intro claimed
  have least := (claimed .read ⟨0,2 ^ 32⟩ 0 (by decide)).least
  revert least
  decide

end SendersIo.RequestLengths
