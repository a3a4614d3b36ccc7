import SendersIo.ReadBatchedForks

/-!
The bytes of the reads. Every read runs in a world that the other reads change as well,
and it does not notice: what it asks for next depends on the numbers of bytes that it
was told. What it has transferred is in its buffer, unless another read has overwritten
it with another byte of the file.
-/
namespace SendersIo.ReadBatchedBytes
open SendersIo.Interleaving SendersIo.Signals SendersIo.Buffers SendersIo.Bytes SendersIo.FileHandle
open SendersIo.ByteStream SendersIo.ReadBatched SendersIo.ReadBatchedItems SendersIo.ReadBatchedForks

variable {Error : Type}

/-- A pair of a buffer and an offset. -/
def Pair (buffers : List Buffer) (offsets : List (BitVec 64)) (k : Nat) (b : Buffer) (o : BitVec 64) : Prop :=
  buffers[k]? = some b ∧ offsets[k]? = some o

/-- The reads are within the file, and the length of a request can hold the size of each
    of them. The size of a file is a signed number. -/
structure Within (buffers : List Buffer) (offsets : List (BitVec 64)) (file : File) : Prop where
  size : file.size < 2 ^ 63
  short : ∀ k b o, Pair buffers offsets k b o → b.size < 2 ^ 32
  inside : ∀ k b o, Pair buffers offsets k b o → o.toNat + b.size ≤ file.size

/-- The `k`-th read is for the byte at a position of the file, and puts it to an address. -/
def Fills (buffers : List Buffer) (offsets : List (BitVec 64)) (k a p : Nat) : Prop :=
  ∃ b o j, Pair buffers offsets k b o ∧ j < b.size ∧ a = b.data + j ∧ p = o.toNat + j

/-- The reads that fill an address have the same byte for it. -/
def Agreed (buffers : List Buffer) (offsets : List (BitVec 64)) (file : File) (a : Nat) : Prop :=
  ∀ k l p q, Fills buffers offsets k a p → Fills buffers offsets l a q → file.bytes p = file.bytes q

/-- A read is in progress, or it has completed with all of its bytes, if it had been alone
    in some world. -/
def Served (r : Read Error) : Prop :=
  ∃ alone v, Going .read r.buffer r.offset alone { r.stream with world := v } ∨
    Finished .read r.buffer r.offset alone { r.stream with world := v } ∧ r.stream.transferred = r.buffer.size

variable {c : Config Party (Batch Error) (Instr Error)} {s : Batch Error} {stack : List Party}
  {buffers : List Buffer} {offsets : List (BitVec 64)} {w : World} {r : Read Error} {k n : Nat} {sqe : Sqe}

/-! ### A reply -/

theorem start_served (b : Buffer) (o : BitVec 64) (v : World) :
    Served (⟨b,o,ByteStream.start Error .read b o v⟩ : Read Error) :=
  ⟨v,v,.inl (start_going .read b o v)⟩

/-- A read makes a request, or it has completed. -/
theorem served_cases (served : Served r) :
    (r.stream.op.nextOp.isSome = true ∧ r.stream.completions = [] ∧ r.stream.transferred ≤ r.buffer.size) ∨
    (r.stream.op.nextOp = none ∧ r.stream.completions = [.value r.buffer.size] ∧
      r.stream.transferred = r.buffer.size) := by
  obtain ⟨alone,v,going | ⟨finished,all⟩⟩ := served
  · refine .inl ⟨Option.isSome_iff_exists.mpr ⟨_,going.next⟩,going.silent,?_⟩
    have left := going.left
    simp only at left
    omega
  · exact .inr ⟨finished.ended,finished.completions,all⟩

/-- What the request of a read is for. -/
theorem served_request (served : Served r) (next : r.stream.op.nextOp = some sqe) :
    sqe = readFactory (.single ⟨r.buffer.data + r.stream.transferred,r.buffer.size - r.stream.transferred⟩)
      (r.offset + BitVec.ofNat 64 r.stream.transferred) := by
  obtain ⟨alone,v,going | ⟨finished,_⟩⟩ := served
  · exact Option.some.inj (next.symm.trans (going_request going))
  · have ended : r.stream.op.nextOp = none := finished.ended
    simp [ended] at next

section
variable (short : r.buffer.size < 2 ^ 32) (inside : r.offset.toNat + r.buffer.size ≤ s.world.file.size)
  (size : s.world.file.size < 2 ^ 63)
include short inside size

/-- The offset of the request of a read. -/
theorem served_place (served : Served r) (next : r.stream.op.nextOp = some sqe) :
    (r.offset + BitVec.ofNat 64 r.stream.transferred).toNat = r.offset.toNat + r.stream.transferred ∧
    r.offset + BitVec.ofNat 64 r.stream.transferred ≠ -1 := by
  obtain ⟨alone,v,going | ⟨finished,_⟩⟩ := served
  · exact going_offset (s := { r.stream with world := v }) (by omega) short going
  · have ended : r.stream.op.nextOp = none := finished.ended
    simp [ended] at next

/-- The kernel's answer to a request within the file is one that a read expects. -/
theorem answers_reply (served : Served r) (next : r.stream.op.nextOp = some sqe)
    (answers : kernelAnswers s.world sqe n = true) (v : World) :
    KernelReply ({ r.stream with world := v } : Stream Error) ⟨.value n,false⟩ := by
  have request := served_request served next
  obtain ⟨at_,absolute⟩ := served_place short inside size served next
  have length : sqe.length = r.buffer.size - r.stream.transferred := by
    rw [request,show readFactory = Direction.factory .read from rfl,factory_length]
    exact Nat.mod_eq_of_lt (by simp only; omega)
  intro sqe' next' m count
  obtain rfl : sqe = sqe' := Option.some.inj (next.symm.trans next')
  obtain rfl : n = m := Completion.value.inj count
  by_cases none : sqe.length = 0
  · rw [if_pos none]
    simpa [kernelAnswers,none] using answers
  · have place : ¬ s.world.file.size ≤ s.world.place sqe := by
      rw [World.place,request,readFactory_off,if_neg absolute,at_]
      omega
    rw [if_neg none]
    simpa [kernelAnswers,none,place] using answers

/-- A reply brings a read on, or to its end. -/
theorem reply_served (served : Served r) (next : r.stream.op.nextOp = some sqe)
    (answers : kernelAnswers s.world sqe n = true) : ∃ stream world,
    s.reply k r n = { s with reads := Function.update s.reads k (some { r with stream }), world } ∧
    Served { r with stream } ∧ stream.transferred = r.stream.transferred + n ∧
    (stream.completions = [] → 1 ≤ n) ∧ world.file = s.world.file ∧
    world.memory = copy s.world.file.bytes (r.offset.toNat + r.stream.transferred) s.world.memory
      (r.buffer.data + r.stream.transferred) n := by
  have request := served_request served next
  have replied := answers_reply short inside size served next answers
  obtain ⟨at_,absolute⟩ := served_place short inside size served next
  obtain ⟨alone,v,going | ⟨finished,_⟩⟩ := served
  · obtain ⟨transferred,count⟩ := step_value_world (s := { r.stream with world := s.world }) (r := ⟨.value n,false⟩) next rfl
    have same := step_world ({ r.stream with world := v } : Stream Error) s.world ⟨.value n,false⟩
    have outcome := going_value (by omega) short going (replied v) rfl
    generalize stepped : ({ r.stream with world := s.world } : Stream Error).step ⟨.value n,false⟩ = stream at *
    generalize ({ r.stream with world := v } : Stream Error).step ⟨.value n,false⟩ = fiction at *
    have back : { stream with world := fiction.world } = fiction := by rw [same]
    have fits : n ≤ r.buffer.size - r.stream.transferred := by
      rcases outcome with ⟨_,all⟩ | ⟨later,_⟩
      · simp only at all
        omega
      · have left := later.left
        rw [← back] at left
        simp only [count] at left
        omega
    have none : Moved .read ⟨r.buffer.data + r.stream.transferred,r.buffer.size - r.stream.transferred⟩
        (r.offset + BitVec.ofNat 64 r.stream.transferred).toNat s.world s.world 0 := ⟨by simp,rfl⟩
    have moved := moved_transfer (n := n) none (by simpa [Direction.factory] using request) (by simp)
      (by simpa using absolute) (by simp only; omega) (by simpa using fits)
    refine ⟨stream,stream.world,?_,⟨alone,fiction.world,?_⟩,count,fun silent => ?_,?_,?_⟩
    · rw [Batch.reply,stepped]
    · rw [back,count]
      exact outcome.symm.imp And.left id
    · rcases outcome with ⟨finished,_⟩ | ⟨_,more⟩
      · have completed := finished.completions
        rw [← back] at completed
        simp [silent] at completed
      · rw [← back] at more
        simp only [count] at more
        omega
    · rw [transferred]
      exact moved.2
    · rw [transferred,moved.1,Nat.zero_add]
      simp only
      rw [at_]
  · have ended : r.stream.op.nextOp = none := finished.ended
    simp [ended] at next

end

/-! ### What is in the buffers -/

/-- The reads are served, those whose items have gone on have completed, and what they
    have transferred is in the buffers. -/
structure Filled (buffers : List Buffer) (offsets : List (BitVec 64)) (file : File) (s : Batch Error) : Prop where
  unchanged : s.world.file = file
  served : ∀ k r, s.reads k = some r → Served r
  completed : ∀ k r, s.reads k = some r → 4 ≤ rank (s.fork.phase k) → r.stream.completions ≠ []
  held : ∀ k r j, s.reads k = some r → j < r.stream.transferred →
    Agreed buffers offsets file (r.buffer.data + j) → s.world.memory (r.buffer.data + j) = file.bytes (r.offset.toNat + j)

/-- A step of `zip` or of `fork` that starts no read. -/
theorem Filled.congr {file : File} {s' : Batch Error} (filled : Filled buffers offsets file s)
    (reads : s'.reads = s.reads) (world : s'.world = s.world)
    (later : ∀ k r, s.reads k = some r → 4 ≤ rank (s'.fork.phase k) → 4 ≤ rank (s.fork.phase k) ∨ r.stream.completions ≠ []) :
    Filled buffers offsets file s' where
  unchanged := by rw [world]; exact filled.unchanged
  served := by rw [reads]; exact filled.served
  completed k r at_k far := by
    rw [reads] at at_k
    exact (later k r at_k far).elim (filled.completed k r at_k) id
  held := by rw [reads,world]; exact filled.held

theorem fills_of_pair {b : Buffer} {o : BitVec 64} {j : Nat} (pair : Pair buffers offsets k b o) (inside : j < b.size) :
    Fills buffers offsets k (b.data + j) (o.toNat + j) := ⟨b,o,j,pair,inside,rfl,rfl⟩

theorem served_le (served : Served r) : r.stream.transferred ≤ r.buffer.size := by
  rcases served_cases served with ⟨_,_,some⟩ | ⟨_,_,all⟩
  · exact some
  · exact all.le

/-- What a reply puts to an address is the byte that every read has for it. -/
theorem Filled.reply (within : Within buffers offsets w.file) (filled : Filled buffers offsets w.file s)
    (joined : Joined buffers offsets s) (at_k : s.reads k = some r) (next : r.stream.op.nextOp = some sqe)
    (answers : kernelAnswers s.world sqe n = true) : Filled buffers offsets w.file (s.reply k r n) := by
  have pair : Pair buffers offsets k r.buffer r.offset := joined.arguments k r at_k
  have served := filled.served k r at_k
  obtain ⟨stream,world,same,later,count,_,file,memory⟩ := reply_served (k := k) (within.short k _ _ pair)
    (by rw [filled.unchanged]; exact within.inside k _ _ pair) (by rw [filled.unchanged]; exact within.size) served next
    answers
  rw [filled.unchanged] at memory file
  rw [same]
  refine ⟨file,fun l r' at_l => ?_,fun l r' at_l far => ?_,fun l r' j at_l transferred agreed => ?_⟩
  · by_cases here : l = k
    · subst here
      obtain rfl : _ = r' := by simpa using at_l
      exact later
    · exact filled.served l r' (by simpa [here] using at_l)
  · by_cases here : l = k
    · subst here
      -- an item goes on only after its read, which makes no request then
      rcases served_cases served with ⟨_,silent,_⟩ | ⟨ended,_⟩
      · exact absurd silent (filled.completed l r at_k far)
      · simp [ended] at next
    · exact filled.completed l r' (by simpa [here] using at_l) far
  · have fills : Fills buffers offsets l (r'.buffer.data + j) (r'.offset.toNat + j) := by
      by_cases here : l = k
      · subst here
        obtain rfl : _ = r' := by simpa using at_l
        exact fills_of_pair pair (transferred.trans_le (served_le later))
      · replace at_l : s.reads l = some r' := by simpa [here] using at_l
        exact fills_of_pair (joined.arguments l r' at_l) (transferred.trans_le (served_le (filled.served l r' at_l)))
    simp only [memory]
    by_cases inside : r.buffer.data + r.stream.transferred ≤ r'.buffer.data + j ∧
        r'.buffer.data + j < r.buffer.data + r.stream.transferred + n
    · rw [copy_inside inside.1 inside.2]
      refine agreed k l _ _ ?_ fills
      have bound := served_le later
      simp only [count] at bound
      refine ⟨r.buffer,r.offset,r'.buffer.data + j - r.buffer.data,pair,by omega,by omega,by omega⟩
    · rw [copy_outside (by omega)]
      by_cases here : l = k
      · subst here
        obtain rfl : _ = r' := by simpa using at_l
        simp only [count] at transferred inside
        exact filled.held l r j at_k (by omega) agreed
      · exact filled.held l r' j (by simpa [here] using at_l) transferred agreed

/-- An item that has gone on after its read had already done so, if it is not one that
    goes on now. -/
theorem rank_of_update {phase : Nat → Fork.Phase} {l : Nat} {after : Fork.Phase}
    (here : 4 ≤ rank after → 4 ≤ rank (phase l)) (k : Nat) (far : 4 ≤ rank (Function.update phase l after k)) :
    4 ≤ rank (phase k) := by
  by_cases same : k = l
  · subst same
    exact here (by simpa using far)
  · rwa [Function.update_of_ne same] at far

theorem works_far {f f' : Fork.OperationBase Error} {p : Fork.Party} {i : Fork.Instr Error} {new : List (Fork.Instr Error)}
    (works : Works f p i f' new) (k : Nat) (far : 4 ≤ rank (f'.phase k)) : 4 ≤ rank (f.phase k) := by
  cases works with
  | releaseItem l here => exact rank_of_update (by simp [here,rank]) k far
  | startItem l here => exact rank_of_update (by simp [rank]) k far
  | startDelete l here => exact rank_of_update (by simp [here,rank]) k far
  | _ => exact far

/-- An item goes on when its read has completed. -/
theorem called_far {f : Fork.OperationBase Error} {e : Fork.Event Error} {new : List (Fork.Instr Error)}
    (called : Called s e f new) (at_k : s.reads k = some r) (far : 4 ≤ rank (f.phase k)) :
    4 ≤ rank (s.fork.phase k) ∨ r.stream.completions ≠ [] := by
  cases called with
  | setNext l => exact .inl (rank_of_update (by simp [rank]) k far)
  | newValue l => exact .inl (rank_of_update (by simp [rank]) k far)
  | nextValue l r' here at_l value =>
    by_cases same : k = l
    · subst same
      obtain rfl := Option.some.inj (at_k.symm.trans at_l)
      right
      intro silent
      simp [silent] at value
    · left
      simpa [same] using far
  | deleteValue l here => exact .inl (rank_of_update (by simp [here,rank]) k far)
  | upstreamValue => exact .inl far

theorem Filled.startRead {b : Buffer} {o : BitVec 64} (filled : Filled buffers offsets w.file s) :
    Filled buffers offsets w.file (Batch.withRead { s with
      fork := { s.fork with phase := Function.update s.fork.phase k .running } } k b o) where
  unchanged := filled.unchanged
  served l r at_l := by
    by_cases here : l = k
    · subst here
      obtain rfl : _ = r := by simpa [Batch.withRead] using at_l
      exact start_served b o s.world
    · exact filled.served l r (by simpa [Batch.withRead,here] using at_l)
  completed l r at_l far := by
    by_cases here : l = k
    · subst here
      simp [Batch.withRead,rank] at far
    · exact filled.completed l r (by simpa [Batch.withRead,here] using at_l) (by simpa [Batch.withRead,here] using far)
  held l r j at_l transferred agreed := by
    by_cases here : l = k
    · subst here
      obtain rfl : _ = r := by simpa [Batch.withRead] using at_l
      simp [ByteStream.start] at transferred
    · exact filled.held l r j (by simpa [Batch.withRead,here] using at_l) transferred agreed

theorem reads_filled (within : Within buffers offsets w.file) (reads : Reads buffers offsets w c stack) :
    Filled buffers offsets w.file c.shared := by
  refine Reads.shared_invariant ?_ ?_ ?_ ?_ ?_ ?_ ?_ reads
  · constructor <;> simp [initial]
  · intro now later stack p i z new _ _ _ filled _
    exact filled.congr rfl rfl fun _ _ _ far => .inl far
  · intro now stack p i f new _ filled works _
    exact filled.congr rfl rfl fun k r _ far => .inl (works_far works k far)
  · intro now stack k b o _ filled _ _ _
    exact filled.startRead
  · intro now stack e z new position _ filled _
    exact filled.congr rfl rfl fun _ _ _ far => .inl far
  · intro now stack e f new _ filled called
    exact filled.congr rfl rfl fun k r at_k far => called_far called at_k far
  · intro now stack k n r sqe before filled at_k next answers
    exact filled.reply within (reads_joined before) at_k next answers

end SendersIo.ReadBatchedBytes
