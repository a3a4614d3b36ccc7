import SendersIo.BufferCursor

/-!
Reads of some bytes, one after the other, and a read of all of them. The sequence behind
`read` submits its requests for the current position of the file, and so does a
`write_some`. The sender of a `read_some` has offset zero unless one is given: all of them
read from the first byte of the file, and none of them moves the position.
-/
namespace SendersIo.ReadSome
open SendersIo.Buffers SendersIo.Bytes SendersIo.FileHandle SendersIo.BufferedSequence SendersIo.BufferCursor

/-- The number of bytes that the kernel transfers for a read if it transfers as many as it can. -/
def amount (w : World) (sqe : Sqe) : Nat := min sqe.length (w.file.size - w.place sqe)

/-- The places in the file of the bytes that it then transfers. -/
def places (w : World) (sqe : Sqe) : List Nat := List.range' (w.place sqe) (amount w sqe)

/-- The file with what was delivered of it, as places of its bytes. -/
structure Delivery where
  world : World
  delivered : List Nat

/-- A request that transfers as much as it can. -/
def Delivery.request (d : Delivery) (sqe : Sqe) : Delivery where
  world := d.world.transfer sqe (amount d.world sqe)
  delivered := d.delivered ++ places d.world sqe

/-- The request of `byte_stream::read_some` for a buffer: the offset of `read_sender_single` is
    zero if none is given. -/
def readSome (b : Buffer) : Sqe := readSubmissionSingle b 0

/-- A `read_some` for each of the buffers, each after the one before it has completed. -/
def readSomeEach (bs : List Buffer) (w : World) : Delivery :=
  bs.foldl (fun d b => d.request (readSome b)) ⟨w,[]⟩

/-- A run of `byte_stream::read` with what it has delivered. -/
structure Read where
  transfer : Transfer
  delivered : List Nat

/-- `byte_stream::read`, started: the offset of `buffered_sequence` is -1 if none is given. -/
def read (bs : List Buffer) (w : World) : Read := ⟨start (.span bs) (-1) w,[]⟩

/-- An item of the read that transfers as much as it can. -/
def Read.step (r : Read) : Read :=
  match r.transfer.op.nextOp with
  | none => r
  | some sqe =>
    { transfer := r.transfer.item ⟨amount r.transfer.world sqe,true,false⟩
      delivered := r.delivered ++ places r.transfer.world sqe }

/-- The read after its first items. -/
def Read.after (r : Read) : Nat → Read
  | 0 => r
  | k + 1 => (r.after k).step

/-- What a read delivers in the end: no further item delivers more. -/
def ReadDelivers (bs : List Buffer) (w : World) (delivered : List Nat) : Prop :=
  ∃ some, ∀ k, some ≤ k → ((read bs w).after k).delivered = delivered

/-- The buffers for which a `read_some` asks for bytes. -/
def asking (bs : List Buffer) : List Buffer := bs.filter fun b => b.size % 2 ^ 32 ≠ 0

/-- The number of bytes that the first request of a read asks for. -/
def asked (bs : List Buffer) : Nat := total (bs.take (bs.length % 2 ^ 32))

/-- The file is empty; or no buffer asks for bytes, and nor does the read, or it starts behind
    them; or a single one does, the position is that of the first byte, and the buffer and
    the read get equally many bytes. -/
def Agree (size position : Nat) (bs : List Buffer) : Prop :=
  size = 0 ∨ match asking bs with
    | [] => asked bs = 0 ∨ size ≤ position
    | [b] => position = 0 ∧ min (b.size % 2 ^ 32) size = min (asked bs) size
    | _ => False

instance (size position : Nat) (bs : List Buffer) : Decidable (Agree size position bs) := by
  unfold Agree; split <;> infer_instance

variable {w : World} {bs : List Buffer} {l : List Nat} {r : Read}

/-! ### Reads of some bytes -/

/-- Every one of the reads delivers the first bytes of the file. -/
theorem readSomeEach_delivered (bs : List Buffer) (w : World) :
    (readSomeEach bs w).delivered = bs.flatMap fun b => List.range' 0 (min (b.size % 2 ^ 32) w.file.size) := by
  suffices all : ∀ d : Delivery, (bs.foldl (fun d b => d.request (readSome b)) d).delivered =
      d.delivered ++ bs.flatMap fun b => List.range' 0 (min (b.size % 2 ^ 32) d.world.file.size) from all ⟨w,[]⟩
  intro d
  induction bs generalizing d with
  | nil => simp
  | cons b bs ih =>
    have first : places d.world (readSome b) = List.range' 0 (min (b.size % 2 ^ 32) d.world.file.size) := by
      have length : (readSome b).length = b.size % 2 ^ 32 := length_single .read b 0
      have place : d.world.place (readSome b) = 0 := by simp [World.place,readSome,readSubmissionSingle,submitSingle]
      rw [places,amount,length,place,Nat.sub_zero]
    rw [List.foldl_cons,ih,List.flatMap_cons,← List.append_assoc,← first]
    rfl

theorem asking_cons (b : Buffer) (bs : List Buffer) :
    asking (b :: bs) = if b.size % 2 ^ 32 = 0 then asking bs else b :: asking bs := by
  by_cases none : b.size % 2 ^ 32 = 0
  · rw [if_pos none]
    exact List.filter_cons_of_neg (by rw [none]; decide)
  · rw [if_neg none]
    exact List.filter_cons_of_pos (decide_eq_true none)

/-- The buffers that ask for nothing deliver nothing. -/
theorem delivered_asking (bs : List Buffer) (size : Nat) :
    (bs.flatMap fun b => List.range' 0 (min (b.size % 2 ^ 32) size)) =
      (asking bs).flatMap fun b => List.range' 0 (min (b.size % 2 ^ 32) size) := by
  induction bs with
  | nil => rfl
  | cons b bs ih =>
    rw [List.flatMap_cons,ih,asking_cons]
    split
    · next none =>
      rw [none,Nat.zero_min]
      rfl
    · rw [List.flatMap_cons]

/-! ### A read -/

/-- When the buffers of a request are filled, the next request asks for nothing. -/
theorem advance_take (bs : List Buffer) (r : Nat) : ∃ d ≤ r,
    (advanceBuffers bs (total (bs.take r))).1 = bs.drop d ∧ total (bs.take d) = total (bs.take r) := by
  induction bs generalizing r with
  | nil => exact ⟨0,Nat.zero_le r,by simp [advanceBuffers],by simp⟩
  | cons b bs ih =>
    cases r with
    | zero => exact ⟨0,Nat.le_refl 0,by simp [advance_zero],rfl⟩
    | succ r =>
      rw [List.take_succ_cons,total_cons,advanceBuffers]
      split
      · next none => exact ⟨0,Nat.zero_le _,rfl,by simpa using none.symm⟩
      · rw [if_neg (by omega),Nat.add_sub_cancel_left]
        obtain ⟨d,most,rest,same⟩ := ih r
        exact ⟨d + 1,by omega,by simpa using rest,by rw [List.take_succ_cons,total_cons,same]⟩

theorem asked_advance (bs : List Buffer) : asked (advanceBuffers bs (asked bs)).1 = 0 := by
  obtain ⟨d,most,rest,same⟩ := advance_take bs (bs.length % 2 ^ 32)
  have length : (bs.length - d) % 2 ^ 32 = bs.length % 2 ^ 32 - d := by omega
  have split : total (bs.take (bs.length % 2 ^ 32)) =
      total (bs.take d) + total ((bs.drop d).take (bs.length % 2 ^ 32 - d)) := by
    rw [total,total,total,← List.sum_append,← List.map_append,← List.take_add,Nat.add_sub_cancel' most]
  change asked (advanceBuffers bs (total (bs.take (bs.length % 2 ^ 32)))).1 = 0
  rw [rest,asked,List.length_drop,length]
  omega

/-- The read has completed, or its next request transfers nothing. -/
structure Spent (r : Read) (l : List Nat) : Prop where
  delivered : r.delivered = l
  spent : r.transfer.op.nextOp = none ∨ Reading r.transfer ∧ r.transfer.op.buffer.offset = -1 ∧
    min (nextLength r.transfer.op.buffer.data) (r.transfer.world.file.size - r.transfer.world.position) = 0

theorem amount_reading (t : Transfer) (current : t.op.buffer.offset = -1) :
    amount t.world (readFactory t.op.buffer.data t.op.buffer.offset) =
      min (nextLength t.op.buffer.data) (t.world.file.size - t.world.position) ∧
    places t.world (readFactory t.op.buffer.data t.op.buffer.offset) =
      List.range' t.world.position (min (nextLength t.op.buffer.data) (t.world.file.size - t.world.position)) := by
  rw [places,amount,readFactory_length,place_readFactory,place,if_pos current]
  exact ⟨rfl,rfl⟩

/-- The first item that transfers as much as it can leaves nothing to transfer. -/
theorem step_spent (reading : Reading r.transfer) (current : r.transfer.op.buffer.offset = -1) {n : Nat}
    (count : n = min (nextLength r.transfer.op.buffer.data) (r.transfer.world.file.size - r.transfer.world.position))
    (rest : min (nextLength (r.transfer.op.buffer.advance n).data)
      (r.transfer.world.file.size - (r.transfer.world.position + n)) = 0) :
    Spent r.step (r.delivered ++ List.range' r.transfer.world.position n) := by
  obtain ⟨counted,bytes⟩ := amount_reading r.transfer current
  rw [← count] at counted bytes
  have step : r.step = ⟨r.transfer.item ⟨n,true,false⟩,r.delivered ++ List.range' r.transfer.world.position n⟩ := by
    simp only [Read.step,reading.next,counted,bytes]
  rw [step]
  refine ⟨rfl,?_⟩
  obtain ⟨file,position,buffer,after⟩ := item_reading (a := ⟨n,true,false⟩) reading rfl
  rcases item_requests (t := r.transfer) (by rw [reading.next]; rfl) ⟨n,true,false⟩ with ⟨done,_⟩ | ⟨_,_,_,left,_⟩
  · exact .inl done
  · simp only [left] at after
    have offset : (r.transfer.op.buffer.advance n).offset = -1 := by
      simp only [BufferSpan.advance]
      split <;> simp only [current,advanceOffset_current]
    refine .inr ⟨by simpa using after,by rw [buffer,offset],?_⟩
    simp only [buffer,file,position,moved,if_pos current]
    exact rest

theorem spent_step (spent : Spent r l) : Spent r.step l := by
  rcases spent.spent with done | ⟨reading,current,none⟩
  · have still : r.step = r := by simp only [Read.step,done]
    rw [still]
    exact spent
  · have next := step_spent reading current none.symm (by rw [advance_none,Nat.add_zero]; exact none)
    rwa [List.range'_zero,List.append_nil,spent.delivered] at next

theorem spent_after (bs : List Buffer) (w : World) (k : Nat) :
    Spent ((read bs w).after (k + 1)) (List.range' w.position (min (asked bs) (w.file.size - w.position))) := by
  induction k with
  | zero =>
    refine step_spent (r := read bs w) (start_reading (.span bs) (-1) w) rfl rfl ?_
    change min (nextLength (.span (advanceBuffers bs (min (asked bs) (w.file.size - w.position))).1))
      (w.file.size - (w.position + min (asked bs) (w.file.size - w.position))) = 0
    by_cases enough : asked bs ≤ w.file.size - w.position
    · have none : nextLength (.span (advanceBuffers bs (asked bs)).1) = 0 := asked_advance bs
      rw [Nat.min_eq_left enough,none,Nat.zero_min]
    · omega
  | succ k ih => exact spent_step ih

/-- A read delivers what its first request asks for, up to the end of the file. -/
theorem readDelivers_iff : ReadDelivers bs w l ↔
    l = List.range' w.position (min (asked bs) (w.file.size - w.position)) := by
  constructor
  · rintro ⟨some,delivers⟩
    rw [← delivers (some + 1) (Nat.le_succ some),(spent_after bs w some).delivered]
  · rintro rfl
    refine ⟨1,fun k later => ?_⟩
    obtain ⟨k,rfl⟩ := Nat.exists_eq_add_of_le' later
    exact (spent_after bs w k).delivered

/-! ### Both -/

theorem asking_some {b : Buffer} (mem : b ∈ asking bs) : b.size % 2 ^ 32 ≠ 0 := by
  simpa using (List.mem_filter.mp mem).2

theorem range_injective {p q m n : Nat} (some : m ≠ 0) : List.range' p m = List.range' q n ↔ p = q ∧ m = n := by
  constructor
  · intro same
    have length : m = n := by simpa using congrArg List.length same
    subst length
    refine ⟨?_,rfl⟩
    obtain ⟨m,rfl⟩ := Nat.exists_eq_succ_of_ne_zero some
    exact (List.cons.inj same).1
  · rintro ⟨rfl,rfl⟩
    rfl

/-- Two reads of some bytes deliver the first byte of the file twice. -/
theorem places_iff (size position : Nat) (bs : List Buffer) :
    (bs.flatMap fun b => List.range' 0 (min (b.size % 2 ^ 32) size)) =
      List.range' position (min (asked bs) (size - position)) ↔ Agree size position bs := by
  rw [delivered_asking,Agree]
  by_cases empty : size = 0
  · subst empty
    simp
  · have some : ∀ b ∈ asking bs, min (b.size % 2 ^ 32) size ≠ 0 := by
      intro b mem
      have := asking_some mem
      omega
    match ask : asking bs with
    | [] =>
      have none : [] = List.range' position (min (asked bs) (size - position)) ↔
          min (asked bs) (size - position) = 0 := by rw [eq_comm,List.range'_eq_nil_iff]
      rw [List.flatMap_nil,none]
      omega
    | [b] =>
      have first := some b (by simp [ask])
      rw [List.flatMap_singleton,range_injective first]
      omega
    | b :: c :: rest =>
      refine ⟨fun same => ?_,fun agree => absurd agree (by simp [empty])⟩
      have first := some b (by simp [ask])
      have second := some c (by simp [ask])
      have nodup : (List.range' position (min (asked bs) (size - position))).Nodup := List.nodup_range'
      rw [← same,List.flatMap_cons,List.flatMap_cons,List.nodup_append] at nodup
      have zero : ∀ n, n ≠ 0 → 0 ∈ List.range' 0 n := fun n more => by
        simpa using Nat.pos_of_ne_zero more
      exact absurd rfl (nodup.2.2 0 (zero _ first) 0 (List.mem_append_left _ (zero _ second)))

/-- Places of a file are told apart by some content of the file. -/
theorem eq_of_contents {size : Nat} {places places' : List Nat} (inside : ∀ q ∈ places, q < size)
    (same : ∀ file : File, file.size = size → places.map file.bytes = places'.map file.bytes) : places = places' := by
  have length : places.length = places'.length := by
    simpa using congrArg List.length (same ⟨fun _ => 0,size,fun _ _ => rfl⟩ rfl)
  refine List.ext_getElem length fun i at_i at_i' => ?_
  have bound : places[i] < size := inside _ (List.getElem_mem at_i)
  let file : File := ⟨fun q => if q = places[i] then 1 else 0,size,fun q out => if_neg (by omega)⟩
  have byte := congrArg (·[i]?) (same file rfl)
  simp only [List.getElem?_map,List.getElem?_eq_getElem at_i,List.getElem?_eq_getElem at_i',Option.map_some,
    Option.some.injEq,file,if_true] at byte
  by_contra other
  rw [if_neg (fun equal => other equal.symm)] at byte
  exact absurd byte (by decide)

/-- The reads of some bytes deliver the same bytes of the file as a read of all of them, whatever
    the file contains, if and only if the buffers agree on the size of the file and the position. -/
theorem readSome_iff (size position : Nat) (bs : List Buffer) :
    (∀ w : World, w.file.size = size → w.position = position →
      (ReadDelivers bs w (readSomeEach bs w).delivered ↔ Agree size position bs)) ∧
    ((∀ w : World, w.file.size = size → w.position = position → ∀ delivered, ReadDelivers bs w delivered →
      (readSomeEach bs w).delivered.map w.file.bytes = delivered.map w.file.bytes) ↔ Agree size position bs) := by
  constructor
  · rintro w rfl rfl
    rw [readDelivers_iff,readSomeEach_delivered,places_iff]
  · constructor
    · intro same
      rw [← places_iff]
      have inside : ∀ q ∈ bs.flatMap (fun b => List.range' 0 (min (b.size % 2 ^ 32) size)), q < size := by
        intro q mem
        obtain ⟨b,_,within⟩ := List.mem_flatMap.mp mem
        have := (List.mem_range'_1.mp within).2
        omega
      refine eq_of_contents inside ?_
      rintro file rfl
      have bytes := same ⟨file,position,fun _ => 0⟩ rfl rfl _ (readDelivers_iff.mpr rfl)
      rwa [readSomeEach_delivered] at bytes
    · rintro agree w rfl rfl delivered delivers
      rw [readDelivers_iff.mp delivers,readSomeEach_delivered,(places_iff _ _ _).mpr agree]

/-- A file of two bytes, the second of them not zero. -/
def twoBytes : World := ⟨⟨fun q => if q = 1 then 1 else 0,2,fun q out => if_neg (by omega)⟩,0,fun _ => 0⟩

/-- Two reads of one byte each deliver the first byte of a file twice. -/
theorem readSome_repeats_byte :
    ¬ ∀ (w : World) (bs : List Buffer) (delivered : List Nat), ReadDelivers bs w delivered →
      (readSomeEach bs w).delivered.map w.file.bytes = delivered.map w.file.bytes := by
  intro claimed
  have same := claimed twoBytes [⟨0,1⟩,⟨8,1⟩] _ (readDelivers_iff.mpr rfl)
  revert same
  decide

end SendersIo.ReadSome
