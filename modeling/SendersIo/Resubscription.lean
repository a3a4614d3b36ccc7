import SendersIo.BufferCursor

/-!
A second run of a sequence of requests. The sender of the sequence holds a single buffer by
value, and each run advances its own copy. Of a span of buffers it holds only where they
are: a run advances the buffers of the caller, and the next run finds them as they are then.
-/
namespace SendersIo.Resubscription
open SendersIo.Buffers SendersIo.FileHandle SendersIo.BufferedSequence SendersIo.BufferCursor

/-- The loop of `buffer_span::advance` in the array of the caller: the buffers before the
    span, the span, and what is left of the count. It advances the front of the span through
    a reference. -/
def advanceInPlace : List Buffer → List Buffer → Nat → (List Buffer × List Buffer) × Nat
  | past,[],n => ((past,[]),n)
  | past,b :: bs,n =>
    if n = 0 then ((past,b :: bs),0)
    else if n < b.size then ((past,b.advance n :: bs),n)
    else advanceInPlace (past ++ [b]) bs (n - b.size)

/-- The sender that `buffered_sequence` returns, with the buffers that its argument names. -/
structure Sender where
  factory : BufferSequence → BitVec 64 → Sqe
  data : BufferSequence
  offset : BitVec 64

/-- A run of the sender, and the buffers of the caller before the span of its cursor. -/
structure Subscription where
  transfer : Transfer
  past : List Buffer

/-- `subscribe` of a const reference to the sender, and `start`. -/
def Sender.subscribe (sender : Sender) (w : World) : Subscription := ⟨begin sender.factory sender.data sender.offset w,[]⟩

/-- One item of the run. -/
def Subscription.item (s : Subscription) (a : Answer) : Subscription where
  transfer := s.transfer.item a
  past := match s.transfer.op.nextOp,s.transfer.op.buffer.data with
    | some _,.span bs => (advanceInPlace s.past bs a.count).1.1
    | _,_ => s.past

/-- The sender after a run of it. -/
def Sender.after (sender : Sender) (s : Subscription) : Sender :=
  match sender.data,s.transfer.op.buffer.data with
  | .span _,.span bs => { sender with data := .span (s.past ++ bs) }
  | _,_ => sender

/-- The sender after a run with the given answers. -/
def Sender.run (sender : Sender) (w : World) (answers : List Answer) : Sender :=
  sender.after (answers.foldl Subscription.item (sender.subscribe w))

/-- The buffers and the offset that the factory gets for the first request of a run. -/
def Sender.firstRequest (sender : Sender) (w : World) : BufferSpan := (sender.subscribe w).transfer.op.buffer

/-- The first `n` bytes of the buffers end where a buffer ends. -/
def Boundary (bs : List Buffer) (n : Nat) : Prop := ∃ i ≤ bs.length, min n (total bs) = total (bs.take i)

instance (bs : List Buffer) (n : Nat) : Decidable (Boundary bs n) := by
  unfold Boundary; infer_instance

/-- The counts of the answers, up to the first one that stops the sequence. -/
def counts : List Answer → List Nat
  | [] => []
  | a :: answers => a.count :: if a.goesOn then counts answers else []

/-- Every transfer ends where a buffer ends. -/
def EndsAtBoundaries (bs : List Buffer) (ns : List Nat) : Prop := ∀ k ≤ ns.length, Boundary bs (ns.take k).sum

instance (bs : List Buffer) (ns : List Nat) : Decidable (EndsAtBoundaries bs ns) := by
  unfold EndsAtBoundaries; infer_instance

/-- There is a single buffer, or every transfer of a run ends where a buffer of the span ends. -/
def Sender.Restored (sender : Sender) (answers : List Answer) : Prop :=
  match sender.data with
  | .single _ => True
  | .span bs => EndsAtBoundaries bs (counts answers)

variable {b : Buffer} {past bs : List Buffer} {n : Nat} {ns : List Nat} {s : Subscription} {answers : List Answer}

/-! ### One transfer -/

/-- What the loop leaves of the span is what it leaves of a copy of it. -/
theorem advanceInPlace_span (past bs : List Buffer) (n : Nat) :
    ((advanceInPlace past bs n).1.2,(advanceInPlace past bs n).2) = advanceBuffers bs n := by
  induction bs generalizing past n with
  | nil => rfl
  | cons b bs ih =>
    rw [advanceInPlace,advanceBuffers]
    split
    · rfl
    · split
      · rfl
      · exact ih _ _

theorem boundary_nil (n : Nat) : Boundary [] n := ⟨0,Nat.le_refl 0,by simp⟩

theorem boundary_zero (bs : List Buffer) : Boundary bs 0 := ⟨0,Nat.zero_le _,by simp⟩

theorem not_boundary (more : n ≠ 0) (inside : n < b.size) : ¬ Boundary (b :: bs) n := by
  rintro ⟨i,_,same⟩
  rw [total_cons] at same
  cases i with
  | zero =>
    rw [List.take_zero,total_nil] at same
    omega
  | succ i =>
    rw [List.take_succ_cons,total_cons] at same
    omega

theorem boundary_cons (outside : b.size ≤ n) : Boundary (b :: bs) n ↔ Boundary bs (n - b.size) := by
  constructor
  · rintro ⟨i,most,same⟩
    rw [total_cons] at same
    cases i with
    | zero =>
      rw [List.take_zero,total_nil] at same
      exact ⟨0,Nat.zero_le _,by rw [List.take_zero,total_nil]; omega⟩
    | succ i =>
      rw [List.take_succ_cons,total_cons] at same
      exact ⟨i,by simpa using most,by omega⟩
  · rintro ⟨i,most,same⟩
    refine ⟨i + 1,by simpa using most,?_⟩
    rw [List.take_succ_cons,total_cons,total_cons]
    omega

/-- A transfer up to the end of a buffer leaves the array as it is. -/
theorem advanceInPlace_boundary (boundary : Boundary bs n) :
    (advanceInPlace past bs n).1.1 ++ (advanceInPlace past bs n).1.2 = past ++ bs := by
  induction bs generalizing past n with
  | nil => rfl
  | cons b bs ih =>
    rw [advanceInPlace]
    split
    · rfl
    · next more =>
      split
      · next inside => exact absurd boundary (not_boundary more inside)
      · next outside =>
        rw [ih ((boundary_cons (by omega)).mp boundary),List.append_assoc,List.singleton_append]

/-- Any other transfer takes bytes from one of its buffers. -/
theorem total_advanceInPlace (past bs : List Buffer) (n : Nat) :
    total ((advanceInPlace past bs n).1.1 ++ (advanceInPlace past bs n).1.2) ≤ total (past ++ bs) ∧
    (¬ Boundary bs n → total ((advanceInPlace past bs n).1.1 ++ (advanceInPlace past bs n).1.2) < total (past ++ bs)) := by
  induction bs generalizing past n with
  | nil => exact ⟨Nat.le_refl _,fun inside => absurd (boundary_nil n) inside⟩
  | cons b bs ih =>
    rw [advanceInPlace]
    split
    · next none => exact ⟨Nat.le_refl _,fun inside => absurd (none ▸ boundary_zero _) inside⟩
    · next more =>
      split
      · next inside =>
        have less : total (past ++ b.advance n :: bs) < total (past ++ b :: bs) := by
          simp only [total,List.map_append,List.sum_append,List.map_cons,List.sum_cons,advance_size]
          omega
        exact ⟨Nat.le_of_lt less,fun _ => less⟩
      · next outside =>
        rw [boundary_cons (by omega)]
        have rest := ih (past ++ [b]) (n - b.size)
        rwa [List.append_assoc,List.singleton_append] at rest

/-- After a transfer up to the end of a buffer, the buffers that are left have the later
    boundaries. -/
theorem boundary_advance (boundary : Boundary bs n) (m : Nat) :
    Boundary (advanceBuffers bs n).1 m ↔ Boundary bs (n + m) := by
  induction bs generalizing n with
  | nil => exact ⟨fun _ => boundary_nil _,fun _ => boundary_nil _⟩
  | cons b bs ih =>
    rw [advanceBuffers]
    split
    · next none => rw [none,Nat.zero_add]
    · next more =>
      split
      · next inside => exact absurd boundary (not_boundary more inside)
      · next outside =>
        rw [ih ((boundary_cons (by omega)).mp boundary),boundary_cons (by omega),Nat.sub_add_comm (by omega)]
theorem endsAtBoundaries_nil (bs : List Buffer) : EndsAtBoundaries bs [] :=
  fun k _ => by simpa using boundary_zero bs

theorem endsAtBoundaries_cons : EndsAtBoundaries bs (n :: ns) ↔ Boundary bs n ∧ EndsAtBoundaries (advanceBuffers bs n).1 ns := by
  constructor
  · intro ends
    have boundary : Boundary bs n := by simpa using ends 1 (by simp)
    refine ⟨boundary,fun k most => (boundary_advance boundary _).mpr ?_⟩
    simpa using ends (k + 1) (by simpa using most)
  · rintro ⟨boundary,ends⟩ k most
    cases k with
    | zero => simpa using boundary_zero bs
    | succ k =>
      rw [List.take_succ_cons,List.sum_cons]
      exact (boundary_advance boundary _).mp (ends k (by simpa using most))

/-! ### Runs -/

/-- The array of the caller. -/
def Subscription.array (s : Subscription) : List Buffer :=
  match s.transfer.op.buffer.data with
  | .single _ => s.past
  | .span bs => s.past ++ bs

/-- The run has submitted a request for the buffers of a span. -/
structure Going (s : Subscription) (bs : List Buffer) : Prop where
  next : s.transfer.op.nextOp.isSome = true
  data : s.transfer.op.buffer.data = .span bs

theorem Going.array (going : Going s bs) : s.array = s.past ++ bs := by simp only [Subscription.array,going.data]

theorem items_of_done (done : s.transfer.op.nextOp = none) (answers : List Answer) :
    answers.foldl Subscription.item s = s := by
  induction answers with
  | nil => rfl
  | cons a answers ih =>
    have still : s.item a = s := by simp [Subscription.item,Transfer.item,done]
    rw [List.foldl_cons,still,ih]

theorem item_data {sqe : Sqe} (next : s.transfer.op.nextOp = some sqe) (span : s.transfer.op.buffer.data = .span bs)
    (a : Answer) : (s.item a).transfer.op.buffer.data = .span (advanceBuffers bs a.count).1 := by
  have left : (s.transfer.op.buffer.advance a.count).data = .span (advanceBuffers bs a.count).1 := by
    simp only [BufferSpan.advance,span]
  rw [← left]
  simp only [Subscription.item,Transfer.item,next,SequenceOp.itemSetValue,SequenceOp.nextSetValue,
    SequenceOp.nextSetStopped,SequenceOp.connectNext]
  split <;> [split <;> rfl;rfl]

/-- What an item does to the array of the caller, and when the run goes on after it. -/
theorem item_going (going : Going s bs) (a : Answer) :
    (s.item a).array = (advanceInPlace s.past bs a.count).1.1 ++ (advanceInPlace s.past bs a.count).1.2 ∧
    if a.goesOn ∧ (advanceBuffers bs a.count).1 ≠ [] then
      Going (s.item a) (advanceBuffers bs a.count).1 ∧ (s.item a).past = (advanceInPlace s.past bs a.count).1.1
    else (s.item a).transfer.op.nextOp = none := by
  obtain ⟨sqe,next⟩ := Option.isSome_iff_exists.mp going.next
  have span : (advanceInPlace s.past bs a.count).1.2 = (advanceBuffers bs a.count).1 :=
    congrArg Prod.fst (advanceInPlace_span s.past bs a.count)
  have left : (s.transfer.op.buffer.advance a.count).data = .span (advanceBuffers bs a.count).1 := by
    simp only [BufferSpan.advance,going.data]
  have past : (s.item a).past = (advanceInPlace s.past bs a.count).1.1 := by
    simp only [Subscription.item,next,going.data]
  have data := item_data next going.data a
  refine ⟨by simp only [Subscription.array,data,past,span],?_⟩
  by_cases goesOn : a.goesOn
  · simp only [goesOn,true_and]
    by_cases empty : (advanceBuffers bs a.count).1 = []
    · rw [if_neg (not_not_intro empty)]
      simp [Subscription.item,Transfer.item,next,goesOn,SequenceOp.itemSetValue,SequenceOp.nextSetValue,left,
        BufferSequence.empty,empty]
    · rw [if_pos empty]
      refine ⟨⟨?_,data⟩,past⟩
      simp [Subscription.item,Transfer.item,next,goesOn,SequenceOp.itemSetValue,SequenceOp.nextSetValue,left,
        BufferSequence.empty,empty,SequenceOp.connectNext]
  · rw [if_neg (by simp [goesOn])]
    simp [Subscription.item,Transfer.item,next,goesOn,SequenceOp.nextSetStopped]

/-- The array never gets bytes back. -/
theorem total_items (going : Going s bs) (answers : List Answer) :
    total (answers.foldl Subscription.item s).array ≤ total s.array := by
  induction answers generalizing s bs with
  | nil => exact Nat.le_refl _
  | cons a answers ih =>
    rw [List.foldl_cons]
    obtain ⟨array,after⟩ := item_going going a
    have less : total (s.item a).array ≤ total s.array := by
      rw [array,going.array]
      exact (total_advanceInPlace s.past bs a.count).1
    split at after
    · exact Nat.le_trans (ih after.1) less
    · rwa [items_of_done after]

/-- A run leaves the array as it was if and only if every transfer of it ends where a buffer
    ends. -/
theorem array_items_iff (going : Going s bs) (answers : List Answer) :
    (answers.foldl Subscription.item s).array = s.array ↔ EndsAtBoundaries bs (counts answers) := by
  induction answers generalizing s bs with
  | nil => exact ⟨fun _ => endsAtBoundaries_nil bs,fun _ => rfl⟩
  | cons a answers ih =>
    rw [List.foldl_cons,counts,endsAtBoundaries_cons]
    obtain ⟨array,after⟩ := item_going going a
    by_cases boundary : Boundary bs a.count
    · rw [advanceInPlace_boundary boundary,← going.array] at array
      by_cases goesOn : a.goesOn
      · by_cases empty : (advanceBuffers bs a.count).1 = []
        · rw [if_neg (by simp [empty])] at after
          rw [items_of_done after,empty]
          exact ⟨fun _ => ⟨boundary,fun k _ => boundary_nil _⟩,fun _ => array⟩
        · rw [if_pos ⟨goesOn,empty⟩] at after
          rw [← array,ih after.1,if_pos goesOn]
          exact (and_iff_right boundary).symm
      · rw [if_neg (by simp [goesOn])] at after
        rw [items_of_done after,if_neg goesOn]
        exact ⟨fun _ => ⟨boundary,endsAtBoundaries_nil _⟩,fun _ => array⟩
    · refine ⟨fun same => absurd (congrArg total same) (Nat.ne_of_lt ?_),fun ends => absurd ends.1 boundary⟩
      have less : total (s.item a).array < total s.array := by
        rw [array,going.array]
        exact (total_advanceInPlace s.past bs a.count).2 boundary
      split at after
      · exact Nat.lt_of_le_of_lt (total_items after.1 answers) less
      · rwa [items_of_done after]

theorem span_items (span : s.transfer.op.buffer.data = .span bs) (answers : List Answer) :
    ∃ rest, (answers.foldl Subscription.item s).transfer.op.buffer.data = .span rest := by
  induction answers generalizing s bs with
  | nil => exact ⟨bs,span⟩
  | cons a answers ih =>
    cases next : s.transfer.op.nextOp with
    | none =>
      rw [items_of_done next]
      exact ⟨bs,span⟩
    | some sqe =>
      rw [List.foldl_cons]
      exact ih (item_data next span a)

/-- After a run over a span, the sender finds what the run has left of the buffers. -/
theorem run_span (factory : BufferSequence → BitVec 64 → Sqe) (bs : List Buffer) (offset : BitVec 64) (w : World)
    (answers : List Answer) : Sender.run ⟨factory,.span bs,offset⟩ w answers =
      ⟨factory,.span (answers.foldl Subscription.item (Sender.subscribe ⟨factory,.span bs,offset⟩ w)).array,offset⟩ := by
  obtain ⟨rest,span⟩ := span_items (s := Sender.subscribe ⟨factory,.span bs,offset⟩ w) rfl answers
  simp only [Sender.run,Sender.after,Subscription.array,span]

/-- The buffers are left as they were if and only if all transfers end where one ends. -/
theorem run_span_iff (factory : BufferSequence → BitVec 64 → Sqe) (bs : List Buffer) (offset : BitVec 64) (w : World)
    (answers : List Answer) :
    (answers.foldl Subscription.item (Sender.subscribe ⟨factory,.span bs,offset⟩ w)).array = bs ↔
      EndsAtBoundaries bs (counts answers) :=
  array_items_iff (s := Sender.subscribe ⟨factory,.span bs,offset⟩ w) ⟨rfl,rfl⟩ answers

/-- The first request of a second run is that of the first run, and the first run leaves the
    buffers as they were, if and only if there is a single buffer, or every transfer of the
    first run ends where a buffer of the span ends. -/
theorem second_run_iff (sender : Sender) (w w' : World) (answers : List Answer) :
    ((sender.run w answers).firstRequest w' = sender.firstRequest w ↔ sender.Restored answers) ∧
    (sender.run w answers = sender ↔ sender.Restored answers) := by
  obtain ⟨factory,data,offset⟩ := sender
  cases data with
  | single b => exact ⟨⟨fun _ => trivial,fun _ => rfl⟩,fun _ => trivial,fun _ => rfl⟩
  | span bs =>
    have iff := run_span_iff factory bs offset w answers
    rw [run_span]
    constructor
    · change BufferSpan.mk _ _ = BufferSpan.mk _ _ ↔ EndsAtBoundaries bs (counts answers)
      simpa only [BufferSpan.mk.injEq,BufferSequence.span.injEq,and_true] using iff
    · change _ ↔ EndsAtBoundaries bs (counts answers)
      simpa only [Sender.mk.injEq,BufferSequence.span.injEq,true_and,and_true] using iff

/-- After a transfer of one of two bytes, the second run asks for the other one only. -/
theorem second_run_lacks_byte :
    ¬ ∀ sender : Sender, ∀ (w w' : World) (answers : List Answer), Allowed (sender.subscribe w).transfer answers →
      (sender.run w answers).firstRequest w' = sender.firstRequest w := by
  intro claimed
  have same := claimed ⟨readFactory,.span [⟨0,2⟩],-1⟩ (zeros 2) (zeros 2) [⟨1,true,false⟩] ⟨by decide,trivial⟩
  revert same
  decide

end SendersIo.Resubscription
