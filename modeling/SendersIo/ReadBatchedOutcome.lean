import Mathlib.Algebra.BigOperators.Fin
import SendersIo.ReadBatchedProgress

/-!
Reading in batches. Every instruction of the handlers and everything that is still to
come in the sequences, in the items and in the reads stands for a number of moves, and
each move makes their sum smaller: no run goes on for ever. As a run that has not
completed goes on, every run completes, and by then every tuple has been read.
-/
namespace SendersIo.ReadBatchedOutcome
open SendersIo.Interleaving SendersIo.Signals SendersIo.Buffers SendersIo.FileHandle SendersIo.ReadBatched
open SendersIo.ReadBatchedItems SendersIo.ReadBatchedForks SendersIo.ReadBatchedBytes SendersIo.ReadBatchedProgress
open SendersIo.Zip (Item OperationBase)

variable {Error : Type}

/-! ### What a move stands for -/

/-- The moves that an instruction of `zip` brings. -/
def zipWeight : Zip.Instr 2 Value Error → Nat
  | .callout | .emplaceStopCallback | .clearQueues | .storeError _ | .startNext _ => 1
  | .startChild _ | .complete _ | .setStopped _ | .requestStop | .finish _ => 2
  | .resetStopCallback _ => 3
  | .fetchSub _ _ | .completeAllItemOps _ => 5
  | .startZipped _ _ _ => 9
  | .recount _ _ => 10
  | .checkStop _ _ => 11
  | .popFronts _ _ => 12
  | .collectResults _ => 13
  | .notifyResultCompletion _ => 14
  | .pushBack _ => 17
  | .testStop _ => 18
  | .emplaceResult _ _ => 19

/-- The moves that an instruction of `fork` brings. -/
def forkWeight : Fork.Instr Error → Nat
  | .decreaseRef => 4
  | .loadCompletionType => 2
  | _ => 1

def weight : Instr Error → Nat
  | .zip i => zipWeight i
  | .fork i => forkWeight i

/-- The moves that a sequence of the given length brings, from the item at a position. -/
def childEffort (length position : Nat) (z : OperationBase 2 Value Error) (i : Fin 2) : Nat :=
  23 * (length - position) + 21 * (position - (z.arrived i).length) + 2 * (z.queues i).length +
    if i ∈ z.completedChildren then 0 else 7

/-- The moves that the sequences and the tuples bring. -/
def zipEffort (length position : Fin 2 → Nat) (z : OperationBase 2 Value Error) : Nat :=
  (Finset.univ.sum fun i => childEffort (length i) (position i) z i) +
    7 * z.emitted.countP (fun e => decide (e.trigger ∉ z.completedZipped)) + if z.begun then 0 else 7

/-- The moves that an item brings, by its phase. -/
def phaseEffort : Fork.Phase → Nat
  | .fresh => 14
  | .setup => 12
  | .allocated | .running => 9
  | .completed | .deleting => 6
  | _ => 0

/-- The moves that `m` items bring. -/
def forkEffort (m : Nat) (f : Fork.OperationBase Error) : Nat :=
  ((Finset.range m).sum fun k => phaseEffort (f.phase k)) + if f.upstream = .running then 6 else 0

/-- The moves that a read into a buffer of the given size brings. -/
def readEffort (size : Nat) : Option (Read Error) → Nat
  | none => 2 * (size + 1)
  | some r => if r.stream.completions.isEmpty then 2 * (size - r.stream.transferred + 1) else 0

/-- How many reads there are. -/
def count (buffers : List Buffer) (offsets : List (BitVec 64)) : Nat := min buffers.length offsets.length

/-- The size of the buffer of a read. -/
def sizeOf (buffers : List Buffer) (k : Nat) : Nat := (buffers[k]?.map Buffer.size).getD 0

/-- The moves that `m` reads bring. -/
def readsEffort (buffers : List Buffer) (m : Nat) (reads : Nat → Option (Read Error)) : Nat :=
  (Finset.range m).sum fun k => readEffort (sizeOf buffers k) (reads k)

/-- The moves that are still to come for what the environment may do. -/
def potential (buffers : List Buffer) (offsets : List (BitVec 64)) (s : Batch Error) : Nat :=
  zipEffort (fun i => (itemsOf buffers offsets i).length) s.position s.zip + forkEffort (count buffers offsets) s.fork +
    readsEffort buffers (count buffers offsets) s.reads

/-- A sum changes by what one of its terms changes. -/
theorem sum_change {α : Type} [DecidableEq α] {t : Finset α} {f g : α → Nat} {a : α} (member : a ∈ t)
    (same : ∀ b, b ≠ a → g b = f b) : t.sum g + f a = t.sum f + g a := by
  have after : g a + (t.erase a).sum g = t.sum g := Finset.add_sum_erase t g member
  have before : f a + (t.erase a).sum f = t.sum f := Finset.add_sum_erase t f member
  have others : (t.erase a).sum g = (t.erase a).sum f :=
    Finset.sum_congr rfl fun b member => same b (Finset.ne_of_mem_erase member)
  omega

variable {c : Config Party (Batch Error) (Instr Error)} {s : Batch Error} {stack below : List Party}
  {buffers : List Buffer} {offsets : List (BitVec 64)} {w : World} {z z' : OperationBase 2 Value Error}
  {p : Zip.Party 2} {i : Zip.Instr 2 Value Error} {new rest : List (Zip.Instr 2 Value Error)}
  {length position : Fin 2 → Nat}

/-! ### The moves of `zip` -/

/-- A step that leaves the items, the tuples and the sequences as they are. -/
theorem lowers_of_same (arrived : z'.arrived = z.arrived) (queues : z'.queues = z.queues)
    (children : z'.completedChildren = z.completedChildren) (emitted : z'.emitted = z.emitted)
    (zipped : z'.completedZipped = z.completedZipped) (begun : z'.begun = z.begun)
    (fewer : (new.map zipWeight).sum < zipWeight i) :
    zipEffort length position z' + (new.map zipWeight).sum < zipEffort length position z + zipWeight i := by
  have same : zipEffort length position z' = zipEffort length position z := by
    simp only [zipEffort,childEffort,arrived,queues,children,emitted,zipped,begun]
  omega

/-- What one sequence brings changes. -/
theorem lowers_of_change {position' : Fin 2 → Nat} (k : Fin 2) (m n : Nat)
    (other : ∀ j, j ≠ k → childEffort (length j) (position' j) z' j = childEffort (length j) (position j) z j)
    (fewer : childEffort (length k) (position' k) z' k + m < childEffort (length k) (position k) z k + n)
    (emitted : z'.emitted = z.emitted) (zipped : z'.completedZipped = z.completedZipped) (begun : z'.begun = z.begun) :
    zipEffort length position' z' + m < zipEffort length position z + n := by
  have change := sum_change (f := fun j => childEffort (length j) (position j) z j)
    (g := fun j => childEffort (length j) (position' j) z' j) (Finset.mem_univ k) other
  simp only [zipEffort,emitted,zipped,begun]
  omega

/-- The front items leave the queues. -/
theorem zipEffort_pop (x : Item 2) (ops : Fin 2 → Item 2) : zipEffort length position
    { z with
      queues := fun i => (z.queues i).tail
      itemOps := Function.update z.itemOps x (some ops)
      nReadyNextItems := -1 } ≤ zipEffort length position z := by
  refine Nat.add_le_add_right (Nat.add_le_add_right (Finset.sum_le_sum fun i _ => ?_) _) _
  simp only [childEffort,List.length_tail]
  omega

/-- The items that wait are completed. -/
theorem zipEffort_clear : zipEffort length position { z with queues := fun _ => [], nReadyNextItems := 0 } +
    ((Zip.completeQueues z).map zipWeight).sum = zipEffort length position z := by
  have each : ∀ l : List (Item 2), (l.map (zipWeight ∘ (Zip.Instr.complete : Item 2 → Zip.Instr 2 Value Error))).sum =
      2 * l.length := by
    intro l
    simp [Function.comp_def,zipWeight,Nat.mul_comm]
  have all : ((Zip.completeQueues z).map zipWeight).sum = 2 * (z.queues 0).length + 2 * (z.queues 1).length := by
    simp [Zip.completeQueues,List.finRange_succ,each]
  simp only [zipEffort,childEffort,Fin.sum_univ_two,all,List.length_nil]
  omega

/-- One more zipped operation runs. -/
theorem zipEffort_emit (e : Zip.Emitted 2 Value) :
    zipEffort length position { z with emitted := z.emitted ++ [e] } ≤ zipEffort length position z + 7 := by
  have one : [e].countP (fun e => decide (e.trigger ∉ z.completedZipped)) ≤ 1 := List.countP_le_length
  simp only [zipEffort,childEffort,List.countP_append]
  omega

/-- A step of a handler makes fewer moves to come. -/
theorem zip_lowers (doing : i.ofItem = true → ZipPairing.Doing z i) (calm : z.outerStopRequested = false)
    (ran : Zip.Ran none z i z' new) :
    zipEffort length position z' + (new.map zipWeight).sum < zipEffort length position z + zipWeight i := by
  cases ran with
  | emplaceThrows _ _ e throws => cases throws
  | zippedThrows _ _ _ e throws => cases throws
  | pushBack x =>
    refine lowers_of_change x.index _ _ (fun j other => by simp [childEffort,other]) ?_ rfl rfl rfl
    simp [childEffort,zipWeight]
    omega
  | popFronts x result ops =>
    have fewer : zipEffort length position _ ≤ zipEffort length position z := zipEffort_pop x ops
    simp only [List.map_cons,List.map_nil,List.sum_cons,List.sum_nil,zipWeight]
    omega
  | clearQueues =>
    rw [zipEffort_clear]
    simp [zipWeight]
  | startZipped x result next ops =>
    cases doing rfl
    have more : zipEffort length position _ ≤ zipEffort length position z + 7 := zipEffort_emit ⟨x,ops,result⟩
    simp only [Bool.false_eq_true,if_false,List.map_cons,List.map_nil,List.sum_cons,List.sum_nil,zipWeight]
    omega
  | startNext x y => cases doing rfl
  | recountAll x result all =>
    cases doing rfl with
    | recount _ _ ops _ _ _ _ empty =>
      have full := (Finset.card_eq_iff_eq_univ _).mp (all.trans (Fintype.card_fin 2).symm)
      have member : x.index ∈ Zip.nonEmpty z := full ▸ Finset.mem_univ _
      simp [Zip.nonEmpty,empty] at member
  | emplaceStopCallback => exact lowers_of_same rfl rfl rfl rfl rfl rfl (by simp [calm,zipWeight])
  | testStop | announced | checkStop =>
    refine lowers_of_same rfl rfl rfl rfl rfl rfl ?_
    split <;> simp [zipWeight]
  | fetchSub k signal =>
    refine lowers_of_same rfl rfl rfl rfl rfl rfl ?_
    split <;> cases signal <;> simp [Zip.notLast,Zip.notifyStop,Zip.notifyError,zipWeight]
  | completeAllItemOps x ops =>
    exact lowers_of_same rfl rfl rfl rfl rfl rfl (by simp [Zip.completeAll,List.finRange_succ,zipWeight])
  | _ => exact lowers_of_same rfl rfl rfl rfl rfl rfl (by simp [zipWeight])

/-- An event of `zip` brings fewer moves than it takes. -/
theorem supplied_lowers {e : Zip.Event 2 Value Error} (reads : Reads buffers offsets w c stack)
    (supplied : Supplied c.shared e z new position) :
    zipEffort (fun i => (itemsOf buffers offsets i).length) position z + ((new.map zipWeight).sum + 1) <
      zipEffort (fun i => (itemsOf buffers offsets i).length) c.shared.position c.shared.zip + 0 := by
  have handed := reads_handed reads
  cases supplied with
  | start fresh => simp [zipEffort,childEffort,fresh,List.finRange_succ,zipWeight]
  | setNext x at_x inside goes =>
    rw [reads_items reads] at inside
    have behind := (handed.behind x.index).1
    rw [zipOf_shared] at behind
    refine lowers_of_change x.index _ _ (fun j other => by simp [childEffort,other]) ?_ rfl rfl rfl
    simp only [childEffort,Function.update_self,List.map_nil,List.sum_nil]
    omega
  | itemValue x v at_x started open_ =>
    have inside := (handed.started x).mp started
    have fresh := mt (handed.completed x).mpr open_
    rw [zipOf_shared] at fresh
    refine lowers_of_change x.index _ _ (fun j other => by simp [childEffort,other]) ?_ rfl rfl rfl
    simp only [childEffort,Function.update_self,List.length_append,List.length_singleton,Zip.itemSetValue,List.map_cons,
      List.map_nil,List.sum_cons,List.sum_nil,zipWeight]
    omega
  | zippedValue k e at_k done open_ =>
    have known := (reads_zip reads).known
    have fewer := ZipPairing.countP_except known.triggers_distinct (List.mem_of_getElem? at_k)
      (P := fun d => decide (d.trigger ∉ c.shared.zip.completedZipped))
      (Q := fun d => decide (d.trigger ∉ c.shared.zip.completedZipped ++ [e.trigger]))
      (fun d _ other => by simp [other])
    rw [if_neg (by simp),if_pos (by simpa using open_),zipOf_shared] at fewer
    simp only [zipEffort,childEffort,Zip.zippedSetValue,List.map_cons,List.map_nil,List.sum_cons,List.sum_nil,zipWeight]
    omega
  | childCompletes i signal fine ended open_ closed =>
    refine lowers_of_change i _ _ (fun j other => by simp [childEffort,other]) ?_ rfl rfl rfl
    simp [childEffort,open_,Zip.childComplete,zipWeight]

/-! ### The moves of `fork` and of the reads -/

/-- One item goes on. -/
theorem phaseEffort_change {phase : Nat → Fork.Phase} {l m : Nat} {before : Fork.Phase} (after : Fork.Phase) (inside : l < m)
    (here : phase l = before) :
    ((Finset.range m).sum fun k => phaseEffort (Function.update phase l after k)) + phaseEffort before =
      ((Finset.range m).sum fun k => phaseEffort (phase k)) + phaseEffort after := by
  have change := sum_change (f := fun k => phaseEffort (phase k))
    (g := fun k => phaseEffort (Function.update phase l after k)) (Finset.mem_range.mpr inside)
    (fun b other => by simp [other])
  simpa [here] using change

theorem complete_le (f : Fork.OperationBase Error) :
    ((if f.refCounter = 1 then Fork.complete else [] : List (Fork.Instr Error)).map forkWeight).sum ≤ 3 := by
  split <;> simp [Fork.complete,forkWeight]

/-- A step of `fork` makes fewer moves to come. -/
theorem fork_lowers {m : Nat} {f f' : Fork.OperationBase Error} {p : Fork.Party} {i : Fork.Instr Error}
    {new : List (Fork.Instr Error)} (inside : ∀ k, f.phase k ≠ .fresh → k < m) (works : Works f p i f' new) :
    forkEffort m f' + (new.map forkWeight).sum < forkEffort m f + forkWeight i := by
  cases works with
  | releaseUpstream completing =>
    have few := complete_le f
    simp only [forkEffort,completing,reduceCtorEq,if_false,forkWeight]
    omega
  | releaseItem k here =>
    have few := complete_le f
    have change := phaseEffort_change .released (inside k (by simp [here])) here
    simp only [forkEffort,phaseEffort,forkWeight] at change ⊢
    omega
  | startItem k here =>
    have change := phaseEffort_change .running (inside k (by simp [here])) here
    simp only [forkEffort,phaseEffort,forkWeight,List.map_nil,List.sum_nil] at change ⊢
    omega
  | startDelete k here =>
    have change := phaseEffort_change .deleting (inside k (by simp [here])) here
    simp only [forkEffort,phaseEffort,forkWeight,List.map_nil,List.sum_nil] at change ⊢
    omega
  | _ => simp [forkEffort,forkWeight]

/-- An event of `fork` brings fewer moves than it takes. -/
theorem called_lowers {f : Fork.OperationBase Error} {e : Fork.Event Error} {new : List (Fork.Instr Error)}
    (reads : Reads buffers offsets w c stack) (called : Called c.shared e f new) :
    forkEffort (count buffers offsets) f + ((new.map forkWeight).sum + 1) <
      forkEffort (count buffers offsets) c.shared.fork := by
  have emitted := emitted_le_min reads
  have inside : ∀ k, c.shared.fork.phase k ≠ .fresh → k < count buffers offsets := fun k some =>
    (reads_inside reads k some).trans_le emitted
  cases called with
  | setNext k _ here tuple =>
    have change := phaseEffort_change .setup (tuple.trans_le emitted) here
    simp only [forkEffort,phaseEffort,count,List.map_nil,List.sum_nil] at change ⊢
    omega
  | newValue k here =>
    have change := phaseEffort_change .allocated (inside k (by simp [here])) here
    simp only [forkEffort,phaseEffort,forkWeight,List.map_cons,List.map_nil,List.sum_cons,List.sum_nil] at change ⊢
    omega
  | nextValue k r here =>
    have change := phaseEffort_change .completed (inside k (by simp [here])) here
    simp only [forkEffort,phaseEffort,forkWeight,List.map_cons,List.map_nil,List.sum_cons,List.sum_nil] at change ⊢
    omega
  | deleteValue k here =>
    have change := phaseEffort_change .deleted (inside k (by simp [here])) here
    simp only [forkEffort,phaseEffort,forkWeight,List.map_cons,List.map_nil,List.sum_cons,List.sum_nil] at change ⊢
    omega
  | upstreamValue running => simp [forkEffort,running,forkWeight]

theorem readsEffort_change (buffers : List Buffer) {m l : Nat} (reads : Nat → Option (Read Error))
    (r : Option (Read Error)) (inside : l < m) :
    readsEffort buffers m (Function.update reads l r) + readEffort (sizeOf buffers l) (reads l) =
      readsEffort buffers m reads + readEffort (sizeOf buffers l) r := by
  have change := sum_change (f := fun k => readEffort (sizeOf buffers k) (reads k))
    (g := fun k => readEffort (sizeOf buffers k) (Function.update reads l r k)) (Finset.mem_range.mpr inside)
    (fun b other => by simp [other])
  simpa [readsEffort] using change

theorem sizeOf_eq {k : Nat} {b : Buffer} (at_b : buffers[k]? = some b) : sizeOf buffers k = b.size := by
  simp [sizeOf,at_b]

/-- A reply brings fewer moves than it takes. -/
theorem reply_lowers (within : Within buffers offsets w.file) (reads : Reads buffers offsets w c stack) {k n : Nat}
    {r : Read Error} {sqe : Sqe} (at_k : c.shared.reads k = some r) (next : r.stream.op.nextOp = some sqe)
    (answers : kernelAnswers c.shared.world sqe n = true) :
    potential buffers offsets (c.shared.reply k r n) + 1 < potential buffers offsets c.shared := by
  have filled := reads_filled within reads
  have joined := reads_joined reads
  have pair : Pair buffers offsets k r.buffer r.offset := joined.arguments k r at_k
  have served := filled.served k r at_k
  obtain ⟨stream,world,same,later,transferred,some,_⟩ := reply_served (k := k) (within.short k _ _ pair)
    (by rw [filled.unchanged]; exact within.inside k _ _ pair) (by rw [filled.unchanged]; exact within.size) served next
    answers
  have inside : k < count buffers offsets :=
    lt_min (List.getElem?_eq_some_iff.mp pair.1).1 (List.getElem?_eq_some_iff.mp pair.2).1
  have change := readsEffort_change buffers c.shared.reads (Option.some { r with stream }) inside
  have silent : r.stream.completions = [] := by
    rcases served_cases served with ⟨_,silent,_⟩ | ⟨ended,_⟩
    · exact silent
    · simp [ended] at next
  have bound := served_le later
  rw [at_k,sizeOf_eq pair.1] at change
  simp only [readEffort,silent,List.isEmpty_nil,if_true,transferred] at change bound
  rw [same]
  simp only [potential]
  split at change
  · rename_i open_
    have advanced := some (List.isEmpty_iff.mp open_)
    omega
  · omega

theorem zip_weights (l : List (Zip.Instr 2 Value Error)) : ((l.map Instr.zip).map weight).sum = (l.map zipWeight).sum := by
  rw [List.map_map]
  rfl

theorem fork_weights (l : List (Fork.Instr Error)) : ((l.map Instr.fork).map weight).sum = (l.map forkWeight).sum := by
  rw [List.map_map]
  rfl

/-- A step of a handler makes fewer moves to come. -/
theorem run_lowers {p : Party} {i : Instr Error} {rest new : List (Instr Error)}
    (reads : Reads buffers offsets w c (p :: below)) (left : c.threads p = i :: rest)
    (ran : (s,new) ∈ (machine Error).exec p i c.shared) :
    potential buffers offsets s + (new.map weight).sum < potential buffers offsets c.shared + weight i := by
  have inside : ∀ k, c.shared.fork.phase k ≠ .fresh → k < count buffers offsets := fun k some =>
    (reads_inside reads k some).trans_le (emitted_le_min reads)
  cases ran_of_mem ran with
  | zip q j z new did =>
    have here : (zipOf c).threads q = j :: rest.filterMap Instr.zip? := by simp [zipOf,left,Instr.zip?]
    have fewer : zipEffort (fun i => (itemsOf buffers offsets i).length) c.shared.position z + _ <
        zipEffort _ _ c.shared.zip + _ :=
      zip_lowers (doing_of_left (reads_zip reads) here) (reads_ending reads).calm (ran_of_zipExec did)
    rw [zip_weights]
    simp only [potential,weight]
    omega
  | fork q j f new did quiet =>
    have fewer := fork_lowers inside (reads_works reads left rfl did)
    rw [fork_weights]
    simp only [potential,weight]
    omega
  | startRead q j k f new did starts =>
    have works := reads_works reads left rfl did
    have fewer := fork_lowers inside works
    obtain ⟨allocated,rfl,rfl,rfl,rfl⟩ := works_startItem works starts
    have tuple := reads_inside reads k (by simp [allocated])
    have at_k := List.getElem?_eq_getElem tuple
    obtain ⟨b,o,at_b,at_o,buffer,offset⟩ := reads_arguments reads at_k
    have same := startRead_eq (s := { c.shared with
      fork := { c.shared.fork with phase := Function.update c.shared.fork.phase k .running } }) at_k buffer offset
    have none : c.shared.reads k = none := by
      have reading := (reads_joined reads).reading k
      rw [allocated] at reading
      simpa [setNextDone] using reading
    have change := readsEffort_change buffers c.shared.reads (some ⟨b,o,ByteStream.start Error .read b o c.shared.world⟩)
      (inside k (by simp [allocated]))
    rw [none,sizeOf_eq at_b] at change
    simp only [readEffort,ByteStream.start,List.isEmpty_nil,if_true,Nat.sub_zero] at change
    rw [fork_weights,same]
    simp only [potential,Batch.withRead,weight,ByteStream.start] at fewer ⊢
    omega

/-- An event brings fewer moves than it takes. -/
theorem call_lowers {e : Event Error} {prog : List (Instr Error)} (within : Within buffers offsets w.file)
    (reads : Reads buffers offsets w c stack) (accepted : accept e c.shared = some (s,prog)) :
    potential buffers offsets s + (prog.map weight).sum + 1 < potential buffers offsets c.shared := by
  cases raised_of_accept accepted with
  | zip e z new permitted raised =>
    have fewer := supplied_lowers reads (supplied_of_raised permitted raised)
    rw [zip_weights]
    simp only [potential]
    omega
  | fork e f new permitted taken =>
    have fewer := called_lowers reads (called_of_accept (reads_fork reads) rfl (reads_ending reads).delivered permitted taken)
    rw [fork_weights]
    simp only [potential]
    omega
  | reply k n r sqe at_k next answers =>
    have fewer := reply_lowers within reads at_k next answers
    simp only [List.map_nil,List.sum_nil,Nat.add_zero]
    omega

/-- No run goes on for ever. -/
theorem reads_end (within : Within buffers offsets w.file) :
    ¬ ∃ f : Nat → Config Party (Batch Error) (Instr Error) × List Party, f 0 = (initial Error buffers offsets w,[]) ∧
      ∀ k, Advance (machine Error) isCallout Any (f k) (f (k + 1)) :=
  no_endless_run_of_effort (potential buffers offsets) weight
    (fun _ _ _ _ _ _ _ reads left ran => run_lowers reads left ran)
    (fun _ _ _ _ _ reads _ _ accepted => call_lowers within reads accepted)

/-! ### What has been read -/

/-- When the sender has completed, so have the zip and every item of `fork`. -/
theorem completed_fork (reads : Reads buffers offsets w c stack) (completed : c.shared.fork.completions ≠ []) :
    c.shared.zip.completions ≠ [] ∧ ∀ k, ¬ Fork.Holding (c.shared.fork.phase k) := by
  have inv := reads_fork reads
  have none := inv.finish.finished completed
  have counter := inv.counted.counter
  rw [none] at counter
  have released : (forkOf c).shared.upstream = .released := by
    by_contra other
    rw [if_neg other] at counter
    omega
  rw [if_pos released] at counter
  refine ⟨(reads_joined reads).upstream (by rw [← forkOf_shared,released]; simp),fun k holding => ?_⟩
  have member := (inv.counted.holding k).mpr holding
  have := List.length_pos_of_mem member
  omega

/-- There is a tuple for every buffer that has an offset, and its read was started. -/
theorem completed_zip (reads : Reads buffers offsets w c stack) (completed : c.shared.zip.completions ≠ []) :
    c.shared.zip.emitted.length = count buffers offsets ∧
    ∀ k < count buffers offsets, setNextDone (c.shared.fork.phase k) = true := by
  have counted := ZipOutcome.reach_counted (nested_parts reads).2.1.reach
  have orderly := ZipOutcome.reach_orderly (nested_parts reads).2.1.reach
  have all : ∀ i, i ∈ c.shared.zip.completedChildren := fun i =>
    counted.known i (mem_of_length counted.distinct (counted.finished completed) i)
  have tuples := reads_all reads (List.ne_nil_of_mem (all 0))
  refine ⟨tuples,fun k inside => ?_⟩
  have at_k := List.getElem?_eq_getElem (tuples ▸ inside : k < c.shared.zip.emitted.length)
  refine (reads_joined reads).zipped k _ at_k (zipped_of_done (j := 0) reads at_k ?_)
  by_contra pending
  refine orderly.closed 0 (all 0) ⟨⟨0,k⟩,?_,rfl,pending⟩
  have handed := reads_handed reads
  have arrived := emitted_le_arrived reads 0
  have behind := (handed.behind 0).1
  rw [zipOf_shared] at behind
  refine (handed.started _).mpr ?_
  simp only
  have : k < c.shared.zip.emitted.length := tuples ▸ inside
  omega

/-- What has happened when the sender completes: it does so with a value, and every read
    of a buffer that has an offset was started in order and has completed; an address
    that the reads do not fill with different bytes has the byte of the file that a read
    was for. -/
structure Delivered (buffers : List Buffer) (offsets : List (BitVec 64)) (file : File) (s : Batch Error) : Prop where
  value : s.fork.completions = [.value ()]
  started : s.started = List.range (min buffers.length offsets.length)
  completed : ∀ k < min buffers.length offsets.length, ∃ r, s.reads k = some r ∧
    r.stream.completions = [.value r.buffer.size]
  bytes : ∀ k a p, Fills buffers offsets k a p → Agreed buffers offsets file a → s.world.memory a = file.bytes p

/-- A read whose item is done has completed. -/
theorem read_completed (within : Within buffers offsets w.file) (reads : Reads buffers offsets w c stack) {k : Nat}
    (done : setNextDone (c.shared.fork.phase k) = true) (released : ¬ Fork.Holding (c.shared.fork.phase k)) :
    ∃ r, c.shared.reads k = some r ∧ r.stream.completions = [.value r.buffer.size] ∧
      r.stream.transferred = r.buffer.size := by
  have filled := reads_filled within reads
  have reading := (reads_joined reads).reading k
  rw [done] at reading
  obtain ⟨r,at_k⟩ := Option.isSome_iff_exists.mp reading
  have far : 4 ≤ rank (c.shared.fork.phase k) := by
    generalize c.shared.fork.phase k = phase at done released
    cases phase <;> simp [setNextDone,Fork.Holding,rank] at done released ⊢
  rcases served_cases (filled.served k r at_k) with ⟨_,silent,_⟩ | ⟨_,completed,all⟩
  · exact absurd silent (filled.completed k r at_k far)
  · exact ⟨r,at_k,completed,all⟩

theorem reads_delivered (within : Within buffers offsets w.file) (reads : Reads buffers offsets w c stack)
    (completed : c.shared.fork.completions ≠ []) : Delivered buffers offsets w.file c.shared := by
  have joined := reads_joined reads
  obtain ⟨zipped,released⟩ := completed_fork reads completed
  obtain ⟨tuples,done⟩ := completed_zip reads zipped
  refine ⟨?_,?_,fun k inside => ?_,fun k a p fills agreed => ?_⟩
  · obtain ⟨signal,only⟩ := List.length_eq_one_iff.mp
      (Nat.le_antisymm (reads_fork reads).finish.once (List.length_pos_iff.mpr completed))
    rw [forkOf_shared] at only
    rw [only,(reads_calm reads).sent signal (by simp [only])]
  · have all : c.shared.started.length = count buffers offsets := by
      refine Nat.le_antisymm (Nat.le_of_not_lt fun more => ?_) (Nat.le_of_not_lt fun fewer => ?_)
      · have some := (joined.counted _).mpr more
        rw [joined.reading] at some
        have inside := reads_inside reads (count buffers offsets) (fun fresh => by simp [fresh,setNextDone] at some)
        omega
      · have some := done _ fewer
        rw [← joined.reading,joined.counted] at some
        omega
    rw [joined.order,all,count]
  · obtain ⟨r,at_k,ended,_⟩ := read_completed within reads (done k inside) (released k)
    exact ⟨r,at_k,ended⟩
  · obtain ⟨b,o,j,pair,inside,rfl,rfl⟩ := fills
    have read : k < count buffers offsets :=
      lt_min (List.getElem?_eq_some_iff.mp pair.1).1 (List.getElem?_eq_some_iff.mp pair.2).1
    obtain ⟨r,at_k,_,all⟩ := read_completed within reads (done k read) (released k)
    obtain ⟨at_b,at_o⟩ := joined.arguments k r at_k
    obtain rfl := Option.some.inj (pair.1.symm.trans at_b)
    obtain rfl := Option.some.inj (pair.2.symm.trans at_o)
    exact (reads_filled within reads).held k r j at_k (all ▸ inside) agreed

/-- What reading in batches is to do. At any time the reads are those of the first
    tuples, each started with the buffer and the offset of its own, and the sender has
    completed at most once, and then it has delivered what it is to deliver. A run that
    has not completed goes on, and none goes on for ever. -/
structure Delivers (Error : Type) (buffers : List Buffer) (offsets : List (BitVec 64)) (w : World) : Prop where
  arguments : ∀ c stack, Reads buffers offsets w c stack → ∀ k (r : Read Error), c.shared.reads k = some r →
    buffers[k]? = some r.buffer ∧ offsets[k]? = some r.offset
  started : ∀ (c : Config Party (Batch Error) (Instr Error)) stack, Reads buffers offsets w c stack →
    c.shared.started = List.range c.shared.started.length ∧ c.shared.started.length ≤ min buffers.length offsets.length
  once : ∀ (c : Config Party (Batch Error) (Instr Error)) stack, Reads buffers offsets w c stack →
    c.shared.fork.completions.length ≤ 1 ∧
    (c.shared.fork.completions ≠ [] → Delivered buffers offsets w.file c.shared)
  goes : ∀ (c : Config Party (Batch Error) (Instr Error)) stack, Reads buffers offsets w c stack →
    c.shared.fork.completions = [] → ∃ later, Advance (machine Error) isCallout Any (c,stack) later
  ends : ¬ ∃ f : Nat → Config Party (Batch Error) (Instr Error) × List Party, f 0 = (initial Error buffers offsets w,[]) ∧
    ∀ k, Advance (machine Error) isCallout Any (f k) (f (k + 1))

/-- Reading in batches does what it is to do, if the reads are within the file. -/
theorem read_batched_delivers (Error : Type) (within : Within buffers offsets w.file) :
    Delivers Error buffers offsets w where
  arguments _ _ reads := (reads_joined reads).arguments
  started c _ reads := by
    have joined := reads_joined reads
    refine ⟨joined.order,Nat.le_of_not_lt fun more => ?_⟩
    have some := (joined.counted _).mpr more
    rw [joined.reading] at some
    have inside := reads_inside reads (min buffers.length offsets.length) (fun fresh => by simp [fresh,setNextDone] at some)
    have few := emitted_le_min reads
    omega
  once _ _ reads := ⟨(reads_fork reads).finish.once,reads_delivered within reads⟩
  goes _ _ reads open_ := reads_go_on within reads open_
  ends := reads_end within

/-! ### A file of two bytes -/

theorem byte_beyond_two (p : Nat) (out : 2 ≤ p) : (if p = 0 then 1 else if p = 1 then 2 else 0 : UInt8) = 0 := by
  rw [if_neg (by omega),if_neg (by omega)]

/-- A file with the bytes 1 and 2. -/
def twoBytes : World where
  file :=
    { bytes := fun p => if p = 0 then 1 else if p = 1 then 2 else 0
      size := 2
      beyond := byte_beyond_two }
  position := 0
  memory _ := 0

theorem within_of_zip {file : File} (size : file.size < 2 ^ 63)
    (all : ∀ x ∈ buffers.zip offsets, x.1.size < 2 ^ 32 ∧ x.2.toNat + x.1.size ≤ file.size) :
    Within buffers offsets file := by
  have member : ∀ k b o, Pair buffers offsets k b o → (b,o) ∈ buffers.zip offsets := fun k b o pair =>
    List.mem_of_getElem? (i := k) (by simp [List.getElem?_zip_eq_some,pair.1,pair.2])
  exact ⟨size,fun k b o pair => (all _ (member k b o pair)).1,fun k b o pair => (all _ (member k b o pair)).2⟩

/-- The bytes are read into two buffers. -/
theorem read_batched_delivers_two : Within [⟨0,1⟩,⟨1,1⟩,⟨2,1⟩] [0,1] twoBytes.file ∧
    Delivers Nat [⟨0,1⟩,⟨1,1⟩,⟨2,1⟩] [0,1] twoBytes :=
  have within := within_of_zip (by decide) (by decide)
  ⟨within,read_batched_delivers Nat within⟩

/-- An event is raised, and its handler takes a number of steps and returns. -/
def handled (e : Event Nat) (n : Nat) : List (Move (Event Nat)) := .call e 0 :: (List.replicate n (.run 0)).concat .finish

/-- The bytes are read into the same buffer, one after the other: the second one
    overwrites the first one. -/
theorem overlapping_read_is_overwritten : Within [⟨0,1⟩,⟨0,1⟩] [0,1] twoBytes.file ∧
    ∃ (c : Config Party (Batch Nat) (Instr Nat)) (stack : List Party), Reads [⟨0,1⟩,⟨0,1⟩] [0,1] twoBytes c stack ∧
      c.shared.fork.completions = [.value ()] ∧ Fills [⟨0,1⟩,⟨0,1⟩] [0,1] 0 0 0 ∧
      c.shared.world.memory 0 ≠ twoBytes.file.bytes 0 := by
  refine ⟨within_of_zip (by decide) (by decide),?_⟩
  obtain ⟨c,stack,reads,holds⟩ := exists_of_followNested (machine Nat) isCallout Any
    (initial Nat [⟨0,1⟩,⟨0,1⟩] [0,1] twoBytes) (fun _ _ => true) (fun _ _ _ => trivial)
    (List.flatten [handled (.zip .start) 5,
      handled (.zip (.setNext ⟨0,0⟩)) 0,handled (.zip (.itemValue ⟨0,0⟩ (.buffer ⟨0,1⟩))) 4,
      handled (.zip (.setNext ⟨1,0⟩)) 0,handled (.zip (.itemValue ⟨1,0⟩ (.offset 0))) 10,
      handled (.fork (.setNext 0)) 0,handled (.fork (.newValue 0)) 1,handled (.reply 0 1) 0,
      handled (.fork (.nextValue 0)) 1,handled (.fork (.deleteValue 0)) 1,handled (.zip (.zippedValue ⟨1,0⟩)) 5,
      handled (.zip (.setNext ⟨0,1⟩)) 0,handled (.zip (.itemValue ⟨0,1⟩ (.buffer ⟨0,1⟩))) 4,
      handled (.zip (.setNext ⟨1,1⟩)) 0,handled (.zip (.itemValue ⟨1,1⟩ (.offset 1))) 10,
      handled (.fork (.setNext 1)) 0,handled (.fork (.newValue 1)) 1,handled (.reply 1 1) 0,
      handled (.fork (.nextValue 1)) 1,handled (.fork (.deleteValue 1)) 1,handled (.zip (.zippedValue ⟨1,1⟩)) 5,
      handled (.zip (.childCompletes 0 (.value ()))) 4,handled (.zip (.childCompletes 1 (.value ()))) 4,
      handled (.fork .upstreamValue) 4])
    (fun c _ => c.shared.fork.completions = [.value ()] && c.shared.world.memory 0 = 2) (by decide)
  simp only [Bool.and_eq_true,decide_eq_true_eq] at holds
  refine ⟨c,stack,reads,holds.1,⟨⟨0,1⟩,0,0,⟨rfl,rfl⟩,by decide,rfl,rfl⟩,?_⟩
  rw [holds.2]
  decide

end SendersIo.ReadBatchedOutcome
