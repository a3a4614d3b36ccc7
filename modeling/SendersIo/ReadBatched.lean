import SendersIo.ByteStream
import SendersIo.Fork
import SendersIo.ZipOutcome
import SendersIo.ZipPairing

/-!
Reads of a file into many buffers, on a single thread. The buffers and the offsets
are handed out one by one and zipped, every pair is forked, and its item is a read.
The operation is put together from the machines of its parts: what one part sends
to another is an event of the other part, which is raised at a time at which the
first one may send it. A sender that completes while it is started is an event that
is raised while the handler that has started it is in the call.
-/
namespace SendersIo.ReadBatched
open SendersIo.Interleaving SendersIo.Signals SendersIo.Buffers SendersIo.FileHandle

/-- An item of one of the two sequences. -/
inductive Value where
  | buffer (b : Buffer)
  | offset (o : BitVec 64)
  deriving DecidableEq

/-- `seekable_byte_stream::read` with its arguments, started. Its kernel is that of all reads. -/
structure Read (Error : Type) where
  buffer : Buffer
  offset : BitVec 64
  stream : ByteStream.Stream Error

/-- The operations of `read_batched`: how many items each `iterate` has handed out, the
    operations of `zip`, of `fork` and of the reads, and the order in which these were
    started. -/
structure Batch (Error : Type) where
  buffers : List Buffer
  offsets : List (BitVec 64)
  position : Fin 2 → Nat
  zip : Zip.OperationBase 2 Value Error
  fork : Fork.OperationBase Error
  reads : Nat → Option (Read Error)
  started : List Nat
  world : World

inductive Party where
  | zip (p : Zip.Party 2)
  | fork (p : Fork.Party)
  | kernel
  deriving DecidableEq

inductive Instr (Error : Type) where
  | zip (i : Zip.Instr 2 Value Error)
  | fork (i : Fork.Instr Error)

inductive Event (Error : Type) where
  | zip (e : Zip.Event 2 Value Error)
  | fork (e : Fork.Event Error)
  | reply (k n : Nat)

variable {Error : Type}

/-- The items of `iterate(buffers)` and of `iterate(offsets)`. -/
def Batch.items (s : Batch Error) (i : Fin 2) : List Value :=
  if i = 0 then s.buffers.map .buffer else s.offsets.map .offset

/-- The receiver of the last item of a sequence was completed with such a signal. -/
def Batch.itemDone (s : Batch Error) (i : Fin 2) (such : Signal Error → Bool) : Bool :=
  s.zip.itemCompletions.any fun d => decide (d.1 = ⟨i,s.position i - 1⟩) && such d.2

/-- A sequence goes on after an item that was completed with a value. -/
def Batch.goesOn (s : Batch Error) (i : Fin 2) : Bool := s.position i = 0 || s.itemDone i Completion.isValue

/-- The sender that `set_next` of `fork` returns has completed: the item operation was
    started, if there is one. -/
def setNextDone : Fork.Phase → Bool
  | .running | .completed | .deleting | .deleted | .released => true
  | _ => false

/-- When a part raises an event of `zip`. `iterate` ends after its last item, or after an
    item that was completed with stopped, and may complete with a value or with stopped. -/
def Batch.permitsZip (s : Batch Error) : Zip.Event 2 Value Error → Bool
  | .start => true
  | .setNext x => x.seq = s.position x.index && x.seq < (s.items x.index).length && s.goesOn x.index
  | .itemValue x v => (s.items x.index)[x.seq]? = some v
  | .zippedValue x => s.zip.emitted.zipIdx.any fun e => decide (e.1.trigger = x) && setNextDone (s.fork.phase e.2)
  | .childCompletes i signal => signal.error?.isNone &&
      (s.goesOn i && s.position i = (s.items i).length || s.itemDone i Completion.isStopped)
  -- nothing fails, and nobody requests a stop from outside
  | _ => false

/-- When a part raises an event of `fork`: the items are those that `zip` emits, and an
    item completes when its read does. -/
def Batch.permitsFork (s : Batch Error) : Fork.Event Error → Bool
  | .setNext k => k < s.zip.emitted.length
  | .newValue _ => true
  | .nextValue k => (s.reads k).any fun r => r.stream.completions.any Completion.isValue
  | .deleteValue _ => true
  | .upstreamValue => s.zip.completions.any fun d => d.signal.isValue
  | .upstreamStopped => s.zip.completions.any fun d => d.signal.isStopped
  | _ => false

/-- The item receivers of `iterate` have the stop token of `zip`, so that only one of the
    outcomes of `complete_` is left. -/
def zipExec (i : Zip.Instr 2 Value Error) (z : Zip.OperationBase 2 Value Error) :
    List (Zip.OperationBase 2 Value Error × List (Zip.Instr 2 Value Error)) :=
  match i with
  | .complete x =>
    [({ z with itemCompletions := z.itemCompletions ++ [(x,setValueUnlessStopped z.stopRequested)] },[.callout])]
  | i => Zip.exec none i z

/-- The function of `let_value_each`, called with the values of an item. -/
def Batch.startRead (s : Batch Error) (k : Nat) : Batch Error :=
  match s.zip.emitted[k]? with
  | some e =>
    match e.values 0,e.values 1 with
    | .buffer b,.offset o =>
      { s with
        reads := Function.update s.reads k (some ⟨b,o,ByteStream.start Error .read b o s.world⟩)
        started := s.started ++ [k] }
    | _,_ => s
  | none => s

/-- The item whose operation has just been started, and now runs. -/
def startsItem : Fork.Party → Fork.Instr Error → Fork.OperationBase Error → Option Nat
  | .item k,.startItem,f => if f.phase k = .running then some k else none
  | _,_,_ => none

/-- A step of `fork`. An item operation that runs has started its read. -/
def forkExec (p : Fork.Party) (i : Fork.Instr Error) (s : Batch Error) : List (Batch Error × List (Instr Error)) :=
  (Fork.exec p i s.fork).map fun out =>
    (match startsItem p i out.1 with
      | some k => Batch.startRead { s with fork := out.1 } k
      | none => { s with fork := out.1 },
      out.2.map .fork)

def exec : Party → Instr Error → Batch Error → List (Batch Error × List (Instr Error))
  | .zip _,.zip i,s => (zipExec i s.zip).map fun out => ({ s with zip := out.1 },out.2.map .zip)
  | .fork p,.fork i,s => forkExec p i s
  | _,_,_ => []

/-- The kernel has answered a request of a read with a number of bytes. -/
def Batch.reply (s : Batch Error) (k : Nat) (r : Read Error) (n : Nat) : Batch Error :=
  let stream := { r.stream with world := s.world }.step ⟨.value n,false⟩
  { s with reads := Function.update s.reads k (some { r with stream }), world := stream.world }

/-- The kernel transfers nothing for a request of length zero or beyond the end of the
    file, and between one byte and all of them for any other. -/
def kernelAnswers (w : World) (sqe : Sqe) (n : Nat) : Bool :=
  if sqe.length = 0 ∨ w.file.size ≤ w.place sqe then n = 0 else 1 ≤ n ∧ n ≤ sqe.length

/-- How many items the sequences have handed out after an event of `zip`. -/
def Batch.handedOut (s : Batch Error) : Zip.Event 2 Value Error → Fin 2 → Nat
  | .setNext x => Function.update s.position x.index (x.seq + 1)
  | _ => s.position

def accept : Event Error → Batch Error → Option (Batch Error × List (Instr Error))
  | .zip e,s =>
    if s.permitsZip e then
      (Zip.accept e s.zip).map fun out =>
        ({ s with zip := out.1, position := s.handedOut e },out.2.map .zip)
    else none
  | .fork e,s =>
    if s.permitsFork e then (Fork.accept e s.fork).map fun out => ({ s with fork := out.1 },out.2.map .fork) else none
  | .reply k n,s =>
    match s.reads k with
    | none => none
    | some r =>
      match r.stream.op.nextOp with
      | none => none
      | some sqe => if kernelAnswers s.world sqe n then some (s.reply k r n,[]) else none

def machine (Error : Type) : Machine Party (Batch Error) (Instr Error) (Event Error) where
  exec := exec
  accept := accept
  party
    | .zip e => .zip ((Zip.machine 2 Value (none : Option Error)).party e)
    | .fork e => .fork ((Fork.machine Error).party e)
    | .reply _ _ => .kernel

/-- The sender is connected, and `fork` has started its upstream sequence. -/
def initial (Error : Type) (buffers : List Buffer) (offsets : List (BitVec 64)) (w : World) :
    Config Party (Batch Error) (Instr Error) where
  shared :=
    { buffers, offsets, position := fun _ => 0, zip := (Zip.initial 2 Value Error).shared
      fork := Fork.start false, reads := fun _ => none, started := [], world := w }
  threads _ := []

/-- Control is in code that a handler of `zip` has called. -/
def isCallout : Instr Error → Bool
  | .zip i => Zip.isCallout i
  | .fork _ => false

/-! ### What a step can do -/

/-- The steps of the thread, one constructor for each kind. -/
inductive Ran (s : Batch Error) : Party → Instr Error → Batch Error → List (Instr Error) → Prop
  | zip (p : Zip.Party 2) (i : Zip.Instr 2 Value Error) (z : Zip.OperationBase 2 Value Error)
      (new : List (Zip.Instr 2 Value Error)) : (z,new) ∈ zipExec i s.zip →
      Ran s (.zip p) (.zip i) { s with zip := z } (new.map .zip)
  | fork (p : Fork.Party) (i : Fork.Instr Error) (f : Fork.OperationBase Error) (new : List (Fork.Instr Error)) :
      (f,new) ∈ Fork.exec p i s.fork → startsItem p i f = none →
      Ran s (.fork p) (.fork i) { s with fork := f } (new.map .fork)
  | startRead (p : Fork.Party) (i : Fork.Instr Error) (k : Nat) (f : Fork.OperationBase Error)
      (new : List (Fork.Instr Error)) : (f,new) ∈ Fork.exec p i s.fork → startsItem p i f = some k →
      Ran s (.fork p) (.fork i) (Batch.startRead { s with fork := f } k) (new.map .fork)

theorem ran_of_mem {s s' : Batch Error} {p : Party} {i : Instr Error} {new : List (Instr Error)}
    (ran : (s',new) ∈ exec p i s) : Ran s p i s' new := by
  cases p with
  | zip p =>
    cases i with
    | fork i => cases ran
    | zip i =>
      obtain ⟨⟨z,new⟩,member,same⟩ := List.mem_map.mp ran
      cases same
      exact .zip p i z new member
  | fork p =>
    cases i with
    | zip i => cases ran
    | fork i =>
      obtain ⟨⟨f,new⟩,member,same⟩ := List.mem_map.mp ran
      cases starts : startsItem p i f with
      | none =>
        simp only [starts] at same
        cases same
        exact .fork p i f new member starts
      | some k =>
        simp only [starts] at same
        cases same
        exact .startRead p i k f new member starts
  | kernel => cases i <;> cases ran

/-- The events that are accepted, one constructor for each kind. -/
inductive Raised (s : Batch Error) : Event Error → Batch Error → List (Instr Error) → Prop
  | zip (e : Zip.Event 2 Value Error) (z : Zip.OperationBase 2 Value Error) (new : List (Zip.Instr 2 Value Error)) :
      s.permitsZip e = true → Zip.Raised s.zip e z new →
      Raised s (.zip e) { s with zip := z, position := s.handedOut e } (new.map .zip)
  | fork (e : Fork.Event Error) (f : Fork.OperationBase Error) (new : List (Fork.Instr Error)) :
      s.permitsFork e = true → Fork.accept e s.fork = some (f,new) →
      Raised s (.fork e) { s with fork := f } (new.map .fork)
  | reply (k n : Nat) (r : Read Error) (sqe : Sqe) : s.reads k = some r → r.stream.op.nextOp = some sqe →
      kernelAnswers s.world sqe n = true → Raised s (.reply k n) (s.reply k r n) []

theorem raised_of_accept {s s' : Batch Error} {e : Event Error} {new : List (Instr Error)}
    (accepted : accept e s = some (s',new)) : Raised s e s' new := by
  cases e with
  | zip e =>
    simp only [accept] at accepted
    split at accepted
    · rename_i permitted
      obtain ⟨⟨z,new⟩,member,same⟩ := Option.map_eq_some_iff.mp accepted
      cases same
      exact .zip e z new permitted (Zip.raised_of_accept member)
    · cases accepted
  | fork e =>
    simp only [accept] at accepted
    split at accepted
    · rename_i permitted
      obtain ⟨⟨f,new⟩,member,same⟩ := Option.map_eq_some_iff.mp accepted
      cases same
      exact .fork e f new permitted member
    · cases accepted
  | reply k n =>
    simp only [accept] at accepted
    split at accepted
    · cases accepted
    · rename_i r at_k
      split at accepted
      · cases accepted
      · rename_i sqe next
        split at accepted
        · rename_i answers
          cases accepted
          exact .reply k n r sqe at_k next answers
        · cases accepted

/-! ### The parts -/

/-- What a party of `zip` has left. -/
def Instr.zip? : Instr Error → Option (Zip.Instr 2 Value Error)
  | .zip i => some i
  | .fork _ => none

def Instr.fork? : Instr Error → Option (Fork.Instr Error)
  | .zip _ => none
  | .fork i => some i

def Party.zip? : Party → Option (Zip.Party 2)
  | .zip p => some p
  | _ => none

/-- The configuration of the `zip` in it. -/
def zipOf (c : Config Party (Batch Error) (Instr Error)) :
    Config (Zip.Party 2) (Zip.OperationBase 2 Value Error) (Zip.Instr 2 Value Error) :=
  ⟨c.shared.zip,fun p => (c.threads (.zip p)).filterMap Instr.zip?⟩

/-- The configuration of the `fork` in it. -/
def forkOf (c : Config Party (Batch Error) (Instr Error)) :
    Config Fork.Party (Fork.OperationBase Error) (Fork.Instr Error) :=
  ⟨c.shared.fork,fun p => (c.threads (.fork p)).filterMap Instr.fork?⟩

/-- The handlers of `zip` that are active. -/
def zipStack (stack : List Party) : List (Zip.Party 2) := stack.filterMap Party.zip?

/-- Every party executes instructions of its part. -/
structure Kinds (c : Config Party (Batch Error) (Instr Error)) : Prop where
  zip : ∀ p, ∀ i ∈ c.threads (.zip p), i.zip?.isSome = true
  fork : ∀ p, ∀ i ∈ c.threads (.fork p), i.fork?.isSome = true
  kernel : c.threads .kernel = []

variable {c : Config Party (Batch Error) (Instr Error)} {s s' : Batch Error} {p : Party} {i : Instr Error}
  {new rest prog : List (Instr Error)} {stack : List Party} {buffers : List Buffer} {offsets : List (BitVec 64)}
  {w : World}

@[simp] theorem zipOf_shared (c : Config Party (Batch Error) (Instr Error)) : (zipOf c).shared = c.shared.zip := rfl

@[simp] theorem forkOf_shared (c : Config Party (Batch Error) (Instr Error)) : (forkOf c).shared = c.shared.fork := rfl

theorem filterMap_zip (l : List (Zip.Instr 2 Value Error)) : (l.map Instr.zip).filterMap Instr.zip? = l := by
  rw [List.filterMap_map]
  exact List.filterMap_some

theorem filterMap_fork (l : List (Fork.Instr Error)) : (l.map Instr.fork).filterMap Instr.fork? = l := by
  rw [List.filterMap_map]
  exact List.filterMap_some

theorem zipOf_put_zip (c : Config Party (Batch Error) (Instr Error)) (p : Zip.Party 2) (s : Batch Error)
    (prog : List (Instr Error)) :
    zipOf (c.put (.zip p) s prog) = (zipOf c).put p s.zip (prog.filterMap Instr.zip?) := by
  simp only [zipOf,Config.put,Config.mk.injEq,true_and]
  funext q
  by_cases same : q = p
  · subst same
    simp
  · simp [same]

theorem zipOf_put_other (c : Config Party (Batch Error) (Instr Error)) (other : p.zip? = none)
    (same : s.zip = c.shared.zip) (prog : List (Instr Error)) : zipOf (c.put p s prog) = zipOf c := by
  simp only [zipOf,put_shared,same,Config.mk.injEq,true_and]
  funext q
  rw [put_threads_ne c]
  rintro rfl
  cases other

theorem forkOf_put_fork (c : Config Party (Batch Error) (Instr Error)) (p : Fork.Party) (s : Batch Error)
    (prog : List (Instr Error)) :
    forkOf (c.put (.fork p) s prog) = (forkOf c).put p s.fork (prog.filterMap Instr.fork?) := by
  simp only [forkOf,Config.put,Config.mk.injEq,true_and]
  funext q
  by_cases same : q = p
  · subst same
    simp
  · simp [same]

theorem forkOf_put_other (c : Config Party (Batch Error) (Instr Error)) (other : ∀ q, p ≠ .fork q)
    (same : s.fork = c.shared.fork) (prog : List (Instr Error)) : forkOf (c.put p s prog) = forkOf c := by
  simp only [forkOf,put_shared,same,Config.mk.injEq,true_and]
  funext q
  rw [put_threads_ne c (other q).symm]

theorem startRead_keeps (s : Batch Error) (k : Nat) : ∃ reads started, s.startRead k = { s with reads, started } := by
  unfold Batch.startRead
  split
  · split <;> exact ⟨_,_,rfl⟩
  · exact ⟨_,_,rfl⟩

theorem startRead_zip (s : Batch Error) (k : Nat) : (s.startRead k).zip = s.zip := by
  obtain ⟨reads,started,same⟩ := startRead_keeps s k
  rw [same]

theorem startRead_fork (s : Batch Error) (k : Nat) : (s.startRead k).fork = s.fork := by
  obtain ⟨reads,started,same⟩ := startRead_keeps s k
  rw [same]

theorem zipExec_mem {z : Zip.OperationBase 2 Value Error} {i : Zip.Instr 2 Value Error}
    {out : Zip.OperationBase 2 Value Error × List (Zip.Instr 2 Value Error)} (ran : out ∈ zipExec i z) :
    out ∈ Zip.exec none i z := by
  cases i
  case complete x =>
    cases List.mem_singleton.mp ran
    cases stop : z.stopRequested <;> simp [Zip.exec,Zip.complete,stop,setValueUnlessStopped]
  all_goals exact ran

theorem kinds_put (kinds : Kinds c) (left : c.threads p = i :: rest)
    (zip : ∀ q, p = .zip q → ∀ j ∈ new, j.zip?.isSome = true)
    (fork : ∀ q, p = .fork q → ∀ j ∈ new, j.fork?.isSome = true) (some : p ≠ .kernel) :
    Kinds (c.put p s (new ++ rest)) := by
  refine ⟨fun q j member => ?_,fun q j member => ?_,?_⟩
  · rw [put_threads] at member
    split at member
    · rename_i here
      refine (List.mem_append.mp member).elim (zip q here.symm j) fun later => kinds.zip q j ?_
      rw [here,left]
      exact List.mem_cons_of_mem i later
    · exact kinds.zip q j member
  · rw [put_threads] at member
    split at member
    · rename_i here
      refine (List.mem_append.mp member).elim (fork q here.symm j) fun later => kinds.fork q j ?_
      rw [here,left]
      exact List.mem_cons_of_mem i later
    · exact kinds.fork q j member
  · rw [put_threads_ne c some.symm]
    exact kinds.kernel

theorem kinds_call (kinds : Kinds c) (zip : ∀ q, p = .zip q → ∀ j ∈ prog, j.zip?.isSome = true)
    (fork : ∀ q, p = .fork q → ∀ j ∈ prog, j.fork?.isSome = true) (kernel : p = .kernel → prog = []) :
    Kinds (c.put p s prog) := by
  refine ⟨fun q j member => ?_,fun q j member => ?_,?_⟩
  · rw [put_threads] at member
    split at member
    · rename_i here
      exact zip q here.symm j member
    · exact kinds.zip q j member
  · rw [put_threads] at member
    split at member
    · rename_i here
      exact fork q here.symm j member
    · exact kinds.fork q j member
  · rw [put_threads]
    split
    · rename_i here
      exact kernel here.symm
    · exact kinds.kernel

theorem run_kinds (kinds : Kinds c) (left : c.threads p = i :: rest) (ran : Ran c.shared p i s new) :
    Kinds (c.put p s (new ++ rest)) := by
  cases ran with
  | zip q j z new => exact kinds_put kinds left (by simp [Instr.zip?]) (by simp) (by simp)
  | fork q j f new => exact kinds_put kinds left (by simp) (by simp [Instr.fork?]) (by simp)
  | startRead q j k f new => exact kinds_put kinds left (by simp) (by simp [Instr.fork?]) (by simp)

theorem call_kinds (kinds : Kinds c) {e : Event Error} (raised : Raised c.shared e s new) :
    Kinds (c.put ((machine Error).party e) s new) := by
  cases raised with
  | zip e z new => exact kinds_call kinds (by simp [Instr.zip?]) (by simp [machine]) (by simp [machine])
  | fork e f new => exact kinds_call kinds (by simp [machine]) (by simp [Instr.fork?]) (by simp [machine])
  | reply k n => exact kinds_call kinds (by simp) (by simp) (by simp)

/-- A step of a part is a step of its machine. -/
theorem zip_step {z : Zip.OperationBase 2 Value Error} {q : Zip.Party 2} {j : Zip.Instr 2 Value Error}
    {out : List (Zip.Instr 2 Value Error)} (left : c.threads (.zip q) = .zip j :: rest)
    (ran : (z,out) ∈ zipExec j c.shared.zip) (s : Batch Error) (zip : s.zip = z) :
    zipOf (c.put (.zip q) s (out.map .zip ++ rest)) ∈ (Zip.machine 2 Value none).next (zipOf c) (.run q) := by
  rw [zipOf_put_zip,List.filterMap_append,filterMap_zip,zip]
  refine (mem_next_run _).mpr ⟨j,rest.filterMap Instr.zip?,z,out,?_,zipExec_mem ran,rfl⟩
  simp [zipOf,left,Instr.zip?]

theorem fork_step {f : Fork.OperationBase Error} {q : Fork.Party} {j : Fork.Instr Error}
    {out : List (Fork.Instr Error)} (left : c.threads (.fork q) = .fork j :: rest)
    (ran : (f,out) ∈ Fork.exec q j c.shared.fork) (s : Batch Error) (fork : s.fork = f) :
    forkOf (c.put (.fork q) s (out.map .fork ++ rest)) ∈ (Fork.machine Error).next (forkOf c) (.run q) := by
  rw [forkOf_put_fork,List.filterMap_append,filterMap_fork,fork]
  refine (mem_next_run _).mpr ⟨j,rest.filterMap Instr.fork?,f,out,?_,ran,rfl⟩
  simp [forkOf,left,Instr.fork?]

/-- Control is outside of `zip` when it is in code that no part has to finish first. -/
theorem zip_outside (kinds : Kinds c) (out : Outside isCallout c stack) :
    Outside Zip.isCallout (zipOf c) (zipStack stack) := by
  cases stack with
  | nil => trivial
  | cons p below =>
    obtain ⟨i,rest,left,callout⟩ := out
    cases i with
    | fork i => cases callout
    | zip i =>
      cases p with
      | zip q => exact ⟨i,rest.filterMap Instr.zip?,by simp [zipOf,left,Instr.zip?],callout⟩
      | fork q => simpa [Instr.fork?] using kinds.fork q (.zip i) (by simp [left])
      | kernel => simp [kinds.kernel] at left

/-- The runs of the parts are runs of their machines. -/
theorem nested_parts (nested : Nested (machine Error) isCallout Any (initial Error buffers offsets w) c stack) :
    Kinds c ∧
    Nested (Zip.machine 2 Value none) Zip.isCallout Any (Zip.initial 2 Value Error) (zipOf c) (zipStack stack) ∧
    Reach (Fork.machine Error) Fork.NoStopCallback (Fork.initial Error) (forkOf c) := by
  induction nested with
  | start => exact ⟨⟨fun _ _ => nofun,fun _ _ => nofun,rfl⟩,.start,.start⟩
  | @run c c' p below _ _ moved ih =>
    obtain ⟨kinds,zip,fork⟩ := ih
    obtain ⟨i,rest,s,new,left,ran,rfl⟩ := (mem_next_run _).mp moved
    have ran := ran_of_mem ran
    refine ⟨run_kinds kinds left ran,?_⟩
    cases ran with
    | zip q j z new did =>
      refine ⟨.run zip trivial (zip_step left did _ rfl),?_⟩
      rw [forkOf_put_other c (by simp)]
      · exact fork
      · rfl
    | fork q j f new did =>
      refine ⟨?_,.step (l := .run q) fork trivial (fork_step left did _ rfl)⟩
      rw [zipOf_put_other c rfl]
      · exact zip
      · rfl
    | startRead q j k f new did =>
      refine ⟨?_,.step (l := .run q) fork trivial (fork_step left did _ (startRead_fork _ k))⟩
      rw [zipOf_put_other c (p := .fork q) rfl (startRead_zip { c.shared with fork := f } k)]
      exact zip
  | @finish c p below _ idle ih =>
    obtain ⟨kinds,zip,fork⟩ := ih
    refine ⟨kinds,?_,fork⟩
    cases p with
    | zip q => exact .finish zip (by simp [zipOf,idle])
    | fork q => exact zip
    | kernel => exact zip
  | @call c c' e stack _ out _ moved ih =>
    obtain ⟨kinds,zip,fork⟩ := ih
    obtain ⟨s,prog,idle,accepted,rfl⟩ := (mem_next_call _).mp moved
    have raised := raised_of_accept accepted
    refine ⟨call_kinds kinds raised,?_⟩
    cases e with
    | zip e =>
      simp only [machine,accept] at accepted
      split at accepted
      · obtain ⟨⟨z,new⟩,member,same⟩ := Option.map_eq_some_iff.mp accepted
        cases same
        refine ⟨.call zip (zip_outside kinds out) trivial ((mem_next_call _).mpr ⟨z,new,?_,member,?_⟩),?_⟩
        · have idle : c.threads (.zip ((Zip.machine 2 Value (none : Option Error)).party e)) = [] := idle
          simp [zipOf,idle]
        · rw [show (machine Error).party (.zip e) = .zip ((Zip.machine 2 Value (none : Option Error)).party e) from rfl,
            zipOf_put_zip,filterMap_zip]
        · rw [forkOf_put_other c (by simp [machine])]
          · exact fork
          · rfl
      · cases accepted
    | fork e =>
      simp only [machine,accept] at accepted
      split at accepted
      · rename_i permitted
        obtain ⟨⟨f,new⟩,member,same⟩ := Option.map_eq_some_iff.mp accepted
        cases same
        refine ⟨?_,.step fork ?_ ((mem_next_call _).mpr ⟨f,new,?_,member,?_⟩)⟩
        · rw [zipOf_put_other c rfl]
          · exact zip
          · rfl
        · cases e <;> trivial
        · have idle : c.threads (.fork ((Fork.machine Error).party e)) = [] := idle
          simp [forkOf,idle]
        · rw [show (machine Error).party (.fork e) = .fork ((Fork.machine Error).party e) from rfl,
            forkOf_put_fork,filterMap_fork]
      · cases accepted
    | reply k n =>
      cases raised with
      | reply _ _ r sqe at_k next answers =>
        refine ⟨?_,?_⟩
        · rw [zipOf_put_other c (s := c.shared.reply k r n) rfl rfl]
          exact zip
        · rw [forkOf_put_other c (s := c.shared.reply k r n) (by simp [machine]) rfl]
          exact fork

/-- The runs of the reads of buffers at offsets. -/
abbrev Reads (buffers : List Buffer) (offsets : List (BitVec 64)) (w : World)
    (c : Config Party (Batch Error) (Instr Error)) (stack : List Party) : Prop :=
  Nested (machine Error) isCallout Any (initial Error buffers offsets w) c stack

/-- The rule of `Nested.invariant` for these runs, by the kinds of their moves. -/
theorem Reads.invariant {I : Config Party (Batch Error) (Instr Error) → List Party → Prop}
    (start : I (initial Error buffers offsets w) [])
    (zip : ∀ c p below i rest z new, Reads buffers offsets w c (.zip p :: below) → I c (.zip p :: below) →
      c.threads (.zip p) = .zip i :: rest → (z,new) ∈ zipExec i c.shared.zip →
      Reads buffers offsets w (c.put (.zip p) { c.shared with zip := z } (new.map .zip ++ rest)) (.zip p :: below) →
      I (c.put (.zip p) { c.shared with zip := z } (new.map .zip ++ rest)) (.zip p :: below))
    (fork : ∀ c p below i rest f new, Reads buffers offsets w c (.fork p :: below) → I c (.fork p :: below) →
      c.threads (.fork p) = .fork i :: rest → (f,new) ∈ Fork.exec p i c.shared.fork → startsItem p i f = none →
      Reads buffers offsets w (c.put (.fork p) { c.shared with fork := f } (new.map .fork ++ rest)) (.fork p :: below) →
      I (c.put (.fork p) { c.shared with fork := f } (new.map .fork ++ rest)) (.fork p :: below))
    (startRead : ∀ c p below i rest k f new, Reads buffers offsets w c (.fork p :: below) → I c (.fork p :: below) →
      c.threads (.fork p) = .fork i :: rest → (f,new) ∈ Fork.exec p i c.shared.fork → startsItem p i f = some k →
      Reads buffers offsets w (c.put (.fork p) (Batch.startRead { c.shared with fork := f } k) (new.map .fork ++ rest))
        (.fork p :: below) →
      I (c.put (.fork p) (Batch.startRead { c.shared with fork := f } k) (new.map .fork ++ rest)) (.fork p :: below))
    (finish : ∀ c p below, Reads buffers offsets w c (p :: below) → I c (p :: below) → c.threads p = [] → I c below)
    (zipEvent : ∀ c stack e z new s, Reads buffers offsets w c stack → I c stack → Outside isCallout c stack →
      c.shared.permitsZip e = true → Zip.Raised c.shared.zip e z new →
      s = { c.shared with zip := z, position := c.shared.handedOut e } →
      c.threads ((machine Error).party (.zip e)) = [] →
      Reads buffers offsets w (c.put ((machine Error).party (.zip e)) s (new.map .zip))
        ((machine Error).party (.zip e) :: stack) →
      I (c.put ((machine Error).party (.zip e)) s (new.map .zip)) ((machine Error).party (.zip e) :: stack))
    (forkEvent : ∀ c stack e f new, Reads buffers offsets w c stack → I c stack → Outside isCallout c stack →
      c.shared.permitsFork e = true → Fork.accept e c.shared.fork = some (f,new) →
      c.threads ((machine Error).party (.fork e)) = [] →
      Reads buffers offsets w (c.put ((machine Error).party (.fork e)) { c.shared with fork := f } (new.map .fork))
        ((machine Error).party (.fork e) :: stack) →
      I (c.put ((machine Error).party (.fork e)) { c.shared with fork := f } (new.map .fork))
        ((machine Error).party (.fork e) :: stack))
    (reply : ∀ c stack k n r sqe, Reads buffers offsets w c stack → I c stack → Outside isCallout c stack →
      c.shared.reads k = some r → r.stream.op.nextOp = some sqe → kernelAnswers c.shared.world sqe n = true →
      Reads buffers offsets w (c.put .kernel (c.shared.reply k r n) []) (.kernel :: stack) →
      I (c.put .kernel (c.shared.reply k r n) []) (.kernel :: stack))
    (reads : Reads buffers offsets w c stack) : I c stack := by
  induction reads with
  | start => exact start
  | @run c c' p below before ok moved ih =>
    have later := Nested.run before ok moved
    obtain ⟨i,rest,s,new,left,ran,rfl⟩ := (mem_next_run _).mp moved
    cases ran_of_mem ran with
    | zip q j z new did => exact zip c q below j rest z new before ih left did later
    | fork q j f new did quiet => exact fork c q below j rest f new before ih left did quiet later
    | startRead q j k f new did starts => exact startRead c q below j rest k f new before ih left did starts later
  | @finish c p below before idle ih => exact finish c p below before ih idle
  | @call c c' e stack before out ok moved ih =>
    have later := Nested.call before out ok moved
    obtain ⟨s,prog,idle,accepted,rfl⟩ := (mem_next_call _).mp moved
    cases raised_of_accept accepted with
    | zip e z new permitted raised => exact zipEvent c stack e z new _ before ih out permitted raised rfl idle later
    | fork e f new permitted taken => exact forkEvent c stack e f new before ih out permitted taken idle later
    | reply k n r sqe at_k next answers => exact reply c stack k n r sqe before ih out at_k next answers later

end SendersIo.ReadBatched
