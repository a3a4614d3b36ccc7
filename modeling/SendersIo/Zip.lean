import Mathlib.Data.Fintype.Card
import Mathlib.Data.List.FinRange
import SendersIo.Interleaving
import SendersIo.Signals

/-!
Zipping of sequences. Every child sequence has a queue of items that have
completed with a value. Whoever announces the front item of the last queue that
was not ready collects the front results of all queues and starts the zipped
operation, and the items are completed when the zipped operation is.
-/
namespace SendersIo.Zip
open SendersIo.Interleaving SendersIo.Signals

/-- An item operation: its child sequence and its number there. -/
structure Item (n : Nat) where
  index : Fin n
  seq : Nat
  deriving DecidableEq

instance (n : Nat) : LawfulBEq (Item n) := inferInstance

/-- A tuple that was handed to `set_next`: the item operation that holds the
    zipped operation, its `item_ops_` and the values. -/
structure Emitted (n : Nat) (Value : Type) where
  trigger : Item n
  itemOps : Fin n → Item n
  values : Fin n → Value

/-- A completion of the outer receiver: the signal, and what it was made from,
    the signal of the child that completed last and whether `errors_` held an error. -/
structure Delivery (Error : Type) where
  signal : Signal Error
  last : Signal Error
  stored : Bool
  deriving DecidableEq

/-- `operation_base` with the `result_` and `item_ops_` of every item operation,
    what the environment knows about the items and the sequences, and what
    happened so far: the values in the order in which the items of a child
    completed, the items that entered a queue, the tuples that were emitted, the
    errors that were reported and the completions. -/
structure OperationBase (n : Nat) (Value Error : Type) where
  errors : Option Error
  queues : Fin n → List (Item n)
  nReadyNextItems : Int
  stopRequested : Bool
  stopCallback : Bool
  nPendingOperations : Int
  result : Item n → Option Value
  itemOps : Item n → Option (Fin n → Item n)
  outerStopRequested : Bool
  begun : Bool
  startedChildren : List (Fin n)
  completedChildren : List (Fin n)
  decremented : List (Fin n)
  startedItems : List (Item n)
  completedItems : List (Item n)
  completedZipped : List (Item n)
  arrived : Fin n → List (Item n × Value)
  pushed : List (Item n)
  emitted : List (Emitted n Value)
  reported : List Error
  itemCompletions : List (Item n × Signal Error)
  completions : List (Delivery Error)

/-- Who executes a handler: `operation::start`, the receiver of a child, of an
    item or of a zipped operation, or the callback on the outer stop token. -/
inductive Party (n : Nat) where
  | operation
  | child (c : Fin n)
  | item (x : Item n)
  | zipped (x : Item n)
  | stopCallback
  deriving DecidableEq

/-- The atomic steps of the handlers: every critical section and every atomic
    operation is one. `callout` stands for code that a handler has called. -/
inductive Instr (n : Nat) (Value Error : Type) where
  | emplaceStopCallback
  | startChild (c : Fin n)
  | emplaceResult (x : Item n) (v : Value)
  | testStop (x : Item n)
  | pushBack (x : Item n)
  | notifyResultCompletion (x : Item n)
  | collectResults (x : Item n)
  | popFronts (x : Item n) (result : Fin n → Value)
  | checkStop (x : Item n) (result : Fin n → Value)
  | recount (x : Item n) (result : Fin n → Value)
  | startZipped (x : Item n) (result : Fin n → Value) (isNextCompletion : Bool)
  | startNext (x : Item n)
  | completeAllItemOps (x : Item n)
  | complete (x : Item n)
  | setStopped (x : Item n)
  | storeError (e : Error)
  | requestStop
  | clearQueues
  | fetchSub (c : Fin n) (signal : Signal Error)
  | resetStopCallback (signal : Signal Error)
  | finish (signal : Signal Error)
  | callout

inductive Event (n : Nat) (Value Error : Type) where
  | start
  | setNext (x : Item n)
  | itemValue (x : Item n) (v : Value)
  | itemError (x : Item n) (e : Error)
  | itemStopped (x : Item n)
  | zippedValue (x : Item n)
  | zippedStopped (x : Item n)
  | childCompletes (c : Fin n) (signal : Signal Error)
  | outerStop

variable {n : Nat} {Value Error : Type}

/-! ### The handlers -/

/-- `operation_base::notify_stop`. -/
def notifyStop : List (Instr n Value Error) := [.requestStop,.clearQueues]

/-- `operation_base::notify_error`. -/
def notifyError (e : Error) : List (Instr n Value Error) := .storeError e :: notifyStop

/-- `item_receiver::set_value`. -/
def itemSetValue (x : Item n) (v : Value) : List (Instr n Value Error) := [.emplaceResult x v]

/-- `item_receiver::set_stopped`. -/
def itemSetStopped (x : Item n) : List (Instr n Value Error) := notifyStop ++ [.setStopped x]

/-- `item_receiver::set_error`. -/
def itemSetError (x : Item n) (e : Error) : List (Instr n Value Error) := notifyError e ++ [.setStopped x]

/-- `zipped_receiver::set_value`. -/
def zippedSetValue (x : Item n) : List (Instr n Value Error) := [.completeAllItemOps x]

/-- `zipped_receiver::set_stopped`. -/
def zippedSetStopped (x : Item n) : List (Instr n Value Error) := notifyStop ++ [.completeAllItemOps x]

/-- The handlers of `receiver`, which all start with the decrement. -/
def childComplete (c : Fin n) (signal : Signal Error) : List (Instr n Value Error) := [.fetchSub c signal]

/-- What a child does that was not the last one. -/
def notLast : Signal Error → List (Instr n Value Error)
  | .value _ => notifyStop
  | .stopped => notifyStop
  | .error e => notifyError e

/-- The signal that the last child sends to the outer receiver. -/
def outcome (s : OperationBase n Value Error) : Signal Error → Signal Error
  | .value _ =>
    if s.outerStopRequested then .stopped
    else match s.errors with
      | some e => .error e
      | none => .value ()
  | .stopped => if s.stopRequested then setValueUnlessStopped s.outerStopRequested else .stopped
  | .error e => .error e

/-! ### The queues -/

/-- All of the values, if every one of them is there. -/
def allSome {α : Type} (f : Fin n → Option α) : Option (Fin n → α) :=
  if present : ∀ i, (f i).isSome then some fun i => (f i).get (present i) else none

theorem mem_of_allSome {α : Type} {f : Fin n → Option α} {g : Fin n → α} (all : allSome f = some g) (i : Fin n) :
    f i = some (g i) := by
  unfold allSome at all
  split at all
  · cases all; simp
  · cases all

/-- The front items of all queues. -/
def fronts (s : OperationBase n Value Error) : Option (Fin n → Item n) :=
  allSome fun i => (s.queues i).head?

/-- The results of the front items of all queues. -/
def frontResults (s : OperationBase n Value Error) : Option (Fin n → Value) :=
  allSome fun i => (s.queues i).head?.bind s.result

/-- The queues that hold an item. -/
def nonEmpty (s : OperationBase n Value Error) : Finset (Fin n) :=
  Finset.univ.filter fun i => s.queues i ≠ []

/-- `complete_` on every queued item, one queue after the other. -/
def completeQueues (s : OperationBase n Value Error) : List (Instr n Value Error) :=
  (List.finRange n).flatMap fun i => (s.queues i).map .complete

theorem mem_completeQueues {s : OperationBase n Value Error} {i : Instr n Value Error} :
    i ∈ completeQueues s ↔ ∃ k, ∃ x ∈ s.queues k, i = .complete x := by
  simp [completeQueues,eq_comm]

/-- `complete_` on the items of a tuple. -/
def completeAll (ops : Fin n → Item n) : List (Instr n Value Error) :=
  (List.finRange n).map fun i => .complete (ops i)

theorem mem_completeAll {ops : Fin n → Item n} {i : Instr n Value Error} :
    i ∈ completeAll ops ↔ ∃ k, i = .complete (ops k) := by
  simp [completeAll,eq_comm]

/-! ### The steps -/

/-- `complete_`, which asks the stop source of the sequence before the item
    receiver's own stop token. -/
def complete (s : OperationBase n Value Error) (x : Item n) :
    List (OperationBase n Value Error × List (Instr n Value Error)) :=
  (if s.stopRequested then [.stopped] else [.value (),.stopped]).map fun signal =>
    ({ s with itemCompletions := s.itemCompletions ++ [(x,signal)] },[.callout])

/-- The steps of `notify_result_completion`. Without an entry there, a front
    of an empty queue was dereferenced. -/
def notify (exception : Option Error) (s : OperationBase n Value Error) :
    Instr n Value Error → List (OperationBase n Value Error × List (Instr n Value Error))
  | .notifyResultCompletion x =>
    if (s.queues x.index).head? = some x then
      [({ s with nReadyNextItems := s.nReadyNextItems + 1 },
        if s.nReadyNextItems = n - 1 then [.collectResults x] else [])]
    else [(s,[])]
  -- 1. collect all results
  | .collectResults x => (frontResults s).toList.map fun result => (s,[.popFronts x result])
  -- 2. pop the front items into the private storage of this operation
  | .popFronts x result => (fronts s).toList.map fun ops =>
    ({ s with
        queues := fun i => (s.queues i).tail
        itemOps := Function.update s.itemOps x (some ops)
        nReadyNextItems := -1 },[.checkStop x result])
  -- 3. check whether we need to stop
  | .checkStop x result => [(s,if s.stopRequested then [.completeAllItemOps x] else [.recount x result])]
  -- 4. count the ready items
  | .recount x result =>
    let count := (nonEmpty s).card
    if count = n then [({ s with nReadyNextItems := count - 1 },[.startZipped x result true])]
    else [({ s with nReadyNextItems := count },[.startZipped x result false])]
  -- 5. start the zipped operation, which may throw while it is connected
  | .startZipped x result isNextCompletion =>
    ((s.itemOps x).toList.map fun ops =>
      ({ s with emitted := s.emitted ++ [⟨x,ops,result⟩] },
        .callout :: if isNextCompletion then [.startNext x] else [])) ++
    exception.toList.map fun e =>
      ({ s with reported := s.reported ++ [e] },notifyError e ++ [.completeAllItemOps x])
  -- 6. start the next zipped operation
  | .startNext x => (s.queues x.index).head?.toList.map fun y => (s,[.notifyResultCompletion y])
  | _ => []

/-- The effect of an instruction. What may throw does so with `exception`. -/
def exec (exception : Option Error) (i : Instr n Value Error) (s : OperationBase n Value Error) :
    List (OperationBase n Value Error × List (Instr n Value Error)) :=
  match i with
  | .emplaceStopCallback =>
    [({ s with stopCallback := true },if s.outerStopRequested then [.requestStop] else [])]
  | .startChild c => [({ s with startedChildren := s.startedChildren ++ [c] },[.callout])]
  | .emplaceResult x v =>
    ({ s with result := Function.update s.result x (some v) },[.testStop x]) ::
    -- the handler of the exception does not return
    exception.toList.map fun e =>
      ({ s with reported := s.reported ++ [e] },notifyError e ++ [.setStopped x,.testStop x])
  | .testStop x => [(s,if s.stopRequested then [.setStopped x] else [.pushBack x])]
  | .pushBack x =>
    [({ s with
        queues := Function.update s.queues x.index (s.queues x.index ++ [x])
        pushed := s.pushed ++ [x] },[.notifyResultCompletion x])]
  | .completeAllItemOps x => (s.itemOps x).toList.map fun ops => (s,completeAll ops)
  | .complete x => complete s x
  | .setStopped x => [({ s with itemCompletions := s.itemCompletions ++ [(x,.stopped)] },[.callout])]
  | .storeError e => [({ s with errors := s.errors.or (some e) },[])]
  | .requestStop => [({ s with stopRequested := true },[.callout])]
  | .clearQueues => [({ s with queues := fun _ => [], nReadyNextItems := 0 },completeQueues s)]
  | .fetchSub c signal =>
    [({ s with nPendingOperations := s.nPendingOperations - 1, decremented := s.decremented ++ [c] },
      if s.nPendingOperations > 1 then notLast signal else [.resetStopCallback signal])]
  -- a callback that is running is not waited for here: more runs, not fewer
  | .resetStopCallback signal => [({ s with stopCallback := false },[.finish signal])]
  | .finish signal =>
    [({ s with completions := s.completions ++ [⟨outcome s signal,signal,s.errors.isSome⟩] },[.callout])]
  | .callout => [(s,[])]
  | i => notify exception s i

/-- An item of a child is still in progress. -/
def ItemsOpen (s : OperationBase n Value Error) (c : Fin n) : Prop :=
  ∃ x ∈ s.startedItems, x.index = c ∧ x ∉ s.itemCompletions.map (·.1)

instance (s : OperationBase n Value Error) (c : Fin n) : Decidable (ItemsOpen s c) := by
  unfold ItemsOpen; infer_instance

/-- Which events the environment may raise: an item that was set completes once,
    a zipped operation that was started completes once, and a child that was
    started completes once, after its items. -/
def accept (e : Event n Value Error) (s : OperationBase n Value Error) :
    Option (OperationBase n Value Error × List (Instr n Value Error)) :=
  match e with
  | .start =>
    if s.begun then none
    else some ({ s with begun := true },.emplaceStopCallback :: (List.finRange n).map .startChild)
  | .setNext x =>
    if x.index ∈ s.startedChildren ∧ x.index ∉ s.completedChildren ∧ x ∉ s.startedItems then
      some ({ s with startedItems := s.startedItems ++ [x] },[])
    else none
  | .itemValue x v =>
    if x ∈ s.startedItems ∧ x ∉ s.completedItems then
      some ({ s with
        completedItems := s.completedItems ++ [x]
        arrived := Function.update s.arrived x.index (s.arrived x.index ++ [(x,v)]) },itemSetValue x v)
    else none
  | .itemError x e =>
    if x ∈ s.startedItems ∧ x ∉ s.completedItems then
      some ({ s with completedItems := s.completedItems ++ [x], reported := s.reported ++ [e] },itemSetError x e)
    else none
  | .itemStopped x =>
    if x ∈ s.startedItems ∧ x ∉ s.completedItems then
      some ({ s with completedItems := s.completedItems ++ [x] },itemSetStopped x)
    else none
  | .zippedValue x =>
    if x ∈ s.emitted.map (·.trigger) ∧ x ∉ s.completedZipped then
      some ({ s with completedZipped := s.completedZipped ++ [x] },zippedSetValue x)
    else none
  | .zippedStopped x =>
    if x ∈ s.emitted.map (·.trigger) ∧ x ∉ s.completedZipped then
      some ({ s with completedZipped := s.completedZipped ++ [x] },zippedSetStopped x)
    else none
  | .childCompletes c signal =>
    if c ∈ s.startedChildren ∧ c ∉ s.completedChildren ∧ ¬ ItemsOpen s c then
      some ({ s with
        completedChildren := s.completedChildren ++ [c]
        reported := s.reported ++ signal.error?.toList },childComplete c signal)
    else none
  | .outerStop =>
    if s.outerStopRequested then none
    else some ({ s with outerStopRequested := true },if s.stopCallback then [.requestStop] else [])

/-- Zipping `n` sequences. What may throw throws `exception`. -/
def machine (n : Nat) (Value : Type) {Error : Type} (exception : Option Error) :
    Machine (Party n) (OperationBase n Value Error) (Instr n Value Error) (Event n Value Error) where
  exec _ := exec exception
  accept := accept
  party
    | .start => .operation
    | .setNext x => .item x
    | .itemValue x _ => .item x
    | .itemError x _ => .item x
    | .itemStopped x => .item x
    | .zippedValue x => .zipped x
    | .zippedStopped x => .zipped x
    | .childCompletes c _ => .child c
    | .outerStop => .stopCallback

/-- The operation is constructed and not yet started. -/
def initial (n : Nat) (Value Error : Type) : Config (Party n) (OperationBase n Value Error) (Instr n Value Error) where
  shared :=
    { errors := none, queues := fun _ => [], nReadyNextItems := 0, stopRequested := false, stopCallback := false
      nPendingOperations := n, result := fun _ => none, itemOps := fun _ => none, outerStopRequested := false
      begun := false, startedChildren := [], completedChildren := [], decremented := [], startedItems := []
      completedItems := [], completedZipped := [], arrived := fun _ => [], pushed := [], emitted := []
      reported := [], itemCompletions := [], completions := [] }
  threads _ := []

/-- The steps of `item_receiver::set_value`. -/
def Instr.ofItem : Instr n Value Error → Bool
  | .emplaceResult _ _ | .testStop _ | .pushBack _ | .notifyResultCompletion _ | .collectResults _ => true
  | .popFronts _ _ | .checkStop _ _ | .recount _ _ | .startZipped _ _ _ | .startNext _ => true
  | _ => false

/-- Control is in code that a handler has called. -/
def isCallout : Instr n Value Error → Bool
  | .callout => true
  | _ => false

/-! ### What a step can do -/

/-- The outcomes of the instructions, one constructor for each. -/
inductive Ran (exception : Option Error) (s : OperationBase n Value Error) :
    Instr n Value Error → OperationBase n Value Error → List (Instr n Value Error) → Prop
  | emplaceStopCallback : Ran exception s .emplaceStopCallback { s with stopCallback := true }
      (if s.outerStopRequested then [.requestStop] else [])
  | startChild (c : Fin n) : Ran exception s (.startChild c)
      { s with startedChildren := s.startedChildren ++ [c] } [.callout]
  | emplaceResult (x : Item n) (v : Value) : Ran exception s (.emplaceResult x v)
      { s with result := Function.update s.result x (some v) } [.testStop x]
  | emplaceThrows (x : Item n) (v : Value) (e : Error) : exception = some e →
      Ran exception s (.emplaceResult x v) { s with reported := s.reported ++ [e] }
        (notifyError e ++ [.setStopped x,.testStop x])
  | testStop (x : Item n) : Ran exception s (.testStop x) s
      (if s.stopRequested then [.setStopped x] else [.pushBack x])
  | pushBack (x : Item n) : Ran exception s (.pushBack x)
      { s with
        queues := Function.update s.queues x.index (s.queues x.index ++ [x])
        pushed := s.pushed ++ [x] } [.notifyResultCompletion x]
  | announced (x : Item n) : (s.queues x.index).head? = some x → Ran exception s (.notifyResultCompletion x)
      { s with nReadyNextItems := s.nReadyNextItems + 1 }
      (if s.nReadyNextItems = n - 1 then [.collectResults x] else [])
  | notFront (x : Item n) : (s.queues x.index).head? ≠ some x → Ran exception s (.notifyResultCompletion x) s []
  | collectResults (x : Item n) (result : Fin n → Value) : frontResults s = some result →
      Ran exception s (.collectResults x) s [.popFronts x result]
  | popFronts (x : Item n) (result : Fin n → Value) (ops : Fin n → Item n) : fronts s = some ops →
      Ran exception s (.popFronts x result)
        { s with
          queues := fun i => (s.queues i).tail
          itemOps := Function.update s.itemOps x (some ops)
          nReadyNextItems := -1 } [.checkStop x result]
  | checkStop (x : Item n) (result : Fin n → Value) : Ran exception s (.checkStop x result) s
      (if s.stopRequested then [.completeAllItemOps x] else [.recount x result])
  | recountAll (x : Item n) (result : Fin n → Value) : (nonEmpty s).card = n →
      Ran exception s (.recount x result) { s with nReadyNextItems := (nonEmpty s).card - 1 }
        [.startZipped x result true]
  | recount (x : Item n) (result : Fin n → Value) : (nonEmpty s).card ≠ n →
      Ran exception s (.recount x result) { s with nReadyNextItems := (nonEmpty s).card } [.startZipped x result false]
  | startZipped (x : Item n) (result : Fin n → Value) (next : Bool) (ops : Fin n → Item n) : s.itemOps x = some ops →
      Ran exception s (.startZipped x result next) { s with emitted := s.emitted ++ [⟨x,ops,result⟩] }
        (.callout :: if next then [.startNext x] else [])
  | zippedThrows (x : Item n) (result : Fin n → Value) (next : Bool) (e : Error) : exception = some e →
      Ran exception s (.startZipped x result next) { s with reported := s.reported ++ [e] }
        (notifyError e ++ [.completeAllItemOps x])
  | startNext (x y : Item n) : (s.queues x.index).head? = some y →
      Ran exception s (.startNext x) s [.notifyResultCompletion y]
  | completeAllItemOps (x : Item n) (ops : Fin n → Item n) : s.itemOps x = some ops →
      Ran exception s (.completeAllItemOps x) s (completeAll ops)
  | complete (x : Item n) (signal : Signal Error) : (∀ e, signal ≠ .error e) →
      Ran exception s (.complete x) { s with itemCompletions := s.itemCompletions ++ [(x,signal)] } [.callout]
  | setStopped (x : Item n) : Ran exception s (.setStopped x)
      { s with itemCompletions := s.itemCompletions ++ [(x,.stopped)] } [.callout]
  | storeError (e : Error) : Ran exception s (.storeError e) { s with errors := s.errors.or (some e) } []
  | requestStop : Ran exception s .requestStop { s with stopRequested := true } [.callout]
  | clearQueues : Ran exception s .clearQueues { s with queues := fun _ => [], nReadyNextItems := 0 } (completeQueues s)
  | fetchSub (c : Fin n) (signal : Signal Error) : Ran exception s (.fetchSub c signal)
      { s with nPendingOperations := s.nPendingOperations - 1, decremented := s.decremented ++ [c] }
      (if s.nPendingOperations > 1 then notLast signal else [.resetStopCallback signal])
  | resetStopCallback (signal : Signal Error) : Ran exception s (.resetStopCallback signal)
      { s with stopCallback := false } [.finish signal]
  | finish (signal : Signal Error) : Ran exception s (.finish signal)
      { s with completions := s.completions ++ [⟨outcome s signal,signal,s.errors.isSome⟩] } [.callout]
  | callout : Ran exception s .callout s []

theorem ran_of_mem {exception : Option Error} {i : Instr n Value Error} {s s' : OperationBase n Value Error}
    {new : List (Instr n Value Error)} (ran : (s',new) ∈ exec exception i s) : Ran exception s i s' new := by
  cases i <;> simp only [exec,notify,List.mem_cons,List.not_mem_nil,or_false,List.mem_append,List.mem_map,
    Option.mem_toList] at ran
  case emplaceResult x v =>
    rcases ran with same | ⟨e,throws,same⟩ <;> obtain ⟨rfl,rfl⟩ := Prod.mk.inj same
    · exact .emplaceResult x v
    · exact .emplaceThrows x v e throws
  case notifyResultCompletion x =>
    split at ran <;> obtain ⟨rfl,rfl⟩ := Prod.mk.inj (List.mem_singleton.mp ran)
    next front => exact .announced x front
    next other => exact .notFront x other
  case collectResults x =>
    obtain ⟨result,front,same⟩ := ran
    obtain ⟨rfl,rfl⟩ := Prod.mk.inj same
    exact .collectResults x result front
  case popFronts x result =>
    obtain ⟨ops,front,same⟩ := ran
    obtain ⟨rfl,rfl⟩ := Prod.mk.inj same
    exact .popFronts x result ops front
  case recount x result =>
    split at ran <;> obtain ⟨rfl,rfl⟩ := Prod.mk.inj (List.mem_singleton.mp ran)
    next all => exact .recountAll x result all
    next some => exact .recount x result some
  case startZipped x result next =>
    rcases ran with ⟨ops,held,same⟩ | ⟨e,throws,same⟩ <;> obtain ⟨rfl,rfl⟩ := Prod.mk.inj same
    · exact .startZipped x result next ops held
    · exact .zippedThrows x result next e throws
  case startNext x =>
    obtain ⟨y,front,same⟩ := ran
    obtain ⟨rfl,rfl⟩ := Prod.mk.inj same
    exact .startNext x y front
  case completeAllItemOps x =>
    obtain ⟨ops,held,same⟩ := ran
    obtain ⟨rfl,rfl⟩ := Prod.mk.inj same
    exact .completeAllItemOps x ops held
  case complete x =>
    obtain ⟨signal,member,same⟩ := List.mem_map.mp ran
    obtain ⟨rfl,rfl⟩ := Prod.mk.inj same
    refine .complete x signal ?_
    rintro e rfl
    split at member <;> simp at member
  all_goals
    obtain ⟨rfl,rfl⟩ := Prod.mk.inj ran
    constructor

/-- The events that are accepted, with what they do. -/
inductive Raised (s : OperationBase n Value Error) :
    Event n Value Error → OperationBase n Value Error → List (Instr n Value Error) → Prop
  | start : s.begun = false →
      Raised s .start { s with begun := true } (.emplaceStopCallback :: (List.finRange n).map .startChild)
  | setNext (x : Item n) : x.index ∈ s.startedChildren → x.index ∉ s.completedChildren → x ∉ s.startedItems →
      Raised s (.setNext x) { s with startedItems := s.startedItems ++ [x] } []
  | itemValue (x : Item n) (v : Value) : x ∈ s.startedItems → x ∉ s.completedItems →
      Raised s (.itemValue x v)
        { s with
          completedItems := s.completedItems ++ [x]
          arrived := Function.update s.arrived x.index (s.arrived x.index ++ [(x,v)]) } (itemSetValue x v)
  | itemError (x : Item n) (e : Error) : x ∈ s.startedItems → x ∉ s.completedItems →
      Raised s (.itemError x e) { s with completedItems := s.completedItems ++ [x], reported := s.reported ++ [e] }
        (itemSetError x e)
  | itemStopped (x : Item n) : x ∈ s.startedItems → x ∉ s.completedItems →
      Raised s (.itemStopped x) { s with completedItems := s.completedItems ++ [x] } (itemSetStopped x)
  | zippedValue (x : Item n) : x ∈ s.emitted.map (·.trigger) → x ∉ s.completedZipped →
      Raised s (.zippedValue x) { s with completedZipped := s.completedZipped ++ [x] } (zippedSetValue x)
  | zippedStopped (x : Item n) : x ∈ s.emitted.map (·.trigger) → x ∉ s.completedZipped →
      Raised s (.zippedStopped x) { s with completedZipped := s.completedZipped ++ [x] } (zippedSetStopped x)
  | childCompletes (c : Fin n) (signal : Signal Error) : c ∈ s.startedChildren → c ∉ s.completedChildren →
      ¬ ItemsOpen s c → Raised s (.childCompletes c signal)
        { s with
          completedChildren := s.completedChildren ++ [c]
          reported := s.reported ++ signal.error?.toList } (childComplete c signal)
  | outerStop : s.outerStopRequested = false →
      Raised s .outerStop { s with outerStopRequested := true } (if s.stopCallback then [.requestStop] else [])

theorem raised_of_accept {e : Event n Value Error} {s s' : OperationBase n Value Error}
    {new : List (Instr n Value Error)} (accepted : accept e s = some (s',new)) : Raised s e s' new := by
  cases e <;> simp only [accept] at accepted <;> split at accepted <;> first
    | cases accepted; done
    | obtain ⟨rfl,rfl⟩ := Prod.mk.inj (Option.some.inj accepted)
  case start begun => exact .start (by simpa using begun)
  case setNext x fresh => exact .setNext x fresh.1 fresh.2.1 fresh.2.2
  case itemValue x v pending => exact .itemValue x v pending.1 pending.2
  case itemError x e pending => exact .itemError x e pending.1 pending.2
  case itemStopped x pending => exact .itemStopped x pending.1 pending.2
  case zippedValue x running => exact .zippedValue x running.1 running.2
  case zippedStopped x running => exact .zippedStopped x running.1 running.2
  case childCompletes c signal running => exact .childCompletes c signal running.1 running.2.1 running.2.2
  case outerStop requested => exact .outerStop (by simpa using requested)

end SendersIo.Zip
