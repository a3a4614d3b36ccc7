import SendersIo.ZipOutcome
import SendersIo.ZipPairing

/-!
`use_resources`: the sequences that open, use and close one resource each are
zipped, the tuple of the tokens goes to `fn`, and the first outcome of `fn` is
the outcome of the whole. Each of these sequences has one item, and the zip is
`Zip.machine` with what surrounds it: the receivers of the opens, of `finally`
and of `first`.
-/
namespace SendersIo.UseResources
open SendersIo.Interleaving SendersIo.Signals SendersIo.Zip

/-- A completion of the outer receiver: the outcome, what was in the result slot
    of `first`, and the resources that were closed by then. -/
structure Sent (n : Nat) (Result Error : Type) where
  outcome : Completion Result Error
  slot : Option (Completion Result Error)
  closed : List (Fin n)
  deriving DecidableEq

/-- The zip and the `result_` of `first`, what the environment knows about the
    resources, how their opens completed and which of them were closed, and what
    happened so far: the outcomes of the senders that `fn` returned and the
    completions. `undefined` is set where the behaviour of the code is undefined. -/
structure Operation (n : Nat) (Token Result Error : Type) where
  zip : OperationBase n Token Error
  result : Option (Completion Result Error)
  opens : Fin n → Option (Completion Token Error)
  closed : List (Fin n)
  fnOutcomes : List (Completion Result Error)
  completions : List (Sent n Result Error)
  undefined : Bool

/-- Events of the resource `i`, and the completion of the sender that `fn` returned
    for the tuple that the item operation `x` emitted. -/
inductive Event (n : Nat) (Token Result Error : Type) where
  | start
  | openValue (i : Fin n) (t : Token)
  | openThrows (i : Fin n) (t : Token)
  | openError (i : Fin n) (e : Error)
  | openStopped (i : Fin n)
  | closeDone (i : Fin n)
  | fnCompletes (x : Item n) (outcome : Completion Result Error)

variable {n : Nat} {Token Result Error : Type}

/-! ### The result of `first` -/

/-- `result_type::emplace`, which keeps what is in the slot. -/
def emplace (slot : Option (Completion Result Error)) (outcome : Completion Result Error) :
    Option (Completion Result Error) :=
  slot.or (some outcome)

/-- The outer receiver is completed. -/
def complete (s : Operation n Token Result Error) (outcome : Completion Result Error) : Operation n Token Result Error :=
  { s with completions := s.completions ++ [⟨outcome,s.result,s.closed⟩] }

/-- `result_type::visit_result`. With an empty slot it does not return after
    `set_stopped`, and goes on to visit a variant that was never constructed. -/
def visitResult (s : Operation n Token Result Error) : Operation n Token Result Error :=
  match s.result with
  | none => { complete s .stopped with undefined := true }
  | some outcome => complete s outcome

/-- `first_::receiver`. -/
def firstReceiver (s : Operation n Token Result Error) : Signal Error → Operation n Token Result Error
  | .value _ => visitResult s
  | .stopped => complete s .stopped
  | .error e => complete s (.error e)

/-! ### The sequence of a resource -/

/-- The only item of the sequence of the resource. -/
def useItem (i : Fin n) : Item n := ⟨i,0⟩

/-- How the item operations of the resource completed, each of which starts a close. -/
def closes (s : Operation n Token Result Error) (i : Fin n) : List (Signal Error) :=
  (s.zip.itemCompletions.filter (·.1 = useItem i)).map (·.2)

/-- `open_receiver::set_stopped`, and `final_receiver::set_stopped`. -/
def setStopped (zip : OperationBase n Token Error) : Signal Error :=
  setValueUnlessStopped zip.stopRequested

/-- `final_receiver`: how the sequence completes once the resource is closed. -/
def finalReceiver (zip : OperationBase n Token Error) : Signal Error → Signal Error
  | .value _ => .value ()
  | .error e => .error e
  | .stopped => setStopped zip

/-- `open_receiver::set_value`: the item is set and `use_operation` sends the token. -/
def openSetValue (zip : OperationBase n Token Error) (i : Fin n) (t : Token) :
    Option (OperationBase n Token Error × List (Instr n Token Error)) :=
  (Zip.accept (.setNext (useItem i)) zip).bind fun out => Zip.accept (.itemValue (useItem i) t) out.1

/-- The sequence of the resource completes. -/
def sequenceCompletes (zip : OperationBase n Token Error) (i : Fin n) (signal : Signal Error) :
    Option (OperationBase n Token Error × List (Instr n Token Error)) :=
  Zip.accept (.childCompletes i signal) zip

/-! ### The steps -/

/-- What `first` does when the zip completes its receiver. -/
def notifyFirst (i : Instr n Token Error) (zip : OperationBase n Token Error) (s : Operation n Token Result Error) :
    Operation n Token Result Error :=
  match i with
  | .finish signal => firstReceiver s (outcome zip signal)
  | _ => s

/-- The steps of the zip. -/
def exec (exception : Option Error) (i : Instr n Token Error) (s : Operation n Token Result Error) :
    List (Operation n Token Result Error × List (Instr n Token Error)) :=
  (Zip.exec exception i s.zip).map fun out => (notifyFirst i s.zip { s with zip := out.1 },out.2)

/-- Which events the environment may raise: an open that was started completes
    once, a close completes with a value once for every item operation that has
    completed, and a sender that `fn` returned completes once. -/
def accept (exception : Option Error) (e : Event n Token Result Error) (s : Operation n Token Result Error) :
    Option (Operation n Token Result Error × List (Instr n Token Error)) :=
  match e with
  | .start => (Zip.accept .start s.zip).map fun out => ({ s with zip := out.1 },out.2)
  | .openValue i t =>
    if s.opens i = none then
      (openSetValue s.zip i t).map fun out =>
        ({ s with zip := out.1, opens := Function.update s.opens i (some (.value t)) },out.2)
    else none
  -- the operation that uses the token could not be constructed
  | .openThrows i t =>
    if s.opens i = none then
      exception.bind fun e => (sequenceCompletes s.zip i (.error e)).map fun out =>
        ({ s with zip := out.1, opens := Function.update s.opens i (some (.value t)) },out.2)
    else none
  | .openError i e =>
    if s.opens i = none then
      (sequenceCompletes s.zip i (.error e)).map fun out =>
        ({ s with zip := out.1, opens := Function.update s.opens i (some (.error e)) },out.2)
    else none
  | .openStopped i =>
    if s.opens i = none then
      (sequenceCompletes s.zip i (setStopped s.zip)).map fun out =>
        ({ s with zip := out.1, opens := Function.update s.opens i (some .stopped) },out.2)
    else none
  | .closeDone i =>
    (closes s i)[s.closed.count i]?.bind fun signal =>
      (sequenceCompletes s.zip i (finalReceiver s.zip signal)).map fun out =>
        ({ s with zip := out.1, closed := s.closed ++ [i] },out.2)
  -- `first_::item_receiver` keeps the outcome and stops the sequence in any case
  | .fnCompletes x result => (Zip.accept (.zippedStopped x) s.zip).map fun out =>
    ({ s with zip := out.1, result := emplace s.result result, fnOutcomes := s.fnOutcomes ++ [result] },out.2)

/-- Using `n` resources. What may throw throws `exception`. -/
def machine (n : Nat) (Token Result : Type) {Error : Type} (exception : Option Error) :
    Machine (Party n) (Operation n Token Result Error) (Instr n Token Error) (Event n Token Result Error) where
  exec _ := exec exception
  accept := accept exception
  party
    | .start => .operation
    | .openValue i _ => .item (useItem i)
    | .openThrows i _ => .child i
    | .openError i _ => .child i
    | .openStopped i => .child i
    | .closeDone i => .child i
    | .fnCompletes x _ => .zipped x

/-- The operation is constructed and not yet started. -/
def initial (n : Nat) (Token Result Error : Type) :
    Config (Party n) (Operation n Token Result Error) (Instr n Token Error) where
  shared :=
    { zip := (Zip.initial n Token Error).shared, result := none, opens := fun _ => none, closed := []
      fnOutcomes := [], completions := [], undefined := false }
  threads _ := []

/-! ### What use_resources is to do -/

section
variable (s : Operation n Token Result Error)

/-- All opens succeed. -/
def AllOpen : Prop := ∀ i, ∃ t, s.opens i = some (.value t)

/-- The sequence that completes last is one of a resource whose open failed with an error. -/
def LastFails : Prop := ∃ i e, s.zip.completedChildren.getLast? = some i ∧ s.opens i = some (.error e)

/-- The outer receiver is completed once; every resource that was opened is
    closed once, before that completion; if all of them were opened, `fn` runs once
    on their tokens and its outcome is the outcome; and if an open failed with an
    error, the outcome is such an error. -/
structure Promised : Prop where
  once : s.completions.length = 1 ∧ s.undefined = false
  closed : ∀ i t, s.opens i = some (.value t) →
    (closes s i).length = 1 ∧ ∀ d ∈ s.completions, d.closed.count i = 1
  succeeds : AllOpen s → ∃ call result, s.zip.emitted = [call] ∧ (∀ i, s.opens i = some (.value (call.values i))) ∧
    s.fnOutcomes = [result] ∧ ∀ d ∈ s.completions, d.outcome = result
  fails : (∃ i e, s.opens i = some (.error e)) →
    ∀ d ∈ s.completions, ∃ i e, s.opens i = some (.error e) ∧ d.outcome = .error e

end

/-- The run is over: the handlers have returned, and whatever the environment was
    to complete has completed. -/
structure Ended (c : Config (Party n) (Operation n Token Result Error) (Instr n Token Error)) (stack : List (Party n)) :
    Prop where
  returned : stack = []
  begun : c.shared.zip.begun = true
  opened : ∀ i, (c.shared.opens i).isSome
  closed : ∀ i, c.shared.closed.count i = (closes c.shared i).length
  called : ∀ e ∈ c.shared.zip.emitted, e.trigger ∈ c.shared.zip.completedZipped

/-- The part of `Ended` that is about the state, as a test. -/
def endedHere (s : Operation n Token Result Error) : Bool :=
  s.zip.begun && (∀ i, (s.opens i).isSome) && (∀ i, s.closed.count i = (closes s i).length) &&
    ∀ e ∈ s.zip.emitted, e.trigger ∈ s.zip.completedZipped

theorem ended_of_here {c : Config (Party n) (Operation n Token Result Error) (Instr n Token Error)}
    {stack : List (Party n)} (returned : stack = []) (here : endedHere c.shared = true) : Ended c stack := by
  simp only [endedHere,Bool.and_eq_true,decide_eq_true_eq] at here
  exact ⟨returned,here.1.1.1,here.1.1.2,here.1.2,here.2⟩

/-! ### What holds at all times -/

/-- The token of a resource that was opened. -/
def token? (s : Operation n Token Result Error) (i : Fin n) : Option Token :=
  match s.opens i with
  | some (.value t) => some t
  | _ => none

/-- The open has completed without a token. -/
def Failed (s : Operation n Token Result Error) (i : Fin n) : Prop := (s.opens i).isSome ∧ token? s i = none

/-- The steps that must not come before the request of a stop. -/
def afterStop : Instr n Token Error → Bool
  | .clearQueues | .complete _ | .completeAllItemOps _ | .setStopped _ => true
  | _ => false

/-- The steps that nobody takes as long as every resource is in use. -/
def ending : Instr n Token Error → Bool
  | .requestStop | .storeError _ | .fetchSub _ _ | .resetStopCallback _ | .finish _ => true
  | i => afterStop i

/-- A handler requests the stop before it ends items, and clears the queues
    after it requested the stop; an error is stored right before that. -/
def Guarded : Bool → List (Instr n Token Error) → Prop
  | _,[] => True
  | _,.requestStop :: rest => .clearQueues ∈ rest ∧ Guarded true rest
  | b,.storeError _ :: rest => rest.head? = some .requestStop ∧ Guarded b rest
  | b,i :: rest => (afterStop i = true → b = true) ∧ Guarded b rest

/-- The signal with which the sequence of the resource completed. -/
structure Brings (s : Operation n Token Result Error) (i : Fin n) (signal : Signal Error) : Prop where
  error : ∀ e, signal = .error e ↔ s.opens i = some (.error e)
  stopped : signal = .stopped → s.zip.stopRequested = true
  value : signal = .value () → s.zip.errors = none

/-- What is known of the signal that an instruction carries. -/
def Carries (s : Operation n Token Result Error) : Instr n Token Error → Prop
  | .fetchSub i signal => Brings s i signal
  | .resetStopCallback signal | .finish signal => ∃ i, s.zip.decremented.getLast? = some i ∧ Brings s i signal
  | _ => True

/-- The outcome that was sent comes from the slot, unless the sequence that
    completed last brought an error. -/
structure Explained (s : Operation n Token Result Error) (d : Sent n Result Error) : Prop where
  closed : d.closed = s.closed
  empty : d.slot = none → ∃ i, Failed s i
  slot : ∀ result, d.slot = some result → s.result = some result
  last : ∃ i, s.zip.decremented.getLast? = some i ∧
    ((∃ e, s.opens i = some (.error e) ∧ d.outcome = .error e ∧ s.undefined = false) ∨
      (∀ e, s.opens i ≠ some (.error e)) ∧ (d.slot = none ∧ s.undefined = true ∨
        ∃ result, d.slot = some result ∧ d.outcome = result ∧ s.undefined = false))

/-- The resources, the items of their sequences and the calls of `fn`. -/
structure Ledger (s : Operation n Token Result Error) : Prop where
  calm : s.zip.outerStopRequested = false
  arrived : ∀ i, s.zip.arrived i = (token? s i).toList.map fun t => (useItem i,t)
  items : ∀ x, x ∈ s.zip.completedItems ↔ x = useItem x.index ∧ (token? s x.index).isSome
  completed : ∀ i, i ∈ s.zip.completedChildren ↔ Failed s i ∨ i ∈ s.closed
  closed : ∀ i ∈ s.closed, (token? s i).isSome ∧ useItem i ∈ s.zip.itemCompletions.map (·.1)
  distinct : s.closed.Nodup
  stopped : ∀ a ∈ s.zip.itemCompletions, a.2 = .stopped
  stops : s.zip.itemCompletions ≠ [] → s.zip.stopRequested = true
  slot : s.result = s.fnOutcomes.head?
  calls : s.fnOutcomes.length = s.zip.completedZipped.length
  once : s.zip.completedZipped.Nodup
  sent : s.completions.length = s.zip.completions.length
  defined : s.completions = [] → s.undefined = false

/-- The zip without what surrounds it. -/
def inner (c : Config (Party n) (Operation n Token Result Error) (Instr n Token Error)) :
    Config (Party n) (OperationBase n Token Error) (Instr n Token Error) :=
  ⟨c.shared.zip,c.threads⟩

structure Invariant (c : Config (Party n) (Operation n Token Result Error) (Instr n Token Error))
    (stack : List (Party n)) : Prop where
  zips : Nested (Zip.machine n Token none) isCallout Any (Zip.initial n Token Error) (inner c) stack
  ledger : Ledger c.shared
  guarded : ∀ p, Guarded c.shared.zip.stopRequested (c.threads p)
  justified : (c.shared.zip.stopRequested = true ∨ ∃ p, ∃ i ∈ c.threads p, ending i = true) →
    c.shared.result.isSome ∨ ∃ i, Failed c.shared i
  signals : ∀ p, ∀ i ∈ c.threads p, i.ofChild = true →
    stack.head? = some p ∧ c.threads p = [i] ∧ Carries c.shared i
  order : c.shared.zip.completedChildren = c.shared.zip.decremented ∨ ∃ p k signal, stack.head? = some p ∧
    c.threads p = [.fetchSub k signal] ∧ c.shared.zip.completedChildren = c.shared.zip.decremented ++ [k]
  stored : c.shared.zip.errors ≠ none → c.shared.zip.stopRequested = true ∨
    ∃ p, stack.head? = some p ∧ (c.threads p).head? = some .requestStop
  drained : c.shared.zip.stopRequested = true → (∀ k, c.shared.zip.queues k = []) ∨ ∃ p, .clearQueues ∈ c.threads p
  announced : c.shared.zip.decremented ≠ [] → c.shared.zip.decremented.length = n ∨
    c.shared.zip.stopRequested = true ∨ ∃ p, .requestStop ∈ c.threads p
  explained : ∀ d ∈ c.shared.completions, Explained c.shared d

variable {s s' : Operation n Token Result Error} {z : OperationBase n Token Error}
  {c : Config (Party n) (Operation n Token Result Error) (Instr n Token Error)} {stack below : List (Party n)}
  {p : Party n} {i : Instr n Token Error} {new rest : List (Instr n Token Error)} {k : Fin n} {signal : Signal Error}

/-! ### Steps of the zip -/

theorem mem_exec {exception : Option Error} (ran : (s',new) ∈ exec exception i s) :
    ∃ z, (z,new) ∈ Zip.exec exception i s.zip ∧ s' = notifyFirst i s.zip { s with zip := z } := by
  obtain ⟨⟨z,new⟩,member,same⟩ := List.mem_map.mp ran
  obtain ⟨rfl,rfl⟩ := Prod.mk.inj same
  exact ⟨z,member,rfl⟩

theorem firstReceiver_eq (s : Operation n Token Result Error) (signal : Signal Error) :
    ∃ outcome undefined, firstReceiver s signal = { s with
      completions := s.completions ++ [⟨outcome,s.result,s.closed⟩], undefined := undefined } := by
  cases signal with
  | value _ =>
    simp only [firstReceiver,visitResult]
    split <;> exact ⟨_,_,rfl⟩
  | error e => exact ⟨_,_,rfl⟩
  | stopped => exact ⟨_,_,rfl⟩

theorem notifyFirst_other (other : ∀ signal, i ≠ .finish signal) : notifyFirst i z s = s := by
  cases i <;> first | rfl | exact absurd rfl (other _)

/-- What `first` leaves as it is when it reacts. -/
theorem notifyFirst_keeps (i : Instr n Token Error) (z : OperationBase n Token Error) (s : Operation n Token Result Error) :
    (notifyFirst i z s).zip = s.zip ∧ (notifyFirst i z s).opens = s.opens ∧ (notifyFirst i z s).closed = s.closed ∧
    (notifyFirst i z s).result = s.result ∧ (notifyFirst i z s).fnOutcomes = s.fnOutcomes := by
  by_cases other : ∀ signal, i ≠ .finish signal
  · rw [notifyFirst_other other]; exact ⟨rfl,rfl,rfl,rfl,rfl⟩
  · obtain ⟨signal,rfl⟩ := not_forall_not.mp other
    obtain ⟨_,_,same⟩ := firstReceiver_eq s (outcome z signal)
    rw [notifyFirst,same]
    exact ⟨rfl,rfl,rfl,rfl,rfl⟩

section
variable {z z' : OperationBase n Token Error} (ran : Ran none z i z' new)
include ran

theorem ran_ledger : z'.arrived = z.arrived ∧ z'.completedItems = z.completedItems ∧
    z'.completedChildren = z.completedChildren ∧ z'.completedZipped = z.completedZipped ∧
    z'.outerStopRequested = z.outerStopRequested := by
  cases ran <;> exact ⟨rfl,rfl,rfl,rfl,rfl⟩

theorem ran_completions : (∃ signal, i = .finish signal) ∨ z'.completions = z.completions := by
  cases ran <;> first | exact .inr rfl | exact .inl ⟨_,rfl⟩

theorem ran_stop : z'.stopRequested = z.stopRequested ∨ i = .requestStop ∧ z'.stopRequested = true := by
  cases ran <;> first | exact .inl rfl | exact .inr ⟨rfl,rfl⟩

theorem ran_stored : z'.errors = z.errors ∨ (∃ e, i = .storeError e) ∧ new = [] := by
  cases ran <;> first | exact .inl rfl | exact .inr ⟨⟨_,rfl⟩,rfl⟩

theorem ran_decremented : z'.decremented = z.decremented ∨ ∃ k signal, i = .fetchSub k signal ∧
    z'.decremented = z.decremented ++ [k] := by
  cases ran <;> first | exact .inl rfl | exact .inr ⟨_,_,rfl,rfl⟩

/-- Queues that are empty stay so, unless an item enters its queue. -/
theorem ran_queues : (i = .clearQueues → ∀ k, z'.queues k = []) ∧
    ((∀ k, z.queues k = []) → (∃ x, i = .pushBack x) ∨ ∀ k, z'.queues k = []) := by
  cases ran with
  | pushBack x => exact ⟨nofun,fun _ => .inl ⟨x,rfl⟩⟩
  | clearQueues => exact ⟨fun _ _ => rfl,fun _ => .inr fun _ => rfl⟩
  | popFronts x result ops front => exact ⟨nofun,fun empty => .inr fun k => by simp [empty k]⟩
  | _ => exact ⟨nofun,fun empty => .inr empty⟩

/-- As long as the outer stop token is not requested, a step that ends something
    follows from one, or from the stop. -/
theorem ran_ending (calm : z.outerStopRequested = false) :
    ∀ j ∈ new, ending j = true → z.stopRequested = true ∨ ending i = true := by
  intro j member ends
  cases ran with
  | emplaceThrows _ _ _ throws => cases throws
  | zippedThrows _ _ _ _ throws => cases throws
  | emplaceStopCallback => simp [calm] at member
  | testStop x =>
    split at member
    next stopped => exact .inl stopped
    next => obtain rfl := List.mem_singleton.mp member; cases ends
  | checkStop x result =>
    split at member
    next stopped => exact .inl stopped
    next => obtain rfl := List.mem_singleton.mp member; cases ends
  | announced x front =>
    split at member
    · obtain rfl := List.mem_singleton.mp member; cases ends
    · cases member
  | startZipped x result next ops held =>
    split at member <;> simp at member
    · rcases member with rfl | rfl <;> cases ends
    · subst member; cases ends
  | _ => first
    | exact .inr rfl
    | cases member; done
    | obtain rfl := List.mem_singleton.mp member; cases ends

end

/-! ### Handlers that request the stop first -/

theorem Guarded.mono {b b' : Bool} (guarded : Guarded b rest) (later : b = true → b' = true) : Guarded b' rest := by
  induction rest generalizing b b' with
  | nil => trivial
  | cons i rest ih =>
    cases i <;> simp only [Guarded] at guarded ⊢
    case requestStop => exact guarded
    all_goals first
      | exact ⟨guarded.1,ih guarded.2 later⟩
      | exact ⟨fun needs => later (guarded.1 needs),ih guarded.2 later⟩

/-- Steps that need no stop, or that run after it, before a program. -/
theorem Guarded.append {b : Bool} (guarded : Guarded b rest)
    (plain : ∀ j ∈ new, j ≠ .requestStop ∧ (∀ e, j ≠ .storeError e) ∧ (afterStop j = true → b = true)) :
    Guarded b (new ++ rest) := by
  induction new with
  | nil => exact guarded
  | cons j new ih =>
    have later := ih fun k member => plain k (List.mem_cons_of_mem j member)
    obtain ⟨noRequest,noError,needs⟩ := plain j (by simp)
    cases j <;> first
      | exact ⟨needs,later⟩
      | exact absurd rfl noRequest
      | exact absurd rfl (noError _)

theorem Guarded.head {b : Bool} (guarded : Guarded b (i :: rest)) :
    (afterStop i = true → b = true) ∧ Guarded (b || i matches .requestStop) rest ∧
    (i = .requestStop → .clearQueues ∈ rest) ∧ (∀ e, i = .storeError e → rest.head? = some .requestStop) := by
  cases i <;> simp only [Guarded] at guarded
  case requestStop => exact ⟨nofun,by simpa using guarded.2,fun _ => guarded.1,nofun⟩
  case storeError e => exact ⟨nofun,by simpa using guarded.2,nofun,fun _ _ => guarded.1⟩
  all_goals exact ⟨guarded.1,by simpa using guarded.2,nofun,nofun⟩

theorem notLast_guarded {b : Bool} (signal : Signal Error) (guarded : Guarded b rest) :
    Guarded b (notLast signal ++ rest : List (Instr n Token Error)) := by
  cases signal <;> simp [notLast,notifyError,notifyStop,Guarded,afterStop] <;> exact guarded.mono fun _ => rfl

/-- A step keeps the order of the steps that are left. -/
theorem ran_guarded {z z' : OperationBase n Token Error} (calm : z.outerStopRequested = false)
    (guarded : Guarded z.stopRequested (i :: rest)) (ran : Ran none z i z' new) :
    Guarded z'.stopRequested (new ++ rest) := by
  obtain ⟨needs,later,_,_⟩ := guarded.head
  cases ran with
  | emplaceThrows _ _ _ throws => cases throws
  | zippedThrows _ _ _ _ throws => cases throws
  | requestStop => simpa [Guarded,afterStop] using later
  | emplaceStopCallback => simpa [calm] using later
  | fetchSub k signal =>
    simp only [Bool.or_false] at later
    split
    · exact notLast_guarded signal later
    · simpa [Guarded,afterStop] using later
  | clearQueues =>
    simp only [Bool.or_false] at later
    refine later.append fun j member => ?_
    obtain ⟨_,x,_,rfl⟩ := mem_completeQueues.mp member
    exact ⟨nofun,nofun,fun _ => needs rfl⟩
  | completeAllItemOps x ops held =>
    simp only [Bool.or_false] at later
    refine later.append fun j member => ?_
    obtain ⟨_,rfl⟩ := mem_completeAll.mp member
    exact ⟨nofun,nofun,fun _ => needs rfl⟩
  | testStop x =>
    simp only [Bool.or_false] at later
    split
    next stopped => exact ⟨fun _ => stopped,later⟩
    next => exact ⟨nofun,later⟩
  | checkStop x result =>
    simp only [Bool.or_false] at later
    split
    next stopped => exact ⟨fun _ => stopped,later⟩
    next => exact ⟨nofun,later⟩
  | announced x front =>
    simp only [Bool.or_false] at later
    split
    · exact ⟨nofun,later⟩
    · exact later
  | startZipped x result next ops held =>
    simp only [Bool.or_false] at later
    split
    · exact ⟨nofun,nofun,later⟩
    · exact ⟨nofun,later⟩
  | _ =>
    simp only [Bool.or_false] at later
    first
      | exact later
      | exact ⟨nofun,later⟩

/-- Items complete with `set_stopped`, because they complete after the stop. -/
theorem ran_items {z z' : OperationBase n Token Error} (needs : afterStop i = true → z.stopRequested = true)
    (ran : (z',new) ∈ Zip.exec none i z) : z'.itemCompletions = z.itemCompletions ∨
      z.stopRequested = true ∧ ∃ x, z'.itemCompletions = z.itemCompletions ++ [(x,.stopped)] := by
  by_cases last : afterStop i = true
  · have stopped := needs last
    cases i <;> simp only [afterStop,Bool.false_eq_true] at last
    case clearQueues => cases ran_of_mem ran; exact .inl rfl
    case completeAllItemOps x => cases ran_of_mem ran; exact .inl rfl
    case setStopped x => cases ran_of_mem ran; exact .inr ⟨stopped,x,rfl⟩
    case complete x =>
      simp only [Zip.exec,Zip.complete,stopped,if_true,List.map_cons,List.map_nil,List.mem_singleton] at ran
      obtain ⟨rfl,rfl⟩ := Prod.mk.inj ran
      exact .inr ⟨stopped,x,rfl⟩
  · have other := ran_of_mem ran
    left
    cases other <;> first | rfl | exact absurd rfl last

/-! ### A step of the innermost handler -/

theorem token?_congr (opens : s'.opens = s.opens) : token? s' = token? s := by
  funext i
  simp [token?,opens]

theorem failed_congr (opens : s'.opens = s.opens) : Failed s' = Failed s := by
  funext i
  simp [Failed,token?_congr opens,opens]

/-- What the zip and `first` send goes together. -/
theorem notifyFirst_sent (i : Instr n Token Error) (z : OperationBase n Token Error)
    (ran : (z,new) ∈ Zip.exec none i s.zip) (sent : s.completions.length = s.zip.completions.length)
    (defined : s.completions = [] → s.undefined = false) :
    (notifyFirst i s.zip { s with zip := z }).completions.length = z.completions.length ∧
    ((notifyFirst i s.zip { s with zip := z }).completions = [] →
      (notifyFirst i s.zip { s with zip := z }).undefined = false) := by
  by_cases other : ∀ signal, i ≠ .finish signal
  · rw [notifyFirst_other other]
    rcases ran_completions (ran_of_mem ran) with ⟨signal,finishes⟩ | same
    · exact absurd finishes (other signal)
    · exact ⟨by rw [same]; exact sent,defined⟩
  · obtain ⟨signal,rfl⟩ := not_forall_not.mp other
    obtain ⟨_,_,same⟩ := firstReceiver_eq { s with zip := z } (outcome s.zip signal)
    rw [notifyFirst,same]
    cases ran_of_mem ran
    simp [sent]

theorem Ledger.run (ledger : Ledger s) (needs : afterStop i = true → s.zip.stopRequested = true)
    (ran : (z,new) ∈ Zip.exec none i s.zip) : Ledger (notifyFirst i s.zip { s with zip := z }) := by
  obtain ⟨zip,opens,closed,result,outcomes⟩ := notifyFirst_keeps i s.zip { s with zip := z }
  obtain ⟨arrived,completedItems,completed,zipped,calm⟩ := ran_ledger (ran_of_mem ran)
  have stop := ran_stop (ran_of_mem ran)
  have later : s.zip.stopRequested = true → z.stopRequested = true := fun stopped =>
    stop.elim (fun same => same.trans stopped) (·.2)
  have tokens := token?_congr opens
  have fails := failed_congr opens
  obtain ⟨sent,defined⟩ := notifyFirst_sent i z ran ledger.sent ledger.defined
  generalize notifyFirst i s.zip { s with zip := z } = s' at *
  have items := ran_items needs ran
  constructor
  · rw [zip,calm]; exact ledger.calm
  · rw [zip,arrived,tokens]; exact ledger.arrived
  · rw [zip,completedItems,tokens]; exact ledger.items
  · rw [zip,completed,fails,closed]; exact ledger.completed
  · intro i member
    rw [closed] at member
    obtain ⟨token,started⟩ := ledger.closed i member
    rw [tokens,zip]
    refine ⟨token,?_⟩
    rcases items with same | ⟨_,x,same⟩
    · rw [same]; exact started
    · rw [same,List.map_append]; exact List.mem_append_left _ started
  · rw [closed]; exact ledger.distinct
  · rw [zip]
    intro a member
    rcases items with same | ⟨_,x,same⟩
    · exact ledger.stopped a (same ▸ member)
    · rw [same,List.mem_append,List.mem_singleton] at member
      rcases member with before | rfl
      · exact ledger.stopped a before
      · rfl
  · rw [zip]
    intro some
    rcases items with same | ⟨stopped,x,same⟩
    · exact later (ledger.stops (same ▸ some))
    · exact later stopped
  · rw [result,outcomes]; exact ledger.slot
  · rw [outcomes,zip,zipped]; exact ledger.calls
  · rw [zip,zipped]; exact ledger.once
  · rw [zip]; exact sent
  · exact defined

theorem inner_put (c : Config (Party n) (Operation n Token Result Error) (Instr n Token Error)) (p : Party n)
    (s : Operation n Token Result Error) (prog : List (Instr n Token Error)) :
    inner (c.put p s prog) = (inner c).put p s.zip prog := rfl

/-- After the stop nothing enters a queue. -/
theorem Invariant.calm_push {x : Item n} (inv : Invariant c (p :: below)) (left : c.threads p = .pushBack x :: rest) :
    c.shared.zip.stopRequested = false := by
  have pairing := ZipPairing.nested_invariant (Fin.pos x.index) inv.zips
  rcases pairing.top with ⟨_,quiet⟩ | ⟨q,top,j,only,doing⟩
  · have := quiet p (by simp) (.pushBack x) (by rw [inner,left]; simp)
    cases this
  · obtain rfl : p = q := by simpa using top
    obtain ⟨rfl,_⟩ := List.cons.inj (left.symm.trans only)
    cases doing
    assumption

/-- The counter of the zip. -/
theorem Invariant.counted (inv : Invariant c stack) : ZipOutcome.Counted c.shared.zip (ZipOutcome.stage (inner c)) :=
  ZipOutcome.reach_counted inv.zips.reach

theorem Brings.congr (brings : Brings s k signal) (opens : s'.opens = s.opens)
    (stop : s.zip.stopRequested = true → s'.zip.stopRequested = true) (errors : s'.zip.errors = s.zip.errors) :
    Brings s' k signal where
  error e := by rw [opens]; exact brings.error e
  stopped stopped := stop (brings.stopped stopped)
  value value := errors.trans (brings.value value)

theorem not_ofChild_notLast {j : Instr n Token Error} (member : j ∈ notLast signal) : j.ofChild = false := by
  have none := List.filter_eq_nil_iff.mp (ZipOutcome.notLast_filter (n := n) signal) j member
  simpa using none

section
variable (inv : Invariant c (p :: below)) (left : c.threads p = i :: rest)
  (ran : (z,new) ∈ Zip.exec none i c.shared.zip) (zip : s.zip = z)
include inv left ran

theorem justified_run (opens : s.opens = c.shared.opens) (result : s.result = c.shared.result) (zip : s.zip = z) :
    (s.zip.stopRequested = true ∨ ∃ q, ∃ j ∈ (c.put p s (new ++ rest)).threads q, ending j = true) →
    s.result.isSome ∨ ∃ i, Failed s i := by
  intro ends
  rw [result,failed_congr opens]
  apply inv.justified
  have own : ending i = true → ∃ q, ∃ j ∈ c.threads q, ending j = true := fun ends => ⟨p,i,by simp [left],ends⟩
  rcases ends with stopped | ⟨q,j,member,ends⟩
  · rcases ran_stop (ran_of_mem ran) with same | ⟨rfl,_⟩
    · exact .inl (same ▸ zip ▸ stopped)
    · exact .inr (own rfl)
  · by_cases same : q = p
    · subst same
      rw [put_threads_self,List.mem_append] at member
      rcases member with fresh | later
      · exact (ran_ending (ran_of_mem ran) inv.ledger.calm j fresh ends).imp_right own
      · exact .inr ⟨q,j,by simp [left,later],ends⟩
    · rw [put_threads_ne c same] at member
      exact .inr ⟨q,j,member,ends⟩

theorem signals_run (opens : s.opens = c.shared.opens) (zip : s.zip = z) :
    ∀ q, ∀ j ∈ (c.put p s (new ++ rest)).threads q, j.ofChild = true →
      (p :: below).head? = some q ∧ (c.put p s (new ++ rest)).threads q = [j] ∧ Carries s j := by
  intro q j member child
  by_cases same : q = p
  · subst same
    rw [put_threads_self] at member ⊢
    have absent : j ∉ rest := by
      intro later
      obtain ⟨_,only,_⟩ := inv.signals q j (by simp [left,later]) child
      rw [left] at only
      simp [(List.cons.inj only).2] at later
    have fresh : j ∈ new := (List.mem_append.mp member).resolve_right absent
    have mine : i.ofChild = true := by
      by_contra other
      obtain ⟨_,_,_,_,none⟩ := ZipOutcome.ran_other (by simpa using other) (ran_of_mem ran)
      simpa [child] using List.filter_eq_nil_iff.mp none j fresh
    obtain ⟨_,only,carries⟩ := inv.signals q i (by simp [left]) mine
    obtain rfl : rest = [] := by rw [left] at only; exact (List.cons.inj only).2
    refine ⟨rfl,?_⟩
    cases ran_of_mem ran with
    | fetchSub k signal =>
      split at fresh
      · rw [not_ofChild_notLast fresh] at child; cases child
      next last =>
        obtain rfl := List.mem_singleton.mp fresh
        rw [if_neg last]
        refine ⟨rfl,k,by simp [zip],?_⟩
        exact Brings.congr carries opens (by simp [zip]) (by simp [zip])
    | resetStopCallback signal =>
      obtain rfl := List.mem_singleton.mp fresh
      obtain ⟨k,last,brings⟩ := carries
      exact ⟨rfl,k,by simpa [zip] using last,brings.congr opens (by simp [zip]) (by simp [zip])⟩
    | finish signal => obtain rfl := List.mem_singleton.mp fresh; cases child
    | _ => cases mine
  · rw [put_threads_ne c same] at member
    have := (inv.signals q j member child).1
    exact absurd (by simpa using this.symm) same

theorem order_run (zip : s.zip = z) : s.zip.completedChildren = s.zip.decremented ∨
    ∃ q k signal, (p :: below).head? = some q ∧ (c.put p s (new ++ rest)).threads q = [.fetchSub k signal] ∧
      s.zip.completedChildren = s.zip.decremented ++ [k] := by
  left
  obtain ⟨_,_,completed,_⟩ := ran_ledger (ran_of_mem ran)
  rw [zip,completed]
  rcases inv.order with same | ⟨q,k,signal,top,only,same⟩
  · rcases ran_decremented (ran_of_mem ran) with unchanged | ⟨k,signal,rfl,_⟩
    · rw [unchanged,same]
    · obtain ⟨_,known,absent⟩ := inv.counted.decrementing p k signal
        (List.mem_filter.mpr ⟨by rw [inner,left]; simp,rfl⟩)
      exact absurd (same ▸ known) absent
  · obtain rfl : p = q := by simpa using top
    obtain ⟨rfl,_⟩ := List.cons.inj (left.symm.trans only)
    cases ran_of_mem ran
    exact same

theorem stored_run (zip : s.zip = z) : s.zip.errors ≠ none → s.zip.stopRequested = true ∨
    ∃ q, (p :: below).head? = some q ∧ ((c.put p s (new ++ rest)).threads q).head? = some .requestStop := by
  intro some
  rw [zip] at some ⊢
  have guarded := inv.guarded p
  rw [left] at guarded
  rcases ran_stored (ran_of_mem ran) with same | ⟨⟨e,rfl⟩,rfl⟩
  · left
    have stop := ran_stop (ran_of_mem ran)
    rcases inv.stored (same ▸ some) with stopped | ⟨q,top,first⟩
    · exact stop.elim (fun same => same.trans stopped) (·.2)
    · obtain rfl : p = q := by simpa using top
      rw [left] at first
      obtain rfl : i = .requestStop := by simpa using first
      cases ran_of_mem ran
      rfl
  · exact .inr ⟨p,rfl,by simpa using guarded.head.2.2.2 e rfl⟩

theorem drained_run (zip : s.zip = z) : s.zip.stopRequested = true → (∀ k, s.zip.queues k = []) ∨
    ∃ q, .clearQueues ∈ (c.put p s (new ++ rest)).threads q := by
  intro stopped
  rw [zip] at stopped ⊢
  have guarded := inv.guarded p
  rw [left] at guarded
  obtain ⟨cleared,empty⟩ := ran_queues (ran_of_mem ran)
  have here : .clearQueues ∈ rest → ∃ q, .clearQueues ∈ (c.put p s (new ++ rest)).threads q := fun later =>
    ⟨p,by simp [later]⟩
  rcases ran_stop (ran_of_mem ran) with same | ⟨rfl,_⟩
  · rw [same] at stopped
    rcases inv.drained stopped with queues | ⟨q,member⟩
    · rcases empty queues with ⟨x,rfl⟩ | none
      · rw [inv.calm_push left] at stopped; cases stopped
      · exact .inl none
    · by_cases same : q = p
      · subst same
        rw [left,List.mem_cons] at member
        rcases member with rfl | later
        · exact .inl (cleared rfl)
        · exact .inr (here later)
      · exact .inr ⟨q,by rw [put_threads_ne c same]; exact member⟩
  · exact .inr (here (guarded.head.2.2.1 rfl))

theorem announced_run (zip : s.zip = z) : s.zip.decremented ≠ [] → s.zip.decremented.length = n ∨
    s.zip.stopRequested = true ∨ ∃ q, .requestStop ∈ (c.put p s (new ++ rest)).threads q := by
  intro some
  rw [zip] at some ⊢
  have stop := ran_stop (ran_of_mem ran)
  have later : c.shared.zip.stopRequested = true → z.stopRequested = true := fun stopped =>
    stop.elim (fun same => same.trans stopped) (·.2)
  rcases ran_decremented (ran_of_mem ran) with same | ⟨k,signal,rfl,same⟩
  · rw [same] at some ⊢
    rcases inv.announced some with all | stopped | ⟨q,member⟩
    · exact .inl all
    · exact .inr (.inl (later stopped))
    · by_cases same : q = p
      · subst same
        rw [left,List.mem_cons] at member
        rcases member with rfl | member
        · cases ran_of_mem ran
          exact .inr (.inl rfl)
        · exact .inr (.inr ⟨q,by simp [member]⟩)
      · exact .inr (.inr ⟨q,by rw [put_threads_ne c same]; exact member⟩)
  · obtain ⟨_,_,absent⟩ := inv.counted.decrementing p k signal
      (List.mem_filter.mpr ⟨by rw [inner,left]; simp,rfl⟩)
    have few := length_of_not_mem inv.counted.distinct absent
    have pending := inv.counted.pending
    cases ran_of_mem ran
    by_cases more : c.shared.zip.nPendingOperations > 1
    · refine .inr (.inr ⟨p,?_⟩)
      rw [put_threads_self,if_pos more]
      cases signal <;> simp [notLast,notifyError,notifyStop]
    · left
      simp only [List.length_append,List.length_singleton]
      omega

/-- Nothing is left to decrement once the outer receiver is completed. -/
theorem sent_run (sent : c.shared.completions ≠ []) : (∀ signal, i ≠ .finish signal) ∧
    z.decremented = c.shared.zip.decremented := by
  have some : c.shared.zip.completions ≠ [] := by
    have := inv.ledger.sent
    rintro none
    rw [none] at this
    exact sent (List.length_eq_zero_iff.mp this)
  have at_p : i.ofChild = true → i ∈ ZipOutcome.stage (inner c) p := fun mine =>
    List.mem_filter.mpr ⟨by rw [inner,left]; simp,mine⟩
  refine ⟨?_,?_⟩
  · rintro signal rfl
    exact some (inv.counted.finisher p _ (at_p rfl) trivial).1
  · rcases ran_decremented (ran_of_mem ran) with same | ⟨k,signal,rfl,_⟩
    · exact same
    · obtain ⟨_,_,absent⟩ := inv.counted.decrementing p k signal (at_p rfl)
      have few := length_of_not_mem inv.counted.distinct absent
      have all := inv.counted.finished some
      omega

theorem explained_run (d : Sent n Result Error)
    (member : d ∈ (notifyFirst i c.shared.zip { c.shared with zip := z }).completions) :
    Explained (notifyFirst i c.shared.zip { c.shared with zip := z }) d := by
  by_cases other : ∀ signal, i ≠ .finish signal
  · rw [notifyFirst_other other] at member ⊢
    have before := inv.explained d member
    obtain ⟨_,same⟩ := sent_run inv left ran (List.ne_nil_of_mem member)
    obtain ⟨k,last,cases⟩ := before.last
    exact ⟨before.closed,before.empty,before.slot,k,same ▸ last,cases⟩
  · obtain ⟨signal,rfl⟩ := not_forall_not.mp other
    obtain ⟨_,_,k,last,brings⟩ := inv.signals p (.finish signal) (by simp [left]) rfl
    have open_ : c.shared.completions = [] := by
      by_contra some
      exact (sent_run inv left ran some).1 signal rfl
    have clear := inv.ledger.defined open_
    have calm := inv.ledger.calm
    have empty : c.shared.result = none → ∃ i, Failed c.shared i := fun slot =>
      (inv.justified (.inr ⟨p,.finish signal,by simp [left],rfl⟩)).resolve_left (by simp [slot])
    cases ran_of_mem ran
    -- unless the last sequence brings an error, `first` visits its slot
    have visits : (∀ e, signal ≠ .error e) → outcome c.shared.zip signal = .value () := by
      intro quiet
      cases signal with
      | value _ => simp [outcome,calm,brings.value rfl]
      | stopped => simp [outcome,calm,brings.stopped rfl]
      | error e => exact absurd rfl (quiet e)
    by_cases quiet : ∀ e, signal ≠ .error e
    · have noError : ∀ e, c.shared.opens k ≠ some (.error e) := fun e failed => quiet e ((brings.error e).mpr failed)
      cases slot : c.shared.result with
      | none =>
        simp only [notifyFirst,visits quiet,firstReceiver,visitResult,slot,complete,open_,List.nil_append,
          List.mem_singleton] at member ⊢
        subst member
        exact ⟨rfl,fun _ => empty slot,by simp,k,last,.inr ⟨noError,.inl ⟨rfl,rfl⟩⟩⟩
      | some result =>
        simp only [notifyFirst,visits quiet,firstReceiver,visitResult,slot,complete,open_,List.nil_append,
          List.mem_singleton] at member ⊢
        subst member
        exact ⟨rfl,by simp,fun _ same => same,k,last,.inr ⟨noError,.inr ⟨result,rfl,rfl,clear⟩⟩⟩
    · obtain ⟨e,rfl⟩ := not_forall_not.mp quiet
      simp only [notifyFirst,outcome,firstReceiver,complete,open_,List.nil_append,List.mem_singleton] at member ⊢
      subst member
      exact ⟨rfl,empty,fun _ same => same,k,last,.inl ⟨e,(brings.error e).mp rfl,rfl,clear⟩⟩

theorem run_keeps (moved : s = notifyFirst i c.shared.zip { c.shared with zip := z }) :
    Invariant (c.put p s (new ++ rest)) (p :: below) := by
  obtain ⟨zip,opens,_,result,_⟩ := notifyFirst_keeps i c.shared.zip { c.shared with zip := z }
  rw [← moved] at zip opens result
  have guarded := inv.guarded p
  rw [left] at guarded
  constructor
  · rw [inner_put,zip]
    exact .run inv.zips trivial ((mem_next_run _).mpr ⟨i,rest,z,new,left,ran,rfl⟩)
  · rw [put_shared,moved]
    exact inv.ledger.run guarded.head.1 ran
  · intro q
    rw [put_shared,zip]
    by_cases same : q = p
    · subst same
      rw [put_threads_self]
      exact ran_guarded inv.ledger.calm guarded (ran_of_mem ran)
    · rw [put_threads_ne c same]
      exact (inv.guarded q).mono fun stopped =>
        (ran_stop (ran_of_mem ran)).elim (fun same => same.trans stopped) (·.2)
  · exact justified_run inv left ran opens result zip
  · exact signals_run inv left ran opens zip
  · exact order_run inv left ran zip
  · exact stored_run inv left ran zip
  · exact drained_run inv left ran zip
  · exact announced_run inv left ran zip
  · intro d member
    rw [put_shared,moved] at member ⊢
    exact explained_run inv left ran d member

end

theorem finish_keeps (inv : Invariant c (p :: below)) (idle : c.threads p = []) : Invariant c below where
  zips := .finish inv.zips idle
  ledger := inv.ledger
  guarded := inv.guarded
  justified := inv.justified
  signals q j member child := by
    obtain ⟨top,only,_⟩ := inv.signals q j member child
    obtain rfl : p = q := by simpa using top
    simp [idle] at only
  order := by
    refine .inl (inv.order.resolve_right ?_)
    rintro ⟨q,_,_,top,only,_⟩
    obtain rfl : p = q := by simpa using top
    simp [idle] at only
  stored some := by
    refine .inl ((inv.stored some).resolve_right ?_)
    rintro ⟨q,top,first⟩
    obtain rfl : p = q := by simpa using top
    simp [idle] at first
  drained := inv.drained
  announced := inv.announced
  explained := inv.explained

/-! ### An event -/

theorem outside_inner (out : Outside isCallout c stack) : Outside isCallout (inner c) stack := by
  cases stack <;> exact out

section
variable (inv : Invariant c stack) (out : Outside isCallout c stack)
include inv out

/-- The innermost handler is at a callout. -/
theorem outside_top {q : Party n} {j : Instr n Token Error} (top : stack.head? = some q)
    (first : (c.threads q).head? = some j) : isCallout j = true := by
  cases stack with
  | nil => cases top
  | cons r below =>
    obtain ⟨i,rest,left,callout⟩ := out
    obtain rfl : r = q := by simpa using top
    rw [left] at first
    obtain rfl : i = j := by simpa using first
    exact callout

theorem outside_child (q : Party n) (j : Instr n Token Error) (member : j ∈ c.threads q) : j.ofChild = false := by
  by_contra child
  obtain ⟨top,only,_⟩ := inv.signals q j member (by simpa using child)
  have callout := outside_top inv out top (j := j) (by simp [only])
  cases j <;> simp [isCallout,Instr.ofChild] at callout child

theorem outside_order : c.shared.zip.completedChildren = c.shared.zip.decremented := by
  refine inv.order.resolve_right ?_
  rintro ⟨q,k,signal,top,only,_⟩
  cases outside_top inv out top (j := .fetchSub k signal) (by simp [only])

theorem outside_stored (some : c.shared.zip.errors ≠ none) : c.shared.zip.stopRequested = true := by
  refine (inv.stored some).resolve_right ?_
  rintro ⟨q,top,first⟩
  cases outside_top inv out top first

/-- An event that leaves the counter, the queues and the stop as they are. -/
theorem event_keeps (zips : Nested (Zip.machine n Token none) isCallout Any (Zip.initial n Token Error)
      (inner (c.put p s new)) (p :: stack)) (idle : c.threads p = []) (ledger : Ledger s)
    (stop : s.zip.stopRequested = c.shared.zip.stopRequested) (errors : s.zip.errors = c.shared.zip.errors)
    (queues : s.zip.queues = c.shared.zip.queues) (decremented : s.zip.decremented = c.shared.zip.decremented)
    (completions : s.completions = c.shared.completions) (guarded : Guarded c.shared.zip.stopRequested new)
    (justified : (c.shared.result.isSome ∨ ∃ i, Failed c.shared i) ∨ (∃ j ∈ new, ending j = true) →
      s.result.isSome ∨ ∃ i, Failed s i)
    (signals : ∀ j ∈ new, j.ofChild = true → new = [j] ∧ Carries s j)
    (order : s.zip.completedChildren = c.shared.zip.completedChildren ∨ ∃ k signal, new = [.fetchSub k signal] ∧
      s.zip.completedChildren = c.shared.zip.completedChildren ++ [k])
    (explained : ∀ d ∈ c.shared.completions, Explained c.shared d → Explained s d) :
    Invariant (c.put p s new) (p :: stack) := by
  have elsewhere : ∀ j, (∃ q, j ∈ c.threads q) → ∃ q, j ∈ (c.put p s new).threads q := by
    rintro j ⟨q,member⟩
    have other : q ≠ p := by rintro rfl; simp [idle] at member
    exact ⟨q,by rw [put_threads_ne c other]; exact member⟩
  constructor
  · exact zips
  · exact ledger
  · intro q
    rw [put_shared,stop]
    by_cases same : q = p
    · subst same; rw [put_threads_self]; exact guarded
    · rw [put_threads_ne c same]; exact inv.guarded q
  · rw [put_shared,stop]
    rintro (stopped | ⟨q,j,member,ends⟩)
    · exact justified (.inl (inv.justified (.inl stopped)))
    · by_cases same : q = p
      · subst same
        rw [put_threads_self] at member
        exact justified (.inr ⟨j,member,ends⟩)
      · rw [put_threads_ne c same] at member
        exact justified (.inl (inv.justified (.inr ⟨q,j,member,ends⟩)))
  · intro q j member child
    by_cases same : q = p
    · subst same
      rw [put_threads_self] at member ⊢
      exact ⟨rfl,signals j member child⟩
    · rw [put_threads_ne c same] at member
      rw [outside_child inv out q j member] at child
      cases child
  · rw [put_shared,decremented,← outside_order inv out]
    rcases order with same | ⟨k,signal,rfl,same⟩
    · exact .inl same
    · exact .inr ⟨p,k,signal,rfl,put_threads_self c p s _,same⟩
  · rw [put_shared,errors,stop]
    exact fun some => .inl (outside_stored inv out some)
  · rw [put_shared,stop,queues]
    exact fun stopped => (inv.drained stopped).imp_right (elsewhere _)
  · rw [put_shared,stop,decremented]
    exact fun some => (inv.announced some).imp_right (Or.imp_right (elsewhere _))
  · intro d member
    rw [put_shared,completions] at member
    exact explained d member (inv.explained d member)

/-- The handler that the zip runs for one of its events. -/
theorem zip_call (e : Zip.Event n Token Error) (party : (Zip.machine n Token (none : Option Error)).party e = p)
    (idle : c.threads p = []) (accepted : Zip.accept e c.shared.zip = some (z,new)) (zip : s.zip = z) :
    Nested (Zip.machine n Token none) isCallout Any (Zip.initial n Token Error) (inner (c.put p s new)) (p :: stack) := by
  rw [inner_put,zip]
  exact inv.zips.enter (outside_inner out) e trivial party idle accepted

omit out in
/-- While a resource is in use or in the opening, nothing has been sent. -/
theorem unsent (absent : k ∉ c.shared.zip.completedChildren) : c.shared.completions = [] := by
  have none := (inv.counted.early (fun member => absent (inv.counted.known k member))).1
  have sent := inv.ledger.sent
  rw [show c.shared.zip.completions = [] from none] at sent
  exact List.length_eq_zero_iff.mp sent

end

theorem token?_update (fresh : s.opens k = none) (outcome : Completion Token Error)
    (opens : s'.opens = Function.update s.opens k (some outcome)) (j : Fin n) :
    token? s' j = if j = k then (match outcome with | .value t => some t | _ => none) else token? s j := by
  by_cases same : j = k
  · subst same; cases outcome <;> simp [token?,opens]
  · simp [token?,opens,same]

theorem failed_update (fresh : s.opens k = none) (outcome : Completion Token Error)
    (opens : s'.opens = Function.update s.opens k (some outcome)) (j : Fin n) :
    Failed s' j ↔ Failed s j ∨ j = k ∧ ∀ t, outcome ≠ .value t := by
  rw [Failed,token?_update fresh outcome opens]
  by_cases same : j = k
  · subst same; cases outcome <;> simp [Failed,fresh,opens]
  · simp [Failed,opens,same]

/-- An open completes with a value and the token is used. -/
theorem Ledger.opens (ledger : Ledger s) (fresh : s.opens k = none) (t : Token) (started : List (Item n)) :
    Ledger { s with
      zip := { s.zip with
        startedItems := started
        completedItems := s.zip.completedItems ++ [useItem k]
        arrived := Function.update s.zip.arrived k (s.zip.arrived k ++ [(useItem k,t)]) }
      opens := Function.update s.opens k (some (.value t)) } := by
  have none_yet : token? s k = none := by simp [token?,fresh]
  refine ⟨ledger.calm,?_,?_,?_,?_,ledger.distinct,ledger.stopped,ledger.stops,ledger.slot,ledger.calls,ledger.once,
    ledger.sent,ledger.defined⟩
  · intro i
    rw [token?_update fresh (.value t) rfl]
    by_cases same : i = k
    · subst same; simp [ledger.arrived,none_yet]
    · simp [same,ledger.arrived]
  · intro x
    rw [token?_update fresh (.value t) rfl,List.mem_append,List.mem_singleton,ledger.items]
    by_cases same : x.index = k
    · subst same; simp [none_yet]
    · have other : x ≠ useItem k := by rintro rfl; exact same rfl
      simp [same,other]
  · intro i
    rw [failed_update fresh (.value t) rfl]
    simpa using ledger.completed i
  · intro i member
    refine ⟨?_,(ledger.closed i member).2⟩
    rw [token?_update fresh (.value t) rfl]
    split
    · rfl
    · exact (ledger.closed i member).1

/-- An open completes without a token, and so does the sequence. -/
theorem Ledger.fails (ledger : Ledger s) (fresh : s.opens k = none) {outcome : Completion Token Error}
    (quiet : ∀ t, outcome ≠ .value t) (reported : List Error) :
    Ledger { s with
      zip := { s.zip with completedChildren := s.zip.completedChildren ++ [k], reported := reported }
      opens := Function.update s.opens k (some outcome) } := by
  have tokens : token? { s with
      zip := { s.zip with completedChildren := s.zip.completedChildren ++ [k], reported := reported }
      opens := Function.update s.opens k (some outcome) } = token? s := by
    funext j
    rw [token?_update fresh outcome rfl]
    split
    next same =>
      subst same
      cases outcome with
      | value t => exact absurd rfl (quiet t)
      | _ => simp [token?,fresh]
    next => rfl
  refine ⟨ledger.calm,?_,?_,?_,?_,ledger.distinct,ledger.stopped,ledger.stops,ledger.slot,ledger.calls,ledger.once,
    ledger.sent,ledger.defined⟩
  · rw [tokens]; exact ledger.arrived
  · rw [tokens]; exact ledger.items
  · intro i
    rw [failed_update fresh outcome rfl,List.mem_append,List.mem_singleton,ledger.completed]
    simp only [ne_eq,quiet,not_false_eq_true,implies_true,and_true]
    exact or_right_comm
  · rw [tokens]; exact ledger.closed

/-- A close completes, and so does the sequence. -/
theorem Ledger.closes (ledger : Ledger s) (absent : k ∉ s.zip.completedChildren) (token : (token? s k).isSome)
    (started : useItem k ∈ s.zip.itemCompletions.map (·.1)) (reported : List Error) :
    Ledger { s with
      zip := { s.zip with completedChildren := s.zip.completedChildren ++ [k], reported := reported }
      closed := s.closed ++ [k] } := by
  refine ⟨ledger.calm,ledger.arrived,ledger.items,?_,?_,?_,ledger.stopped,ledger.stops,ledger.slot,ledger.calls,
    ledger.once,ledger.sent,ledger.defined⟩
  · intro i
    rw [List.mem_append,ledger.completed,List.mem_append,or_assoc]
    rfl
  · intro i member
    rcases List.mem_append.mp member with before | last
    · exact ledger.closed i before
    · obtain rfl := List.mem_singleton.mp last
      exact ⟨token,started⟩
  · refine (List.perm_append_singleton k _).nodup_iff.mpr (List.nodup_cons.mpr ⟨?_,ledger.distinct⟩)
    exact fun member => absent ((ledger.completed k).mpr (.inr member))

/-- The sender that `fn` returned completes. -/
theorem Ledger.call {x : Item n} (ledger : Ledger s) (fresh : x ∉ s.zip.completedZipped)
    (result : Completion Result Error) :
    Ledger { s with
      zip := { s.zip with completedZipped := s.zip.completedZipped ++ [x] }
      result := emplace s.result result
      fnOutcomes := s.fnOutcomes ++ [result] } := by
  refine ⟨ledger.calm,ledger.arrived,ledger.items,ledger.completed,ledger.closed,ledger.distinct,ledger.stopped,
    ledger.stops,?_,?_,?_,ledger.sent,ledger.defined⟩
  · show emplace s.result result = _
    rw [emplace,ledger.slot,List.head?_append]
    rfl
  · simp [ledger.calls]
  · exact (List.perm_append_singleton x _).nodup_iff.mpr (List.nodup_cons.mpr ⟨fresh,ledger.once⟩)

/-! ### The events -/

section
variable (inv : Invariant c stack) (out : Outside isCallout c stack)
include inv out

theorem start_keeps (idle : c.threads .operation = []) (accepted : Zip.accept .start c.shared.zip = some (z,new)) :
    Invariant (c.put .operation { c.shared with zip := z } new) (.operation :: stack) := by
  have zips := zip_call inv out (s := { c.shared with zip := z }) .start rfl idle accepted rfl
  cases raised_of_accept accepted with
  | start _ =>
    refine event_keeps inv out zips idle ?_ rfl rfl rfl rfl rfl ?_ ?_ ?_ (.inl rfl) ?_
    · have ledger := inv.ledger
      exact ⟨ledger.calm,ledger.arrived,ledger.items,ledger.completed,ledger.closed,ledger.distinct,ledger.stopped,
        ledger.stops,ledger.slot,ledger.calls,ledger.once,ledger.sent,ledger.defined⟩
    · refine ⟨nofun,?_⟩
      rw [← List.append_nil (List.map _ _)]
      refine Guarded.append trivial fun j member => ?_
      obtain ⟨k,_,rfl⟩ := List.mem_map.mp member
      exact ⟨nofun,nofun,nofun⟩
    · rintro (before | ⟨j,member,ends⟩)
      · exact before
      · simp only [List.mem_cons,List.mem_map] at member
        rcases member with rfl | ⟨k,_,rfl⟩ <;> cases ends
    · intro j member child
      simp only [List.mem_cons,List.mem_map] at member
      rcases member with rfl | ⟨k,_,rfl⟩ <;> cases child
    · exact fun d _ before => ⟨before.closed,before.empty,before.slot,before.last⟩

/-- The token goes to the zip in one call of the environment. -/
theorem openSetValue_zips {t : Token} (idle : c.threads (.item (useItem k)) = [])
    (accepted : openSetValue c.shared.zip k t = some (z,new)) (zip : s.zip = z) :
    Nested (Zip.machine n Token none) isCallout Any (Zip.initial n Token Error)
      (inner (c.put (.item (useItem k)) s new)) (.item (useItem k) :: stack) := by
  obtain ⟨⟨y,mid⟩,set,sends⟩ := Option.bind_eq_some_iff.mp accepted
  have quiet : mid = [] := by cases raised_of_accept set; rfl
  have setting : Nested (Zip.machine n Token none) isCallout Any (Zip.initial n Token Error)
      ((inner c).put (.item (useItem k)) y mid) (.item (useItem k) :: stack) :=
    inv.zips.enter (outside_inner out) (Event.setNext (useItem k)) trivial rfl idle set
  have returned : Nested (Zip.machine n Token none) isCallout Any (Zip.initial n Token Error)
      ((inner c).put (.item (useItem k)) y mid) stack := .finish setting (by simp [quiet])
  have outside : Outside isCallout ((inner c).put (.item (useItem k)) y mid) stack := by
    cases stack with
    | nil => trivial
    | cons q below =>
      obtain ⟨i,rest,left,callout⟩ := out
      refine ⟨i,rest,?_,callout⟩
      rw [put_threads_ne _ (by rintro rfl; simp [idle] at left)]
      exact left
  have twice : inner (c.put (.item (useItem k)) s new) =
      ((inner c).put (.item (useItem k)) y mid).put (.item (useItem k)) z new := by
    simp [inner,Config.put,zip]
  rw [twice]
  exact returned.enter outside (Event.itemValue (useItem k) t) trivial rfl (by simp [quiet]) sends

theorem openValue_keeps {t : Token} (idle : c.threads (.item (useItem k)) = []) (fresh : c.shared.opens k = none)
    (accepted : openSetValue c.shared.zip k t = some (z,new)) :
    Invariant (c.put (.item (useItem k)) { c.shared with
      zip := z, opens := Function.update c.shared.opens k (some (.value t)) } new) (.item (useItem k) :: stack) := by
  have zips := openSetValue_zips inv out (s := { c.shared with
    zip := z, opens := Function.update c.shared.opens k (some (.value t)) }) idle accepted rfl
  obtain ⟨⟨y,mid⟩,set,sends⟩ := Option.bind_eq_some_iff.mp accepted
  cases raised_of_accept set with
  | setNext _ _ absent _ =>
  cases raised_of_accept sends with
  | itemValue _ _ _ _ =>
    refine event_keeps inv out zips idle (inv.ledger.opens fresh t _) rfl rfl rfl rfl rfl ⟨nofun,trivial⟩ ?_ ?_ (.inl rfl) ?_
    · rintro (before | ⟨j,member,ends⟩)
      · refine before.imp_right fun ⟨i,failed⟩ => ⟨i,?_⟩
        rw [failed_update fresh (.value t) rfl]
        exact .inl failed
      · obtain rfl := List.mem_singleton.mp member
        cases ends
    · intro j member child
      obtain rfl := List.mem_singleton.mp member
      cases child
    · intro d member _
      rw [unsent inv absent] at member
      cases member

/-- The sequence of a resource completes. -/
theorem sequence_keeps (idle : c.threads (.child k) = [])
    (accepted : sequenceCompletes c.shared.zip k signal = some (z,new)) (zip : s.zip = z)
    (completions : s.completions = c.shared.completions) (ledger : Ledger s)
    (justified : s.result.isSome ∨ ∃ i, Failed s i) (brings : Brings s k signal) :
    Invariant (c.put (.child k) s new) (.child k :: stack) := by
  have zips := zip_call inv out (.childCompletes k signal) rfl idle accepted zip
  cases raised_of_accept accepted with
  | childCompletes _ _ _ absent _ =>
    refine event_keeps inv out zips idle ledger (by rw [zip]) (by rw [zip]) (by rw [zip]) (by rw [zip]) completions
      ⟨nofun,trivial⟩ (fun _ => justified) ?_ (.inr ⟨k,signal,rfl,by rw [zip]⟩) ?_
    · intro j member _
      obtain rfl := List.mem_singleton.mp member
      exact ⟨rfl,brings⟩
    · intro d member _
      rw [unsent inv absent] at member
      cases member

theorem openFails_keeps {outcome : Completion Token Error} (idle : c.threads (.child k) = [])
    (fresh : c.shared.opens k = none) (quiet : ∀ t, outcome ≠ .value t)
    (accepted : sequenceCompletes c.shared.zip k signal = some (z,new))
    (error : ∀ e, signal = .error e ↔ outcome = .error e)
    (stopped : signal = .stopped → c.shared.zip.stopRequested = true)
    (value : signal = .value () → c.shared.zip.stopRequested = false) :
    Invariant (c.put (.child k) { c.shared with
      zip := z, opens := Function.update c.shared.opens k (some outcome) } new) (.child k :: stack) := by
  have raised := raised_of_accept accepted
  refine sequence_keeps inv out idle accepted rfl rfl ?_ (.inr ⟨k,?_⟩) ⟨?_,?_,?_⟩
  · cases raised
    exact inv.ledger.fails fresh quiet _
  · rw [failed_update fresh outcome rfl]
    exact .inr ⟨rfl,quiet⟩
  · intro e
    simp [error]
  · cases raised
    exact stopped
  · intro sent
    cases raised
    by_contra some
    exact absurd (outside_stored inv out some) (by simp [value sent])

omit out in
/-- An item operation that has completed is that of a resource that was opened. -/
theorem item_opened {x : Item n} (member : x ∈ c.shared.zip.itemCompletions.map (·.1)) :
    x = useItem x.index ∧ (token? c.shared x.index).isSome := by
  have placed := (ZipPairing.nested_invariant (Fin.pos x.index) inv.zips).placed x
  have some := List.count_pos_iff.mpr member
  have known : x ∈ c.shared.zip.completedItems := by
    by_contra absent
    rw [inner,if_neg absent] at placed
    simp only [ZipPairing.places,ZipPairing.kept] at placed
    omega
  exact (inv.ledger.items x).mp known

theorem closeDone_keeps (idle : c.threads (.child k) = []) {item : Signal Error}
    (next : (closes c.shared k)[c.shared.closed.count k]? = some item)
    (accepted : sequenceCompletes c.shared.zip k (finalReceiver c.shared.zip item) = some (z,new)) :
    Invariant (c.put (.child k) { c.shared with zip := z, closed := c.shared.closed ++ [k] } new) (.child k :: stack) := by
  obtain ⟨a,member,rfl⟩ := List.mem_map.mp (List.mem_of_getElem? next)
  obtain ⟨member,own⟩ := List.mem_filter.mp member
  have own : a.1 = useItem k := of_decide_eq_true own
  have started : useItem k ∈ c.shared.zip.itemCompletions.map (·.1) := List.mem_map.mpr ⟨a,member,own⟩
  have token : (token? c.shared k).isSome := (item_opened inv started).2
  have stop := inv.ledger.stops (List.ne_nil_of_mem member)
  have signal : finalReceiver c.shared.zip a.2 = .stopped := by
    simp [finalReceiver,inv.ledger.stopped a member,setStopped,stop]
  rw [signal] at accepted
  have raised := raised_of_accept accepted
  refine sequence_keeps inv out idle accepted rfl rfl ?_ (inv.justified (.inl stop)) ⟨?_,?_,nofun⟩
  · cases raised with
    | childCompletes _ _ _ absent _ => exact inv.ledger.closes absent token started _
  · intro e
    refine ⟨nofun,fun failed => ?_⟩
    have failed : c.shared.opens k = some (.error e) := failed
    simp [token?,failed] at token
  · intro _
    cases raised
    exact stop

theorem fnCompletes_keeps {x : Item n} {result : Completion Result Error} (idle : c.threads (.zipped x) = [])
    (accepted : Zip.accept (.zippedStopped x) c.shared.zip = some (z,new)) :
    Invariant (c.put (.zipped x) { c.shared with
      zip := z, result := emplace c.shared.result result, fnOutcomes := c.shared.fnOutcomes ++ [result] } new)
      (.zipped x :: stack) := by
  have zips := zip_call inv out (s := { c.shared with
    zip := z, result := emplace c.shared.result result, fnOutcomes := c.shared.fnOutcomes ++ [result] })
    (.zippedStopped x) rfl idle accepted rfl
  have filled : (emplace c.shared.result result).isSome := by
    cases c.shared.result <;> rfl
  cases raised_of_accept accepted with
  | zippedStopped _ _ fresh =>
    refine event_keeps inv out zips idle (inv.ledger.call fresh result) rfl rfl rfl rfl rfl ?_
      (fun _ => .inl filled) ?_ (.inl rfl) ?_
    · simp [zippedSetStopped,notifyStop,Guarded,afterStop]
    · intro j member child
      simp only [zippedSetStopped,notifyStop,List.cons_append,List.nil_append,List.mem_cons,List.not_mem_nil,
        or_false] at member
      rcases member with rfl | rfl | rfl <;> cases child
    · intro d _ before
      obtain ⟨k,last,cases⟩ := before.last
      refine ⟨before.closed,before.empty,fun r slot => ?_,k,last,cases⟩
      simp [emplace,before.slot r slot]

theorem call_keeps {e : Event n Token Result Error}
    (idle : c.threads ((machine n Token Result (none : Option Error)).party e) = [])
    (accepted : accept none e c.shared = some (s,new)) :
    Invariant (c.put ((machine n Token Result (none : Option Error)).party e) s new)
      ((machine n Token Result (none : Option Error)).party e :: stack) := by
  cases e with
  | start =>
    obtain ⟨⟨z,new⟩,called,same⟩ := Option.map_eq_some_iff.mp accepted
    obtain ⟨rfl,rfl⟩ := Prod.mk.inj same
    exact start_keeps inv out idle called
  | openValue i t =>
    simp only [accept] at accepted
    split at accepted
    next fresh =>
      obtain ⟨⟨z,new⟩,called,same⟩ := Option.map_eq_some_iff.mp accepted
      obtain ⟨rfl,rfl⟩ := Prod.mk.inj same
      exact openValue_keeps inv out idle fresh called
    next => cases accepted
  | openThrows i t =>
    simp only [accept,Option.bind_none,ite_self] at accepted
    cases accepted
  | openError i e =>
    simp only [accept] at accepted
    split at accepted
    next fresh =>
      obtain ⟨⟨z,new⟩,called,same⟩ := Option.map_eq_some_iff.mp accepted
      obtain ⟨rfl,rfl⟩ := Prod.mk.inj same
      exact openFails_keeps inv out idle fresh nofun called (by simp) nofun nofun
    next => cases accepted
  | openStopped i =>
    simp only [accept] at accepted
    split at accepted
    next fresh =>
      obtain ⟨⟨z,new⟩,called,same⟩ := Option.map_eq_some_iff.mp accepted
      obtain ⟨rfl,rfl⟩ := Prod.mk.inj same
      refine openFails_keeps inv out idle fresh nofun called ?_ ?_ ?_
      · intro e
        simp [setStopped,setValueUnlessStopped_ne_error]
      all_goals cases stop : c.shared.zip.stopRequested <;> simp [setStopped,stop]
    next => cases accepted
  | closeDone i =>
    obtain ⟨item,next,done⟩ := Option.bind_eq_some_iff.mp accepted
    obtain ⟨⟨z,new⟩,called,same⟩ := Option.map_eq_some_iff.mp done
    obtain ⟨rfl,rfl⟩ := Prod.mk.inj same
    exact closeDone_keeps inv out idle next called
  | fnCompletes x result =>
    obtain ⟨⟨z,new⟩,called,same⟩ := Option.map_eq_some_iff.mp accepted
    obtain ⟨rfl,rfl⟩ := Prod.mk.inj same
    exact fnCompletes_keeps inv out idle called

end

/-! ### Runs -/

theorem initial_invariant : Invariant (initial n Token Result Error) [] where
  zips := .start
  ledger := by constructor <;> simp [initial,Zip.initial,token?,Failed]
  guarded := by simp [initial,Guarded]
  justified := by simp [initial,Zip.initial]
  signals := by simp [initial]
  order := .inl rfl
  stored := by simp [initial,Zip.initial]
  drained := by simp [initial,Zip.initial]
  announced := by simp [initial,Zip.initial]
  explained := by simp [initial]

theorem nested_invariant
    (nested : Nested (machine n Token Result none) isCallout Any (initial n Token Result Error) c stack) :
    Invariant c stack :=
  nested.invariant (I := Invariant) initial_invariant
    (fun _ _ _ _ _ _ _ inv _ left ran => by
      obtain ⟨z,ran,moved⟩ := mem_exec ran
      exact run_keeps inv left ran moved)
    (fun _ _ _ inv idle => finish_keeps inv idle)
    (fun _ _ _ _ _ inv out _ idle accepted => call_keeps inv out idle accepted)

theorem token?_eq_some {t : Token} : token? s k = some t ↔ s.opens k = some (.value t) := by
  unfold token?
  split <;> simp_all

theorem failed_or_opened (ended : Ended c stack) (i : Fin n) :
    Failed c.shared i ∨ ∃ t, c.shared.opens i = some (.value t) := by
  cases token : token? c.shared i with
  | none => exact .inl ⟨ended.opened i,token⟩
  | some t => exact .inr ⟨t,token?_eq_some.mp token⟩

section
variable (inv : Invariant c stack)
include inv

theorem sent_completed (sent : c.shared.completions ≠ []) (i : Fin n) : i ∈ c.shared.zip.completedChildren := by
  by_contra absent
  exact sent (unsent inv absent)

theorem sent_once : c.shared.completions.length ≤ 1 :=
  inv.ledger.sent ▸ inv.counted.once

/-- A resource whose sequence has completed was closed once. -/
theorem closed_once (completed : k ∈ c.shared.zip.completedChildren) {t : Token}
    (opened : c.shared.opens k = some (.value t)) : c.shared.closed.count k = 1 := by
  apply List.count_eq_one_of_mem inv.ledger.distinct
  refine ((inv.ledger.completed k).mp completed).resolve_left ?_
  rintro ⟨_,none⟩
  rw [token?_eq_some.mpr opened] at none
  cases none

/-- Every resource is closed before the outer receiver is completed. -/
theorem closed_before (d : Sent n Result Error) (member : d ∈ c.shared.completions) {t : Token}
    (opened : c.shared.opens k = some (.value t)) : d.closed.count k = 1 := by
  rw [(inv.explained d member).closed]
  exact closed_once inv (sent_completed inv (List.ne_nil_of_mem member) k) opened

/-- A tuple has the token of every resource, and there is no second one. -/
theorem emitted_tokens (positive : 0 < n) : c.shared.zip.emitted.length ≤ 1 ∧
    ∀ e ∈ c.shared.zip.emitted, ∀ i, c.shared.opens i = some (.value (e.values i)) := by
  have known := (ZipPairing.nested_invariant positive inv.zips).known
  have begins : ∀ i, ZipPairing.tuples c.shared.zip i <+: (token? c.shared i).toList.map fun t => (useItem i,t) :=
    fun i => inv.ledger.arrived i ▸ known.begins i
  constructor
  · have few := (begins ⟨0,positive⟩).length_le
    simp only [ZipPairing.tuples,List.length_map] at few
    refine few.trans ?_
    cases token? c.shared ⟨0,positive⟩ <;> simp
  · intro e member i
    have first := (begins i).subset (List.mem_map_of_mem member)
    obtain ⟨t,token,same⟩ := List.mem_map.mp first
    have value : t = e.values i := (Prod.mk.inj same).2
    exact value ▸ token?_eq_some.mp (Option.mem_toList.mp token)

/-- The slot is filled only after a tuple was emitted, that is after all opens. -/
theorem slot_filled (positive : 0 < n) {result : Completion Result Error} (slot : c.shared.result = some result) :
    AllOpen c.shared ∧ ∃ call, c.shared.zip.emitted = [call] ∧ c.shared.fnOutcomes = [result] := by
  have known := (ZipPairing.nested_invariant positive inv.zips).known
  obtain ⟨few,tokens⟩ := emitted_tokens inv positive
  have first : c.shared.fnOutcomes.head? = some result := inv.ledger.slot ▸ slot
  obtain ⟨later,outcomes⟩ : ∃ later, c.shared.fnOutcomes = result :: later := by
    cases all : c.shared.fnOutcomes with
    | nil => simp [all] at first
    | cons r later => exact ⟨later,by simpa [all] using first⟩
  have calls := inv.ledger.calls
  have running : ∀ x ∈ c.shared.zip.completedZipped, x ∈ c.shared.zip.emitted.map (·.trigger) := known.running
  have least : c.shared.zip.completedZipped.length ≤ c.shared.zip.emitted.length := by
    have := (List.subperm_of_subset inv.ledger.once running).length_le
    simpa using this
  rw [outcomes,List.length_cons] at calls
  obtain ⟨call,only⟩ := List.length_eq_one_iff.mp (show c.shared.zip.emitted.length = 1 by omega)
  refine ⟨fun i => ⟨call.values i,tokens call (by simp [only]) i⟩,call,only,?_⟩
  rw [outcomes,List.length_eq_zero_iff.mp (show later.length = 0 by omega)]

/-! ### The end of a run -/

theorem ended_idle (positive : 0 < n) (ended : Ended c stack) (p : Party n) : c.threads p = [] :=
  (ZipPairing.nested_invariant positive inv.zips).off p (by simp [ended.returned])

/-- The item of a resource that was opened waits in its queue, or it has completed. -/
theorem ended_item (positive : 0 < n) (ended : Ended c stack) {t : Token} (opened : c.shared.opens k = some (.value t)) :
    (closes c.shared k).length + (c.shared.zip.queues k).count (useItem k) = 1 := by
  have placed := (ZipPairing.nested_invariant positive inv.zips).placed (useItem k)
  have known : useItem k ∈ c.shared.zip.completedItems := by
    rw [inv.ledger.items]
    exact ⟨rfl,by rw [show (useItem k).index = k from rfl,token?_eq_some.mpr opened]; rfl⟩
  have none_running : ZipPairing.runningWith c.shared.zip (useItem k) = 0 := by
    apply List.countP_eq_zero.mpr
    intro e member
    simp [ended.called e member]
  have length : (closes c.shared k).length = (c.shared.zip.itemCompletions.map (·.1)).count (useItem k) := by
    rw [closes,List.length_map,← List.countP_eq_length_filter,List.count,List.countP_map]
    rfl
  rw [inner,if_pos known,ended.returned] at placed
  simp only [ZipPairing.places,ZipPairing.kept,List.map_nil,List.sum_nil,none_running] at placed
  rw [length]
  exact placed

theorem ended_order (positive : 0 < n) (ended : Ended c stack) :
    c.shared.zip.completedChildren = c.shared.zip.decremented := by
  refine inv.order.resolve_right ?_
  rintro ⟨q,_,_,_,only,_⟩
  simp [ended_idle inv positive ended q] at only

/-- No item is left in a queue: either a stop was requested and the queues were
    cleared, or every resource has an item there and a tuple is emitted. -/
theorem ended_completed (positive : 0 < n) (ended : Ended c stack) (i : Fin n) : i ∈ c.shared.zip.completedChildren := by
  have idle := ended_idle inv positive ended
  have order := ended_order inv positive ended
  have empty : (∀ k, c.shared.zip.queues k = []) → ∀ i, i ∈ c.shared.zip.completedChildren := by
    intro empty i
    rcases failed_or_opened ended i with failed | ⟨t,opened⟩
    · exact (inv.ledger.completed i).mpr (.inl failed)
    · have item := ended_item inv positive ended opened
      have closed := ended.closed i
      rw [empty i,List.count_nil] at item
      exact (inv.ledger.completed i).mpr (.inr (List.count_pos_iff.mp (by omega)))
  cases stop : c.shared.zip.stopRequested with
  | true =>
    refine empty ((inv.drained stop).resolve_right ?_) i
    rintro ⟨q,member⟩
    simp [idle q] at member
  | false =>
    have none_yet : c.shared.zip.itemCompletions = [] := by
      by_contra some
      rw [inv.ledger.stops some] at stop
      cases stop
    have none_closed : ∀ k, closes c.shared k = [] := by simp [closes,none_yet]
    by_cases early : c.shared.zip.decremented = []
    · -- every item is in its queue, but one of the queues is empty
      have pairing := ZipPairing.nested_invariant positive inv.zips
      obtain ⟨settled,_⟩ := pairing.outside (outside_inner (by rw [ended.returned]; trivial))
      have full : nonEmpty c.shared.zip = Finset.univ := by
        ext k
        simp only [nonEmpty,Finset.mem_filter,Finset.mem_univ,true_and,iff_true]
        rcases failed_or_opened ended k with failed | ⟨t,opened⟩
        · have completed := (inv.ledger.completed k).mpr (.inl failed)
          rw [order,early] at completed
          cases completed
        · have item := ended_item inv positive ended opened
          rw [none_closed k] at item
          rintro none
          simp [none] at item
      have few := settled.few
      rw [inner,full] at few
      simp at few
    · rcases inv.announced early with all | stopped | ⟨q,member⟩
      · rw [order]
        exact mem_of_length inv.counted.distinct all i
      · rw [stopped] at stop; cases stop
      · simp [idle q] at member

theorem ended_sent (positive : 0 < n) (ended : Ended c stack) : c.shared.completions.length = 1 := by
  have idle := ended_idle inv positive ended
  have all : c.shared.zip.decremented.length = n := by
    apply length_of_mem inv.counted.distinct
    intro i
    by_contra out
    obtain ⟨signal,pending⟩ := inv.counted.waiting i (ended_completed inv positive ended i) out
    simp [ZipOutcome.stage,inner,idle] at pending
  have once := sent_once inv
  by_contra other
  have none : c.shared.zip.completions = [] := by
    have sent := inv.ledger.sent
    exact List.length_eq_zero_iff.mp (by omega)
  obtain ⟨p,i,member,_⟩ := inv.counted.unfinished none all positive
  simp [ZipOutcome.stage,inner,idle] at member

end

/-- While the outer receiver does not request a stop: it is completed at most
    once, and every resource that was opened is closed once by then; and at the end
    of the run all that is promised holds if and only if there is a resource, and
    either all opens succeeded or the sequence that completed last is one of a
    resource whose open failed with an error. -/
theorem use_resources_outcome
    (nested : Nested (machine n Token Result none) isCallout Any (initial n Token Result Error) c stack) :
    c.shared.completions.length ≤ 1 ∧
    (∀ d ∈ c.shared.completions, ∀ i t, c.shared.opens i = some (.value t) → d.closed.count i = 1) ∧
    (Ended c stack → (Promised c.shared ↔ 0 < n ∧ (AllOpen c.shared ∨ LastFails c.shared))) := by
  have inv := nested_invariant nested
  refine ⟨sent_once inv,fun d member i t opened => closed_before inv d member opened,fun ended => ⟨?_,?_⟩⟩
  · intro promised
    obtain ⟨d,only⟩ := List.length_eq_one_iff.mp promised.once.1
    have member : d ∈ c.shared.completions := by simp [only]
    obtain ⟨k,last,sent⟩ := (inv.explained d member).last
    have positive := Fin.pos k
    refine ⟨positive,?_⟩
    rcases sent with ⟨e,failed,_⟩ | ⟨_,⟨_,undefined⟩ | ⟨result,slot,_⟩⟩
    · exact .inr ⟨k,e,by rw [ended_order inv positive ended]; exact last,failed⟩
    · rw [promised.once.2] at undefined; cases undefined
    · exact .inl (slot_filled inv positive ((inv.explained d member).slot result slot)).1
  · rintro ⟨positive,good⟩
    have once := ended_sent inv positive ended
    obtain ⟨d,only⟩ := List.length_eq_one_iff.mp once
    have member : d ∈ c.shared.completions := by simp [only]
    have explained := inv.explained d member
    have closed : ∀ i t, c.shared.opens i = some (.value t) →
        (closes c.shared i).length = 1 ∧ ∀ d ∈ c.shared.completions, d.closed.count i = 1 := fun i t opened =>
      ⟨ended.closed i ▸ closed_once inv (ended_completed inv positive ended i) opened,
        fun d member => closed_before inv d member opened⟩
    obtain ⟨k,last,sent⟩ := explained.last
    rcases good with opens | ⟨i,e,final,failed⟩
    · have noError : ∀ i e, c.shared.opens i ≠ some (.error e) := by
        intro i e failed
        obtain ⟨t,opened⟩ := opens i
        rw [opened] at failed
        cases failed
      rcases sent with ⟨e,failed,_⟩ | ⟨_,⟨slot,_⟩ | ⟨result,slot,same,defined⟩⟩
      · exact absurd failed (noError k e)
      · obtain ⟨i,_,none⟩ := explained.empty slot
        obtain ⟨t,opened⟩ := opens i
        rw [token?_eq_some.mpr opened] at none
        cases none
      · obtain ⟨_,call,emitted,outcomes⟩ := slot_filled inv positive (explained.slot result slot)
        refine ⟨⟨once,defined⟩,closed,fun _ => ⟨call,result,emitted,?_,outcomes,by simpa [only] using same⟩,?_⟩
        · exact fun i => (emitted_tokens inv positive).2 call (by simp [emitted]) i
        · rintro ⟨i,e,failed⟩
          exact absurd failed (noError i e)
    · rw [ended_order inv positive ended,last] at final
      obtain rfl : k = i := Option.some.inj final
      rcases sent with ⟨e',failed',same,defined⟩ | ⟨quiet,_⟩
      · refine ⟨⟨once,defined⟩,closed,?_,fun _ => by simpa [only] using ⟨k,e',failed',same⟩⟩
        intro opens
        obtain ⟨t,opened⟩ := opens k
        rw [opened] at failed
        cases failed
      · exact absurd failed (quiet e)

/-- A resource is opened and used, and `fn` returns a sender that sends 42. -/
theorem use_resources_outcome_value : ∃ c stack,
    Nested (machine 1 Nat Nat none) isCallout Any (initial 1 Nat Nat Nat) c stack ∧ Ended c stack ∧
    c.shared.completions = [⟨.value 42,some (.value 42),[0]⟩] ∧ Promised c.shared := by
  obtain ⟨c,stack,nested,found⟩ := exists_of_followNested (machine 1 Nat Nat (none : Option Nat)) isCallout Any
    (initial 1 Nat Nat Nat) (fun _ _ => true) (fun _ _ _ => trivial)
    (List.flatten [[.call .start 0],List.replicate 2 (.run 0),[.call (.openValue 0 3) 0],List.replicate 9 (.run 0),
      [.call (.fnCompletes ⟨0,0⟩ (.value 42)) 0],List.replicate 5 (.run 0),[.call (.closeDone 0) 0],
      List.replicate 4 (.run 0),[.finish,.run 0,.finish,.run 0,.finish,.run 0,.finish]])
    (fun c stack => c.shared.completions = [⟨.value 42,some (.value 42),[0]⟩] && stack.isEmpty && endedHere c.shared &&
      c.shared.opens 0 = some (.value 3)) (by decide)
  simp only [Bool.and_eq_true,decide_eq_true_eq,List.isEmpty_iff] at found
  obtain ⟨⟨⟨sent,returned⟩,ended⟩,opened⟩ := found
  have ended := ended_of_here returned ended
  refine ⟨c,stack,nested,ended,sent,((use_resources_outcome nested).2.2 ended).mpr ⟨by decide,.inl fun i => ?_⟩⟩
  exact ⟨3,by rw [Subsingleton.elim i 0]; exact opened⟩

/-- The open of the first of two resources fails with an error, and the other one
    answers the stop request with `set_stopped`: the outer receiver is stopped, and
    the slot is visited although nothing was put there. -/
theorem open_error_is_lost : ∃ c stack,
    Nested (machine 2 Nat Nat none) isCallout Any (initial 2 Nat Nat Nat) c stack ∧ Ended c stack ∧
    c.shared.opens 0 = some (.error 7) ∧ c.shared.opens 1 = some .stopped ∧
    c.shared.completions = [⟨.stopped,none,[]⟩] ∧ c.shared.undefined = true ∧ ¬ Promised c.shared := by
  obtain ⟨c,stack,nested,found⟩ := exists_of_followNested (machine 2 Nat Nat (none : Option Nat)) isCallout Any
    (initial 2 Nat Nat Nat) (fun _ _ => true) (fun _ _ _ => trivial)
    (List.flatten [[.call .start 0],List.replicate 5 (.run 0),[.finish,.call (.openError 0 7) 0],
      List.replicate 5 (.run 0),[.finish,.call (.openStopped 1) 0],List.replicate 4 (.run 0),[.finish]])
    (fun c stack => c.shared.completions = [⟨.stopped,none,[]⟩] && stack.isEmpty && endedHere c.shared &&
      c.shared.opens 0 = some (.error 7) && c.shared.opens 1 = some .stopped && c.shared.undefined) (by decide)
  simp only [Bool.and_eq_true,decide_eq_true_eq,List.isEmpty_iff] at found
  obtain ⟨⟨⟨⟨⟨sent,returned⟩,ended⟩,first⟩,second⟩,undefined⟩ := found
  refine ⟨c,stack,nested,ended_of_here returned ended,first,second,sent,undefined,fun promised => ?_⟩
  obtain ⟨i,e,_,outcome⟩ := promised.fails ⟨0,7,first⟩ ⟨.stopped,none,[]⟩ (by simp [sent])
  cases outcome

end SendersIo.UseResources
