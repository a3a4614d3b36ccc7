import SendersIo.Interleaving
import SendersIo.IntrusiveLists

/-!
The subscriptions of a channel. An observer is in the list of the channel from its
subscribe action on, until its stop callback, `close` or an item that stops takes
it out. The actions run under the mutex, in the order in which their lock
operations were enqueued; a stopping item takes its observer out without the
mutex. Nothing keeps two of the three from taking out the same observer, and a stop
callback may enqueue its action before the subscribe action is enqueued.
-/
namespace SendersIo.Channel
open SendersIo.Interleaving SendersIo.IntrusiveLists

/-- Who executes: the thread that starts a subscription, the thread that runs its
    stop callback, whoever drains the mutex, an item that was sent to an observer,
    or a caller of the handle. -/
inductive Party where
  | starter (x : Nat)
  | stopper (x : Nat)
  | mutex
  | item (k : Nat)
  | caller
  deriving DecidableEq

/-- How far an action has come: the decision to start its lock operation, the queue of
    the mutex, its turn. -/
inductive Progress where
  | idle
  | asked
  | queued
  | running
  deriving DecidableEq

/-- `subscribe_operation` with its observer, and what happened to it: whether its stop
    callback is registered, its stop token requested, and the operation started; how
    far its two actions have come; who takes the observer out and completes the
    receiver; whether it was taken out, and how often its receiver was completed. -/
structure Subscription where
  nOps : Nat
  registered : Bool
  stopRequested : Bool
  started : Bool
  subscribing : Progress
  unsubscribing : Progress
  remover : Option Party
  removed : Bool
  completions : Nat

/-- What runs when the mutex was acquired. -/
inductive Action where
  | subscribe (x : Nat)
  | unsubscribe (x : Nat)
  | close
  | notifyAll
  deriving DecidableEq

/-- `context`, with the links of the observers and their subscriptions, the actions
    whose lock operations wait, the observers whose subscribe action has run, the
    observer that each item was sent to, and the items that have stopped. -/
structure Context where
  links : Links
  observers : IntrusiveList
  subs : Nat → Subscription
  queue : List Action
  pushed : List Nat
  spawned : List Nat
  stopped : List Nat

/-- The atomic steps. -/
inductive Instr where
  | emplaceCallback (x : Nat)
  | compareExchange (x : Nat)
  | exchangeStop (x : Nat)
  | enqueue (a : Action)
  | pushBack (x : Nat)
  | erase (x : Nat)
  | setValue (x : Nat)
  | resetCallback (x : Nat)
  | complete (x : Nat)
  | closeFront
  | notifyFrom (x : Nat)
  | notifyNext (x : Nat)
  | notifyAll
  deriving DecidableEq

inductive Event where
  | start (x : Nat)
  | requestStop (x : Nat)
  | drain
  | close
  | notifyAll
  | itemStops (k : Nat)

def Context.modify (s : Context) (x : Nat) (d : Subscription) : Context :=
  { s with subs := Function.update s.subs x d }

/-- The observers whose subscribe action has run and that were not taken out. -/
def Context.members (s : Context) : List Nat := s.pushed.filter fun x => !(s.subs x).removed

/-- The data of a subscription when one of its actions has come that far. -/
def Subscription.at (d : Subscription) (a : Action) (progress : Progress) : Subscription :=
  match a with
  | .subscribe _ => { d with subscribing := progress }
  | .unsubscribe _ => { d with unsubscribing := progress }
  | _ => d

/-- The subscription of an action. -/
def Action.subject : Action → Option Nat
  | .subscribe x => some x
  | .unsubscribe x => some x
  | _ => none

def Context.progress (s : Context) (a : Action) (progress : Progress) : Context :=
  match a.subject with
  | some x => s.modify x ((s.subs x).at a progress)
  | none => s

/-- `handle_base::subscribe`, `unsubscribe` with `stop_receiver::set_value`, `close` and
    `notify_all`, once the mutex was acquired. -/
def Action.body : Action → List Instr
  | .subscribe x => [.pushBack x]
  | .unsubscribe x => [.erase x,.setValue x,.resetCallback x,.complete x]
  | .close => [.closeFront]
  | .notifyAll => [.notifyAll]

/-- `on_stop_requested::operator()`. -/
def exchangeStop (p : Party) (s : Context) (x : Nat) : Context × List Instr :=
  let d := s.subs x
  if d.nOps = 1 then
    (s.modify x { d with nOps := 2, unsubscribing := .asked, remover := some .mutex },[.enqueue (.unsubscribe x)])
  else if d.nOps = 0 then
    (s.modify x { d with nOps := 2, remover := some p },[.resetCallback x,.complete x])
  else (s.modify x { d with nOps := 2 },[])

/-- `wrap_receiver::set_value`. -/
def setValue (s : Context) (x : Nat) : Context × List Instr :=
  let d := s.subs x
  (s.modify x { d with nOps := 3 },if d.nOps = 1 then [.resetCallback x,.complete x] else [])

/-- `intrusive_list::erase` of an observer. -/
def eraseObserver (s : Context) (x : Nat) : Context :=
  let out := IntrusiveLists.erase s.links s.observers x
  { s.modify x { s.subs x with removed := true } with links := out.1, observers := out.2 }

/-- One round of the loop of `handle_base::close`. -/
def closeFront (s : Context) : Context × List Instr :=
  let x := s.observers.head
  if x = 0 then (s,[])
  else
    let out := popFront s.links s.observers
    ({ s.modify x { s.subs x with removed := true, remover := some .mutex } with links := out.1, observers := out.2 },
      [.setValue x,.closeFront])

/-- The observer after its subscribe action: `push_back`. -/
def pushObserver (s : Context) (x : Nat) : Context :=
  let out := IntrusiveLists.pushBack s.links s.observers x
  { s with links := out.1, observers := out.2, pushed := s.pushed ++ [x] }

def exec : Party → Instr → Context → List (Context × List Instr)
  -- a callback that is constructed when its token is requested runs at once
  | _,.emplaceCallback x,s =>
    if (s.subs x).stopRequested then [(s,[.exchangeStop x])]
    else [(s.modify x { s.subs x with registered := true },[])]
  | _,.compareExchange x,s =>
    let d := s.subs x
    if d.nOps = 0 then [(s.modify x { d with nOps := 1, subscribing := .asked },[.enqueue (.subscribe x)])]
    else [(s,[])]
  | p,.exchangeStop x,s => [exchangeStop p s x]
  | _,.enqueue a,s => [({ s.progress a .queued with queue := s.queue ++ [a] },[])]
  | _,.pushBack x,s => [(pushObserver s x,[])]
  | _,.erase x,s => [(eraseObserver s x,[])]
  | _,.setValue x,s => [setValue s x]
  -- the thread that runs the callback may be the one that resets it, which does not wait then
  | _,.resetCallback x,s => [(s.modify x { s.subs x with registered := false },[])]
  | _,.complete x,s => [(s.modify x { s.subs x with completions := (s.subs x).completions + 1 },[])]
  | _,.closeFront,s => [closeFront s]
  | _,.notifyAll,s => [(s,[.notifyFrom s.observers.head])]
  -- the link to the next observer is read after the item was spawned
  | _,.notifyFrom x,s => if x = 0 then [(s,[])] else [({ s with spawned := s.spawned ++ [x] },[.notifyNext x])]
  | _,.notifyNext x,s => [(s,[.notifyFrom (s.links.next x)])]

/-- An operation is started once, and a token is requested once; an item completes
    once. The mutex takes the actions in order. -/
def accept : Event → Context → Option (Context × List Instr)
  | .start x,s =>
    if x ≠ 0 ∧ (s.subs x).started = false then
      some (s.modify x { s.subs x with started := true },[.emplaceCallback x,.compareExchange x])
    else none
  | .requestStop x,s =>
    if (s.subs x).stopRequested then none
    else
      some (s.modify x { s.subs x with stopRequested := true },
        if (s.subs x).registered then [.exchangeStop x] else [])
  | .drain,s =>
    match s.queue with
    | [] => none
    | a :: rest => some ({ s.progress a .running with queue := rest },a.body)
  | .close,s => some ({ s with queue := s.queue ++ [.close] },[])
  | .notifyAll,s => some ({ s with queue := s.queue ++ [.notifyAll] },[])
  | .itemStops k,s =>
    match s.spawned[k]? with
    | none => none
    | some x =>
      if k ∈ s.stopped then none
      else
        some ({ s.modify x { s.subs x with remover := some (.item k) } with stopped := k :: s.stopped },
          [.erase x,.setValue x])

def machine : Machine Party Context Instr Event where
  exec := exec
  accept := accept
  party
    | .start x => .starter x
    | .requestStop x => .stopper x
    | .drain => .mutex
    | .close => .caller
    | .notifyAll => .caller
    | .itemStops k => .item k

def initial : Config Party Context Instr where
  shared :=
    { links := ⟨fun _ => 0,fun _ => 0⟩, observers := ⟨0,0⟩
      subs := fun _ => ⟨0,false,false,false,.idle,.idle,none,false,0⟩
      queue := [], pushed := [], spawned := [], stopped := [] }
  threads _ := []

/-- Each observer is taken out for one reason: its stop callback acts on a subscription,
    `close` reaches an observer, and an item stops, only where nobody takes the
    observer out already; and no unsubscribe action is enqueued between the decision to
    subscribe and the enqueueing of the subscribe action. -/
def RemovedOnce (c : Config Party Context Instr) : Label Party Event → Prop
  | .run p =>
    (∀ x rest, c.threads p = .exchangeStop x :: rest → (c.shared.subs x).nOps = 1 →
      (c.shared.subs x).remover = none) ∧
    (∀ rest, c.threads p = .closeFront :: rest → c.shared.observers.head ≠ 0 →
      (c.shared.subs c.shared.observers.head).remover = none) ∧
    (∀ x rest, c.threads p = .enqueue (.unsubscribe x) :: rest → (c.shared.subs x).subscribing ≠ .asked)
  | .call (.itemStops k) => ∀ x, c.shared.spawned[k]? = some x → (c.shared.subs x).remover = none
  | _ => True

/-! ### The invariant -/

/-- The life of a subscription. `pushed` says that its observer was put into the list. -/
inductive Stage (d : Subscription) (pushed : Prop) : Prop
  | fresh : d.nOps = 0 → d.subscribing = .idle → d.unsubscribing = .idle → d.remover = none → d.removed = false →
      d.completions = 0 → ¬ pushed → Stage d pushed
  -- the stop callback came before the subscription
  | early (p : Party) : d.nOps = 2 → d.subscribing = .idle → d.unsubscribing = .idle → d.remover = some p →
      d.removed = false → d.completions ≤ 1 → ¬ pushed → Stage d pushed
  | active : d.nOps = 1 → d.subscribing ≠ .idle → d.unsubscribing = .idle → d.remover = none → d.removed = false →
      d.completions = 0 → Stage d pushed
  -- the stop callback may act before the subscribe action is enqueued
  | stopping : d.nOps = 2 → d.subscribing ≠ .idle → (d.subscribing = .asked → d.unsubscribing = .asked) →
      d.unsubscribing ≠ .idle → d.remover = some .mutex → d.removed = false → d.completions = 0 → Stage d pushed
  | picked (k : Nat) : d.nOps = 1 → pushed → d.unsubscribing = .idle → d.remover = some (.item k) →
      d.removed = false → d.completions = 0 → Stage d pushed
  | gone (p : Party) : d.nOps ≠ 0 → pushed → d.unsubscribing = .idle ∨ d.unsubscribing = .running →
      d.remover = some p → d.removed = true → d.completions ≤ 1 → Stage d pushed

/-- The observer of the subscription is not in the list, and will not be. -/
def Subscription.out (d : Subscription) : Prop := d.removed = true ∨ d.subscribing = .idle

/-- What a party has left after it is done with an observer. -/
inductive Rest (s : Context) : Party → List Instr → Prop
  | starter (x : Nat) : x ≠ 0 → (s.subs x).started = true → (s.subs x).subscribing = .idle →
      Rest s (.starter x) [.compareExchange x]
  | stopper (x : Nat) : Rest s (.stopper x) []
  | mutex : Rest s .mutex []
  | closing : Rest s .mutex [.closeFront]
  | item (k : Nat) : Rest s (.item k) []

/-- What a party has left, and what it knows about the subscription that it deals with. -/
inductive Left (s : Context) : Party → List Instr → Prop
  | idle (p : Party) : Left s p []
  | emplacing (x : Nat) (rest : List Instr) : Rest s (.starter x) rest →
      Left s (.starter x) (.emplaceCallback x :: rest)
  | comparing (x : Nat) : Rest s (.starter x) [.compareExchange x] → Left s (.starter x) [.compareExchange x]
  | asking (x : Nat) : (s.subs x).subscribing = .asked → Left s (.starter x) [.enqueue (.subscribe x)]
  | exchanging (p : Party) (x : Nat) (rest : List Instr) : p = .starter x ∨ p = .stopper x → Rest s p rest →
      Left s p (.exchangeStop x :: rest)
  | unsubscribing (x : Nat) : (s.subs x).unsubscribing = .asked → Left s (.stopper x) [.enqueue (.unsubscribe x)]
  | pushing (x : Nat) : (s.subs x).subscribing = .running → x ∉ s.pushed → Left s .mutex [.pushBack x]
  | erasing (p : Party) (x : Nat) (rest : List Instr) : (s.subs x).remover = some p → (s.subs x).removed = false →
      x ∈ s.pushed → (s.subs x).unsubscribing = .idle ∨ (s.subs x).unsubscribing = .running →
      (s.subs x).nOps = 1 ∧ Rest s p rest ∨ (s.subs x).nOps = 2 ∧ p = .mutex ∧ rest = [.resetCallback x,.complete x] →
      Left s p (.erase x :: .setValue x :: rest)
  | setting (p : Party) (x : Nat) (rest : List Instr) : (s.subs x).remover = some p → (s.subs x).removed = true →
      (s.subs x).completions = 0 →
      (s.subs x).nOps = 1 ∧ Rest s p rest ∨ (s.subs x).nOps = 2 ∧ p = .mutex ∧ rest = [.resetCallback x,.complete x] →
      Left s p (.setValue x :: rest)
  | resetting (p : Party) (x : Nat) (rest : List Instr) : (s.subs x).remover = some p → (s.subs x).out →
      (s.subs x).completions = 0 → Rest s p rest → Left s p (.resetCallback x :: .complete x :: rest)
  | completing (p : Party) (x : Nat) (rest : List Instr) : (s.subs x).remover = some p → (s.subs x).out →
      (s.subs x).completions = 0 → Rest s p rest → Left s p (.complete x :: rest)
  | closing : Left s .mutex [.closeFront]
  | notifying : Left s .mutex [.notifyAll]
  | notifyFrom (x : Nat) : x = 0 ∨ x ∈ s.pushed → Left s .mutex [.notifyFrom x]
  | notifyNext (x : Nat) : x ∈ s.pushed → Left s .mutex [.notifyNext x]

/-- The order of two actions in the queue. -/
def Before (a b : Action) : Prop :=
  ∀ x, (a = .subscribe x → b ≠ .subscribe x) ∧ (a = .unsubscribe x → b ≠ .subscribe x ∧ b ≠ .unsubscribe x)

/-- The queue holds the actions that are queued, each once, and no observer's subscribe
    action after its unsubscribe action. -/
structure Queued (queue : List Action) (subs : Nat → Subscription) : Prop where
  order : queue.Pairwise Before
  subscribe : ∀ x, .subscribe x ∈ queue ↔ (subs x).subscribing = .queued
  unsubscribe : ∀ x, .unsubscribe x ∈ queue ↔ (subs x).unsubscribing = .queued

structure Invariant (c : Config Party Context Instr) : Prop where
  list : Represents c.shared.links c.shared.observers c.shared.members
  once : c.shared.pushed.Nodup
  closed : Closed c.shared.links c.shared.observers (· ∈ c.shared.pushed)
  sent : ∀ x ∈ c.shared.spawned, x ∈ c.shared.pushed
  queued : Queued c.shared.queue c.shared.subs
  begun : ∀ x, (c.shared.subs x).subscribing ≠ .idle → x ≠ 0 ∧ (c.shared.subs x).started = true
  turn : ∀ x ∈ c.shared.pushed, (c.shared.subs x).subscribing = .running
  running : ∀ x, (c.shared.subs x).subscribing = .running → x ∈ c.shared.pushed ∨ c.threads .mutex = [.pushBack x]
  stage : ∀ x, Stage (c.shared.subs x) (x ∈ c.shared.pushed)
  left : ∀ p, Left c.shared p (c.threads p)

variable {c : Config Party Context Instr} {s s' : Context} {x : Nat} {p q : Party} {d d' : Subscription}
  {new rest prog : List Instr}

@[simp] theorem modify_subs (s : Context) (x : Nat) (d : Subscription) :
    (s.modify x d).subs = Function.update s.subs x d := rfl

@[simp] theorem progress_subscribe (s : Context) (x : Nat) (progress : Progress) :
    s.progress (.subscribe x) progress = s.modify x { s.subs x with subscribing := progress } := rfl

@[simp] theorem progress_unsubscribe (s : Context) (x : Nat) (progress : Progress) :
    s.progress (.unsubscribe x) progress = s.modify x { s.subs x with unsubscribing := progress } := rfl

@[simp] theorem eraseObserver_subs (s : Context) (x : Nat) :
    (eraseObserver s x).subs = Function.update s.subs x { s.subs x with removed := true } := rfl

theorem mem_members : x ∈ s.members ↔ x ∈ s.pushed ∧ (s.subs x).removed = false := by
  simp [Context.members]

theorem invariant_initial : Invariant initial where
  list := represents_empty _
  once := List.nodup_nil
  closed := ⟨.inl rfl,fun _ _ => .inl rfl⟩
  sent := by simp [initial]
  queued := ⟨List.Pairwise.nil,by simp [initial],by simp [initial]⟩
  begun x := by simp [initial]
  turn := by simp [initial]
  running x := by simp [initial]
  stage x := .fresh rfl rfl rfl rfl rfl rfl (by simp [initial])
  left p := .idle p

/-- A change of a subscription that a party does not mind. -/
structure Tolerates (q : Party) (x : Nat) (d d' : Subscription) : Prop where
  starting : q = .starter x → d.subscribing = .idle ∨ d.subscribing = .asked → d'.subscribing = d.subscribing
  started : d.started = true → d'.started = true
  running : d.subscribing = .running → d'.subscribing = .running
  stopping : q = .stopper x → d.unsubscribing = .asked → d'.unsubscribing = .asked
  owner : d.remover = some q → d'.remover = some q ∧ d'.removed = d.removed ∧ d'.completions = d.completions ∧
    (d.nOps = 1 ∨ d.nOps = 2 → d'.nOps = d.nOps) ∧ (d.subscribing = .idle → d'.subscribing = .idle) ∧
    (d.unsubscribing = .idle ∨ d.unsubscribing = .running → d'.unsubscribing = d.unsubscribing)

theorem Tolerates.refl (q : Party) (x : Nat) (d : Subscription) : Tolerates q x d d :=
  ⟨fun _ _ => rfl,id,id,fun _ => id,fun mine => ⟨mine,rfl,rfl,fun _ => rfl,id,fun _ => rfl⟩⟩

theorem Rest.other (left : Rest s q prog) (tolerates : ∀ x, Tolerates q x (s.subs x) (s'.subs x)) : Rest s' q prog := by
  cases left with
  | starter x real begun idle =>
    have change := tolerates x
    exact .starter x real (change.started begun) ((change.starting rfl (.inl idle)).trans idle)
  | stopper x => exact .stopper x
  | mutex => exact .mutex
  | closing => exact .closing
  | item k => exact .item k

theorem Rest.update (left : Rest s q prog) (subs : s'.subs = Function.update s.subs x d')
    (started : d'.started = (s.subs x).started) (subscribing : d'.subscribing = (s.subs x).subscribing) :
    Rest s' q prog := by
  cases left with
  | starter y real begun idle =>
    refine .starter y real ?_ ?_
    · rw [subs]
      by_cases this : y = x
      · subst this
        rwa [Function.update_self,started]
      · rwa [Function.update_of_ne this]
    · rw [subs]
      by_cases this : y = x
      · subst this
        rwa [Function.update_self,subscribing]
      · rwa [Function.update_of_ne this]
  | stopper x => exact .stopper x
  | mutex => exact .mutex
  | closing => exact .closing
  | item k => exact .item k

theorem Tolerates.out (change : Tolerates q x d d') (mine : d.remover = some q) (out : d.out) : d'.out := by
  obtain ⟨_,removed,_,_,idle,_⟩ := change.owner mine
  exact out.imp removed.trans idle

/-- Changes that a party does not mind leave it what it has left. -/
theorem Left.other (left : Left s q prog) (tolerates : ∀ x, Tolerates q x (s.subs x) (s'.subs x))
    (grow : ∀ x ∈ s.pushed, x ∈ s'.pushed) (kept : q = .mutex → s'.pushed = s.pushed) : Left s' q prog := by
  cases left with
  | idle => exact .idle q
  | emplacing x rest after => exact .emplacing x rest (after.other tolerates)
  | comparing x after => exact .comparing x (after.other tolerates)
  | asking x asked => exact .asking x (((tolerates x).starting rfl (.inr asked)).trans asked)
  | exchanging _ x rest party after => exact .exchanging q x rest party (after.other tolerates)
  | unsubscribing x asked => exact .unsubscribing x ((tolerates x).stopping rfl asked)
  | pushing x running absent => exact .pushing x ((tolerates x).running running) (by rwa [kept rfl])
  | erasing _ x rest mine inside known turn after =>
    obtain ⟨owner,removed,_,ops,_,unsubscribing⟩ := (tolerates x).owner mine
    refine .erasing q x rest owner (removed.trans inside) (grow x known) (by rwa [unsubscribing turn]) ?_
    rcases after with ⟨one,after⟩ | ⟨two,after⟩
    · exact .inl ⟨(ops (.inl one)).trans one,after.other tolerates⟩
    · exact .inr ⟨(ops (.inr two)).trans two,after⟩
  | setting _ x rest mine out nothing after =>
    obtain ⟨owner,removed,completions,ops,_⟩ := (tolerates x).owner mine
    refine .setting q x rest owner (removed.trans out) (completions.trans nothing) ?_
    rcases after with ⟨one,after⟩ | ⟨two,after⟩
    · exact .inl ⟨(ops (.inl one)).trans one,after.other tolerates⟩
    · exact .inr ⟨(ops (.inr two)).trans two,after⟩
  | resetting _ x rest mine out nothing after =>
    obtain ⟨owner,_,completions,_⟩ := (tolerates x).owner mine
    exact .resetting q x rest owner ((tolerates x).out mine out) (completions.trans nothing) (after.other tolerates)
  | completing _ x rest mine out nothing after =>
    obtain ⟨owner,_,completions,_⟩ := (tolerates x).owner mine
    exact .completing q x rest owner ((tolerates x).out mine out) (completions.trans nothing) (after.other tolerates)
  | closing => exact .closing
  | notifying => exact .notifying
  | notifyFrom x known => exact .notifyFrom x (known.imp_right (grow x))
  | notifyNext x known => exact .notifyNext x (grow x known)

theorem tolerates_update (change : Tolerates q x (s.subs x) d') (subs : s'.subs = Function.update s.subs x d')
    (y : Nat) : Tolerates q y (s.subs y) (s'.subs y) := by
  rw [subs]
  by_cases this : y = x
  · subst this
    rwa [Function.update_self]
  · rw [Function.update_of_ne this]
    exact .refl q y _

/-- A step that changes one subscription and not the list. -/
theorem Invariant.modify (inv : Invariant c) (subs : s'.subs = Function.update c.shared.subs x d')
    (links : s'.links = c.shared.links) (observers : s'.observers = c.shared.observers)
    (pushed : s'.pushed = c.shared.pushed) (sent : ∀ y ∈ s'.spawned, y ∈ c.shared.pushed)
    (queued : Queued s'.queue s'.subs) (removed : d'.removed = (c.shared.subs x).removed)
    (begun : d'.subscribing ≠ .idle → x ≠ 0 ∧ d'.started = true)
    (turn : (c.shared.subs x).subscribing = .running → d'.subscribing = .running)
    (running : ∀ y, (s'.subs y).subscribing = .running →
      y ∈ c.shared.pushed ∨ (c.put p s' prog).threads .mutex = [.pushBack y])
    (stage : Stage d' (x ∈ c.shared.pushed)) (tolerates : ∀ q, q ≠ p → Tolerates q x (c.shared.subs x) d')
    (left : Left s' p prog) : Invariant (c.put p s' prog) where
  list := by
    have same : s'.members = c.shared.members := by
      rw [Context.members,Context.members,pushed]
      refine List.filter_congr fun y _ => ?_
      rw [subs]
      by_cases this : y = x
      · subst this
        rw [Function.update_self,removed]
      · rw [Function.update_of_ne this]
    rw [put_shared,links,observers,same]
    exact inv.list
  once := by rw [put_shared,pushed]; exact inv.once
  closed := by rw [put_shared,links,observers,pushed]; exact inv.closed
  sent := by rw [put_shared,pushed]; exact sent
  queued := queued
  begun y := by
    rw [put_shared,subs]
    by_cases this : y = x
    · subst this
      rwa [Function.update_self]
    · rw [Function.update_of_ne this]
      exact inv.begun y
  turn y member := by
    rw [put_shared,pushed] at member
    rw [put_shared,subs]
    by_cases this : y = x
    · subst this
      rw [Function.update_self]
      exact turn (inv.turn y member)
    · rw [Function.update_of_ne this]
      exact inv.turn y member
  running y := by rw [put_shared,pushed]; exact running y
  stage y := by
    rw [put_shared,subs,pushed]
    by_cases this : y = x
    · subst this
      rwa [Function.update_self]
    · rw [Function.update_of_ne this]
      exact inv.stage y
  left q := by
    rw [put_threads]
    split
    · rename_i here
      exact here ▸ left
    · rename_i other
      exact (inv.left q).other (tolerates_update (tolerates q other) subs) (fun y member => by rwa [put_shared,pushed])
        fun _ => pushed

/-- No subscribe action is running but the one that the mutex runs. -/
theorem Invariant.running_put (inv : Invariant c) (subs : s'.subs = Function.update c.shared.subs x d')
    (same : d'.subscribing = .running → (c.shared.subs x).subscribing = .running)
    (still : ∀ y, c.threads .mutex = [.pushBack y] → p ≠ .mutex) (y : Nat)
    (running : (s'.subs y).subscribing = .running) :
    y ∈ c.shared.pushed ∨ (c.put p s' prog).threads .mutex = [.pushBack y] := by
  have before : (c.shared.subs y).subscribing = .running := by
    rw [subs] at running
    by_cases this : y = x
    · subst this
      rw [Function.update_self] at running
      exact same running
    · rwa [Function.update_of_ne this] at running
  refine (inv.running y before).imp_right fun turn => ?_
  rwa [put_threads_ne c (still y turn).symm]

/-- The queue minds only how far the actions have come. -/
theorem Queued.modify {queue : List Action} {subs : Nat → Subscription} (queued : Queued queue subs)
    (subscribing : d'.subscribing = .queued ↔ (subs x).subscribing = .queued)
    (unsubscribing : d'.unsubscribing = .queued ↔ (subs x).unsubscribing = .queued) :
    Queued queue (Function.update subs x d') := by
  refine ⟨queued.order,fun y => ?_,fun y => ?_⟩
  · rw [queued.subscribe y]
    by_cases this : y = x
    · subst this
      rw [Function.update_self,subscribing]
    · rw [Function.update_of_ne this]
  · rw [queued.unsubscribe y]
    by_cases this : y = x
    · subst this
      rw [Function.update_self,unsubscribing]
    · rw [Function.update_of_ne this]

/-- A step that changes one subscription, but neither the list, nor how far the actions
    of the subscription have come, unless one is asked for. -/
theorem Invariant.alter (inv : Invariant c) (subs : s'.subs = Function.update c.shared.subs x d')
    (links : s'.links = c.shared.links) (observers : s'.observers = c.shared.observers)
    (pushed : s'.pushed = c.shared.pushed) (sent : ∀ y ∈ s'.spawned, y ∈ c.shared.pushed)
    (queue : s'.queue = c.shared.queue) (removed : d'.removed = (c.shared.subs x).removed)
    (subscribing : d'.subscribing = (c.shared.subs x).subscribing ∨
      (c.shared.subs x).subscribing = .idle ∧ d'.subscribing = .asked ∧ x ≠ 0 ∧ (c.shared.subs x).started = true)
    (unsubscribing : d'.unsubscribing = (c.shared.subs x).unsubscribing ∨
      (c.shared.subs x).unsubscribing = .idle ∧ d'.unsubscribing = .asked)
    (started : (c.shared.subs x).started = true → d'.started = true)
    (still : ∀ y, c.threads .mutex = [.pushBack y] → p ≠ .mutex)
    (stage : Stage d' (x ∈ c.shared.pushed)) (tolerates : ∀ q, q ≠ p → Tolerates q x (c.shared.subs x) d')
    (left : Left s' p prog) : Invariant (c.put p s' prog) := by
  refine inv.modify subs links observers pushed sent ?_ removed ?_ ?_ ?_ stage tolerates left
  · rw [queue,subs]
    refine inv.queued.modify ?_ ?_
    · rcases subscribing with same | ⟨idle,asked,_⟩
      · rw [same]
      · simp [idle,asked]
    · rcases unsubscribing with same | ⟨idle,asked⟩
      · rw [same]
      · simp [idle,asked]
  · rcases subscribing with same | ⟨_,_,real,begun⟩
    · rw [same]
      exact fun busy => ⟨(inv.begun x busy).1,started (inv.begun x busy).2⟩
    · exact fun _ => ⟨real,started begun⟩
  · rcases subscribing with same | ⟨idle,_⟩
    · exact same.trans
    · simp [idle]
  · refine inv.running_put subs ?_ still
    rcases subscribing with same | ⟨_,asked,_⟩
    · exact same.symm.trans
    · simp [asked]

theorem not_pushing {i : Instr} (left : c.threads p = i :: rest) (other : ∀ y, i ≠ .pushBack y)
    (y : Nat) (turn : c.threads .mutex = [.pushBack y]) : p ≠ .mutex := by
  rintro rfl
  rw [left] at turn
  exact other y (List.cons.inj turn).1

/-! ### The steps -/

theorem Rest.left (after : Rest s p prog) : Left s p prog := by
  cases after with
  | starter x real begun idle => exact .comparing x (.starter x real begun idle)
  | stopper x => exact .idle _
  | mutex => exact .idle _
  | closing => exact .closing
  | item k => exact .idle _

/-- Whoever does not take the observer out minds its actions only. -/
theorem Tolerates.foreign (alone : d.remover ≠ some q) (subscribing : d'.subscribing = d.subscribing)
    (unsubscribing : d'.unsubscribing = d.unsubscribing) (started : d.started = true → d'.started = true) :
    Tolerates q x d d' :=
  ⟨fun _ _ => subscribing,started,subscribing.trans,fun _ => unsubscribing.trans,fun mine => absurd mine alone⟩

/-- The flags that say what the environment did do not matter to the life of a subscription. -/
theorem Stage.flags {pushed : Prop} (stage : Stage d pushed) (registered stopRequested started : Bool) :
    Stage { d with registered := registered, stopRequested := stopRequested, started := started } pushed := by
  cases stage with
  | fresh ops idle quiet nobody inside nothing absent => exact .fresh ops idle quiet nobody inside nothing absent
  | early p ops idle quiet mine inside once absent => exact .early p ops idle quiet mine inside once absent
  | active ops busy quiet nobody inside nothing => exact .active ops busy quiet nobody inside nothing
  | stopping ops busy late asked mine inside nothing => exact .stopping ops busy late asked mine inside nothing
  | picked k ops known quiet mine inside nothing => exact .picked k ops known quiet mine inside nothing
  | gone p ops known turn mine outside once => exact .gone p ops known turn mine outside once

theorem Tolerates.flags (q : Party) (x : Nat) (d : Subscription) (registered stopRequested started : Bool)
    (begun : d.started = true → started = true) :
    Tolerates q x d { d with registered := registered, stopRequested := stopRequested, started := started } :=
  ⟨fun _ _ => rfl,begun,id,fun _ => id,fun mine => ⟨mine,rfl,rfl,fun _ => rfl,id,fun _ => rfl⟩⟩

theorem emplaceCallback_keeps (inv : Invariant c) (left : c.threads p = .emplaceCallback x :: rest)
    (ran : (s,new) ∈ exec p (.emplaceCallback x) c.shared) : Invariant (c.put p s (new ++ rest)) := by
  have at_p := inv.left p
  rw [left] at at_p
  simp only [exec] at ran
  cases at_p with
  | emplacing _ _ after =>
    split at ran
    · cases List.mem_singleton.mp ran
      exact inv.alter (Function.update_eq_self x _).symm rfl rfl rfl inv.sent rfl rfl (.inl rfl) (.inl rfl) id
        (not_pushing left (by simp)) (inv.stage x) (fun q _ => .refl q x _) (.exchanging _ x rest (.inl rfl) after)
    · cases List.mem_singleton.mp ran
      have change := fun q => Tolerates.flags q x (c.shared.subs x) true (c.shared.subs x).stopRequested _ id
      exact inv.alter rfl rfl rfl rfl inv.sent rfl rfl (.inl rfl) (.inl rfl) id (not_pushing left (by simp))
        ((inv.stage x).flags _ _ _) (fun q _ => change q) (after.other (tolerates_update (change _) rfl)).left

/-- The starter subscribes, unless its stop callback was faster. -/
theorem compareExchange_keeps (inv : Invariant c) (left : c.threads p = .compareExchange x :: rest)
    (ran : (s,new) ∈ exec p (.compareExchange x) c.shared) : Invariant (c.put p s (new ++ rest)) := by
  have at_p := inv.left p
  rw [left] at at_p
  simp only [exec] at ran
  cases at_p with
  | comparing _ after =>
    cases after with
    | starter _ real begun idle =>
      split at ran
      · rename_i zero
        cases List.mem_singleton.mp ran
        cases inv.stage x with
        | fresh _ _ quiet nobody inside nothing absent =>
          refine inv.alter rfl rfl rfl rfl inv.sent rfl rfl (.inr ⟨idle,rfl,real,begun⟩) (.inl rfl) id
            (not_pushing left (by simp)) (.active rfl (by simp) quiet nobody inside nothing) (fun q other => ?_)
            (.asking x (by simp))
          refine ⟨?_,id,by simp [idle],fun _ => id,by simp [nobody]⟩
          rintro rfl
          exact absurd rfl other
        | early _ ops => simp [zero] at ops
        | active ops => simp [zero] at ops
        | stopping ops => simp [zero] at ops
        | picked _ ops => simp [zero] at ops
        | gone _ ops => exact absurd zero ops
      · cases List.mem_singleton.mp ran
        exact inv.alter (Function.update_eq_self x _).symm rfl rfl rfl inv.sent rfl rfl (.inl rfl) (.inl rfl) id
          (not_pushing left (by simp)) (inv.stage x) (fun q _ => .refl q x _) (.idle _)

/-- The stop callback decides who completes the receiver. -/
theorem exchangeStop_keeps (inv : Invariant c) (once : RemovedOnce c (.run p))
    (left : c.threads p = .exchangeStop x :: rest) (ran : (s,new) ∈ exec p (.exchangeStop x) c.shared) :
    Invariant (c.put p s (new ++ rest)) := by
  have at_p := inv.left p
  rw [left] at at_p
  simp only [exec,exchangeStop] at ran
  have stage := inv.stage x
  cases at_p with
  | exchanging _ _ _ party after =>
    split at ran
    · rename_i one
      cases List.mem_singleton.mp ran
      have nobody := once.1 x rest left one
      cases stage with
      | fresh ops => simp [one] at ops
      | early _ ops => simp [one] at ops
      | active _ busy quiet _ inside nothing =>
        rcases party with rfl | rfl
        · cases after with
          | starter _ _ _ idle => exact absurd idle busy
        · cases after with
          | stopper =>
            refine inv.alter rfl rfl rfl rfl inv.sent rfl rfl (.inl rfl) (.inr ⟨quiet,rfl⟩) id
              (not_pushing left (by simp)) (.stopping rfl busy (fun _ => rfl) (by simp) rfl inside nothing)
              (fun q other => ?_) (.unsubscribing x (by simp))
            exact ⟨fun _ _ => rfl,id,id,fun _ _ => rfl,by simp [nobody]⟩
      | stopping ops => simp [one] at ops
      | picked _ _ _ _ mine => simp [nobody] at mine
      | gone _ _ _ _ mine => simp [nobody] at mine
    · rename_i several
      split at ran
      · rename_i zero
        cases List.mem_singleton.mp ran
        cases stage with
        | fresh _ idle quiet nobody inside nothing absent =>
          have change : ∀ q, Tolerates q x (c.shared.subs x) { c.shared.subs x with nOps := 2, remover := some p } :=
            fun q => .foreign (by simp [nobody]) rfl rfl id
          refine inv.alter rfl rfl rfl rfl inv.sent rfl rfl (.inl rfl) (.inl rfl) id (not_pushing left (by simp))
            (.early p rfl idle quiet rfl inside (by simp [nothing]) absent) (fun q _ => change q) ?_
          exact .resetting p x rest (by simp) (.inr (by simpa using idle))
            (by simpa using nothing) (after.other (tolerates_update (change p) rfl))
        | early _ ops => simp [zero] at ops
        | active ops => simp [zero] at ops
        | stopping ops => simp [zero] at ops
        | picked _ ops => simp [zero] at ops
        | gone _ ops => exact absurd zero ops
      · rename_i some
        cases List.mem_singleton.mp ran
        have change : ∀ q, Tolerates q x (c.shared.subs x) { c.shared.subs x with nOps := 2 } := fun q =>
          ⟨fun _ _ => rfl,id,id,fun _ => id,fun mine =>
            ⟨mine,rfl,rfl,fun ops => (ops.resolve_left several).symm,id,fun _ => rfl⟩⟩
        refine inv.alter rfl rfl rfl rfl inv.sent rfl rfl (.inl rfl) (.inl rfl) id (not_pushing left (by simp)) ?_
          (fun q _ => change q) (after.other (tolerates_update (change p) rfl)).left
        cases stage with
        | fresh ops => exact absurd ops some
        | early p _ idle quiet mine inside once absent => exact .early p rfl idle quiet mine inside once absent
        | active ops => exact absurd ops several
        | stopping _ busy late asked mine inside nothing => exact .stopping rfl busy late asked mine inside nothing
        | picked _ ops => exact absurd ops several
        | gone p _ known turn mine outside once => exact .gone p (by simp) known turn mine outside once

theorem setValue_keeps (inv : Invariant c) (left : c.threads p = .setValue x :: rest)
    (ran : (s,new) ∈ exec p (.setValue x) c.shared) : Invariant (c.put p s (new ++ rest)) := by
  have at_p := inv.left p
  rw [left] at at_p
  cases List.mem_singleton.mp ran
  cases at_p with
  | setting _ _ _ mine outside nothing after =>
    have change : ∀ q, q ≠ p → Tolerates q x (c.shared.subs x) { c.shared.subs x with nOps := 3 } := fun q other =>
      .foreign (by simp [mine,Ne.symm other]) rfl rfl id
    have stage : Stage { c.shared.subs x with nOps := 3 } (x ∈ c.shared.pushed) := by
      cases inv.stage x with
      | fresh _ _ _ nobody => simp [nobody] at mine
      | early _ _ _ _ _ inside => simp [inside] at outside
      | active _ _ _ nobody => simp [nobody] at mine
      | stopping _ _ _ _ _ inside => simp [inside] at outside
      | picked _ _ _ _ _ inside => simp [inside] at outside
      | gone p _ known turn mine outside once => exact .gone p (by simp) known turn mine outside once
    refine inv.alter rfl rfl rfl rfl inv.sent rfl rfl (.inl rfl) (.inl rfl) id (not_pushing left (by simp)) stage change ?_
    rcases after with ⟨one,after⟩ | ⟨two,rfl,rfl⟩
    · simp only [one,if_true]
      exact .resetting p x rest (by simpa using mine) (.inl (by simpa using outside))
        (by simpa using nothing) (after.update rfl rfl rfl)
    · simp only [two,if_neg (show (2 : Nat) ≠ 1 by decide),List.nil_append]
      exact .resetting .mutex x [] (by simpa using mine)
        (.inl (by simpa using outside)) (by simpa using nothing) .mutex

theorem resetCallback_keeps (inv : Invariant c) (left : c.threads p = .resetCallback x :: rest)
    (ran : (s,new) ∈ exec p (.resetCallback x) c.shared) : Invariant (c.put p s (new ++ rest)) := by
  have at_p := inv.left p
  rw [left] at at_p
  cases List.mem_singleton.mp ran
  cases at_p with
  | resetting _ _ rest mine out nothing after =>
    refine inv.alter rfl rfl rfl rfl inv.sent rfl rfl (.inl rfl) (.inl rfl) id (not_pushing left (by simp))
      ((inv.stage x).flags _ _ _) (fun q _ => .flags q x _ _ _ _ id) ?_
    exact .completing p x rest (by simpa using mine)
      (by simpa [Subscription.out] using out) (by simpa using nothing)
      (after.update rfl rfl rfl)

/-- Whoever takes an observer out completes its receiver, for the first time. -/
theorem complete_keeps (inv : Invariant c) (left : c.threads p = .complete x :: rest)
    (ran : (s,new) ∈ exec p (.complete x) c.shared) : Invariant (c.put p s (new ++ rest)) := by
  have at_p := inv.left p
  rw [left] at at_p
  cases List.mem_singleton.mp ran
  cases at_p with
  | completing _ _ _ mine out nothing after =>
    have next : Rest (c.shared.modify x { c.shared.subs x with completions := (c.shared.subs x).completions + 1 }) p rest :=
      after.update rfl rfl rfl
    refine inv.alter rfl rfl rfl rfl inv.sent rfl rfl (.inl rfl) (.inl rfl) id (not_pushing left (by simp)) ?_
      (fun q other => .foreign (by simp [mine,Ne.symm other]) rfl rfl id) next.left
    cases inv.stage x with
    | fresh _ _ _ nobody => simp [nobody] at mine
    | early p ops idle quiet mine inside _ absent => exact .early p ops idle quiet mine inside (by simp [nothing]) absent
    | active _ _ _ nobody => simp [nobody] at mine
    | stopping _ busy _ _ _ inside =>
      rcases out with outside | idle
      · simp [inside] at outside
      · simp [idle] at busy
    | picked _ _ known _ _ inside =>
      rcases out with outside | idle
      · simp [inside] at outside
      · simp [idle] at known ⊢
        simp [inv.turn x known] at idle
    | gone p ops known turn mine outside _ => exact .gone p ops known turn mine outside (by simp [nothing])

/-! ### The list -/

/-- An observer that is taken out leaves the others in their order. -/
theorem members_erase (once : s.pushed.Nodup) (pushed : s'.pushed = s.pushed)
    (subs : s'.subs = Function.update s.subs x d') (gone : d'.removed = true) : s'.members = s.members.erase x := by
  rw [Context.members,Context.members,(once.filter _).erase_eq_filter,pushed,subs,List.filter_filter]
  refine List.filter_congr fun y _ => ?_
  by_cases this : y = x
  · simp [this,gone]
  · simp [this]

/-- A step that takes an observer out of the list. -/
theorem Invariant.remove (inv : Invariant c) (subs : s'.subs = Function.update c.shared.subs x d')
    (list : Represents s'.links s'.observers (c.shared.members.erase x))
    (closed : Closed s'.links s'.observers (· ∈ c.shared.pushed)) (pushed : s'.pushed = c.shared.pushed)
    (spawned : s'.spawned = c.shared.spawned) (queue : s'.queue = c.shared.queue) (removed : d'.removed = true)
    (subscribing : d'.subscribing = (c.shared.subs x).subscribing)
    (unsubscribing : d'.unsubscribing = (c.shared.subs x).unsubscribing)
    (started : d'.started = (c.shared.subs x).started) (still : ∀ y, c.threads .mutex = [.pushBack y] → p ≠ .mutex)
    (stage : Stage d' (x ∈ c.shared.pushed)) (tolerates : ∀ q, q ≠ p → Tolerates q x (c.shared.subs x) d')
    (left : Left s' p prog) : Invariant (c.put p s' prog) := by
  have kept : ∀ y, (s'.subs y).subscribing = (c.shared.subs y).subscribing ∧
      (s'.subs y).started = (c.shared.subs y).started := by
    intro y
    rw [subs]
    by_cases this : y = x
    · subst this
      simp [subscribing,started]
    · simp [Function.update_of_ne this]
  refine ⟨?_,?_,?_,?_,?_,fun y => ?_,fun y => ?_,fun y => ?_,fun y => ?_,fun q => ?_⟩
  · rw [put_shared,members_erase inv.once pushed subs removed]
    exact list
  · rw [put_shared,pushed]
    exact inv.once
  · rw [put_shared,pushed]
    exact closed
  · rw [put_shared,pushed,spawned]
    exact inv.sent
  · rw [put_shared,queue,subs]
    exact inv.queued.modify (by rw [subscribing]) (by rw [unsubscribing])
  · rw [put_shared,(kept y).1,(kept y).2]
    exact inv.begun y
  · rw [put_shared,pushed,(kept y).1]
    exact inv.turn y
  · rw [put_shared,pushed]
    exact inv.running_put subs (subscribing.symm.trans) still y
  · rw [put_shared,subs,pushed]
    by_cases this : y = x
    · subst this
      rwa [Function.update_self]
    · rw [Function.update_of_ne this]
      exact inv.stage y
  · rw [put_threads]
    split
    · rename_i here
      exact here ▸ left
    · rename_i other
      exact (inv.left q).other (tolerates_update (tolerates q other) subs)
        (fun y member => by rwa [put_shared,pushed]) fun _ => pushed

/-- An observer that is taken out was in the list. -/
theorem erase_keeps (inv : Invariant c) (left : c.threads p = .erase x :: rest)
    (ran : (s,new) ∈ exec p (.erase x) c.shared) : Invariant (c.put p s (new ++ rest)) := by
  have at_p := inv.left p
  rw [left] at at_p
  cases List.mem_singleton.mp ran
  cases at_p with
  | erasing _ _ rest mine inside known turn after =>
    have member : x ∈ c.shared.members := mem_members.mpr ⟨known,inside⟩
    have nothing : (c.shared.subs x).completions = 0 := by
      cases inv.stage x with
      | fresh _ _ _ nobody => simp [nobody] at mine
      | early _ _ _ _ _ _ _ absent => exact absurd known absent
      | active _ _ _ nobody => simp [nobody] at mine
      | stopping _ _ _ _ _ _ nothing => exact nothing
      | picked _ _ _ _ _ _ nothing => exact nothing
      | gone _ _ _ _ _ outside => simp [inside] at outside
    have ops : (c.shared.subs x).nOps ≠ 0 := by
      rcases after with ⟨one,_⟩ | ⟨two,_⟩
      · simp [one]
      · simp [two]
    refine inv.remove (show _ = Function.update c.shared.subs x { c.shared.subs x with removed := true } from rfl)
      (erase_represents_of_mem inv.list member) (erase_closed inv.closed known) rfl rfl rfl rfl rfl rfl rfl
      (not_pushing left (by simp))
      (.gone p ops known turn mine rfl (by simp [nothing]))
      (fun q other => .foreign (by simp [mine,Ne.symm other]) rfl rfl id) ?_
    refine .setting p x rest (by simpa using mine) (by simp)
      (by simpa using nothing) ?_
    rcases after with ⟨one,after⟩ | ⟨two,after⟩
    · exact .inl ⟨by simpa using one,after.update rfl rfl rfl⟩
    · exact .inr ⟨by simpa using two,after⟩

/-- An observer that is in the list, and that nobody takes out. -/
theorem Stage.of_known {pushed : Prop} (stage : Stage d pushed) (known : pushed) (nobody : d.remover = none) :
    d.nOps = 1 ∧ d.unsubscribing = .idle ∧ d.completions = 0 := by
  cases stage with
  | fresh _ _ _ _ _ _ absent => exact absurd known absent
  | early _ _ _ _ mine => simp [nobody] at mine
  | active ops _ quiet _ _ nothing => exact ⟨ops,quiet,nothing⟩
  | stopping _ _ _ _ mine => simp [nobody] at mine
  | picked _ _ _ _ mine => simp [nobody] at mine
  | gone _ _ _ _ mine => simp [nobody] at mine

/-- `close` takes out the first observer, which nobody else takes out. -/
theorem closeFront_keeps (inv : Invariant c) (once : RemovedOnce c (.run p)) (left : c.threads p = .closeFront :: rest)
    (ran : (s,new) ∈ exec p .closeFront c.shared) : Invariant (c.put p s (new ++ rest)) := by
  have at_p := inv.left p
  rw [left] at at_p
  simp only [exec,closeFront] at ran
  cases at_p with
  | closing =>
    split at ran
    · cases List.mem_singleton.mp ran
      exact inv.alter (Function.update_eq_self 0 _).symm rfl rfl rfl inv.sent rfl rfl (.inl rfl) (.inl rfl) id
        (not_pushing left (by simp)) (inv.stage 0) (fun q _ => .refl q 0 _) (.idle _)
    · rename_i real
      cases List.mem_singleton.mp ran
      have nobody := once.2.1 [] left real
      obtain ⟨l,members,_⟩ := inv.list.forward.pop real
      have represents := inv.list
      rw [members] at represents
      generalize at_head : c.shared.observers.head = x at *
      obtain ⟨known,_⟩ := mem_members.mp (show x ∈ c.shared.members by simp [members])
      obtain ⟨ops,quiet,nothing⟩ := (inv.stage x).of_known known nobody
      refine inv.remove rfl ?_ (popFront_closed inv.closed (by rwa [at_head])) rfl rfl rfl rfl rfl rfl rfl
        (not_pushing left (by simp)) ?_ (fun q _ => .foreign (by simp [nobody]) rfl rfl id) ?_
      · rw [members,List.erase_cons_head]
        exact (popFront_represents represents).2
      · exact .gone .mutex (by simp [ops]) known (.inl quiet) rfl rfl (by simp [nothing])
      · exact .setting .mutex x [.closeFront] (by simp) (by simp)
          (by simpa using nothing) (.inl ⟨by simpa using ops,.closing⟩)

/-- The subscribe action puts the observer at the end of the list. -/
theorem pushBack_keeps (inv : Invariant c) (left : c.threads p = .pushBack x :: rest)
    (ran : (s,new) ∈ exec p (.pushBack x) c.shared) : Invariant (c.put p s (new ++ rest)) := by
  have at_p := inv.left p
  rw [left] at at_p
  cases List.mem_singleton.mp ran
  cases at_p with
  | pushing _ turn absent =>
    have stage : Stage (c.shared.subs x) True ∧ (c.shared.subs x).removed = false := by
      cases inv.stage x with
      | fresh _ idle => simp [turn] at idle
      | early _ _ idle => simp [turn] at idle
      | active ops busy quiet nobody inside nothing => exact ⟨.active ops busy quiet nobody inside nothing,inside⟩
      | stopping ops busy late asked mine inside nothing =>
        exact ⟨.stopping ops busy late asked mine inside nothing,inside⟩
      | picked _ _ known => exact absurd known absent
      | gone _ _ known => exact absurd known absent
    have members : (pushObserver c.shared x).members = c.shared.members ++ [x] := by
      show (c.shared.pushed ++ [x]).filter _ = _
      rw [List.filter_append]
      congr 1
      exact List.filter_cons_of_pos (by simp [pushObserver,stage.2])
    have grow : ∀ y ∈ c.shared.pushed, y ∈ (pushObserver c.shared x).pushed := fun y known =>
      List.mem_append_left _ known
    refine ⟨?_,?_,?_,fun y sent => grow y (inv.sent y sent),inv.queued,inv.begun,fun y known => ?_,fun y running => ?_,
      fun y => ?_,fun q => ?_⟩
    · rw [put_shared,members]
      exact pushBack_represents inv.list (inv.begun x (by simp [turn])).1 fun member => absent (mem_members.mp member).1
    · exact inv.once.append (List.nodup_singleton x) (by simpa using absent)
    · exact pushBack_closed inv.closed grow (List.mem_append_right _ List.mem_cons_self)
        fun y known => (List.mem_append.mp known).symm.imp_left List.mem_singleton.mp
    · rcases List.mem_append.mp known with known | here
      · exact inv.turn y known
      · rw [List.mem_singleton.mp here]
        exact turn
    · rcases inv.running y running with known | this
      · exact .inl (grow y known)
      · rw [left] at this
        cases this
        exact .inl (List.mem_append_right _ List.mem_cons_self)
    · by_cases this : y = x
      · subst this
        have known : (y ∈ (pushObserver c.shared y).pushed) = True :=
          eq_true (List.mem_append_right _ List.mem_cons_self)
        rw [put_shared,known]
        exact stage.1
      · have same : (y ∈ (pushObserver c.shared x).pushed) = (y ∈ c.shared.pushed) := by simp [pushObserver,this]
        rw [put_shared,same]
        exact inv.stage y
    · rw [put_threads]
      split
      · exact .idle q
      · rename_i other
        exact (inv.left q).other (fun y => .refl q y _) grow fun here => absurd here other

/-- `notify_all` sends an item to observers that were put into the list only. -/
theorem notify_keeps (inv : Invariant c) {i : Instr} (left : c.threads p = i :: rest)
    (notifies : i = .notifyAll ∨ i = .notifyFrom x ∨ i = .notifyNext x) (ran : (s,new) ∈ exec p i c.shared) :
    Invariant (c.put p s (new ++ rest)) := by
  have quiet : ∀ (s' : Context) (prog : List Instr), s'.subs = c.shared.subs → s'.links = c.shared.links →
      s'.observers = c.shared.observers → s'.pushed = c.shared.pushed → (∀ y ∈ s'.spawned, y ∈ c.shared.pushed) →
      s'.queue = c.shared.queue → Left s' p prog → Invariant (c.put p s' prog) := by
    intro s' prog subs links observers pushed sent queue after
    refine inv.alter (x := 0) (by simpa using subs) links observers pushed sent queue rfl (.inl rfl) (.inl rfl) id
      (not_pushing left ?_) (inv.stage 0) (fun q _ => .refl q 0 _) after
    rcases notifies with rfl | rfl | rfl <;> simp
  have at_p := inv.left p
  rw [left] at at_p
  rcases notifies with rfl | rfl | rfl
  · cases at_p with
    | notifying =>
      cases List.mem_singleton.mp ran
      exact quiet _ _ rfl rfl rfl rfl inv.sent rfl (.notifyFrom _ inv.closed.head)
  · cases at_p with
    | notifyFrom _ known =>
      simp only [exec] at ran
      split at ran
      · cases List.mem_singleton.mp ran
        exact quiet _ _ rfl rfl rfl rfl inv.sent rfl (.idle _)
      · rename_i real
        cases List.mem_singleton.mp ran
        have known := known.resolve_left real
        refine quiet _ _ rfl rfl rfl rfl (fun y sent => ?_) rfl (.notifyNext x known)
        rcases List.mem_append.mp sent with sent | here
        · exact inv.sent y sent
        · rwa [List.mem_singleton.mp here]
  · cases at_p with
    | notifyNext _ known =>
      cases List.mem_singleton.mp ran
      exact quiet _ _ rfl rfl rfl rfl inv.sent rfl (.notifyFrom _ (inv.closed.next x known))

/-! ### The queue of the mutex -/

theorem Queued.append {queue : List Action} {subs subs' : Nat → Subscription} {a : Action} (queued : Queued queue subs)
    (order : ∀ b ∈ queue, Before b a)
    (subscribe : ∀ x, (subs' x).subscribing = .queued ↔ (subs x).subscribing = .queued ∨ a = .subscribe x)
    (unsubscribe : ∀ x, (subs' x).unsubscribing = .queued ↔ (subs x).unsubscribing = .queued ∨ a = .unsubscribe x) :
    Queued (queue ++ [a]) subs' where
  order := List.pairwise_append.mpr ⟨queued.order,List.pairwise_singleton _ _,fun b member a' here => by
    rw [List.mem_singleton.mp here]
    exact order b member⟩
  subscribe x := by rw [List.mem_append,queued.subscribe,subscribe,List.mem_singleton,eq_comm (a := a)]
  unsubscribe x := by rw [List.mem_append,queued.unsubscribe,unsubscribe,List.mem_singleton,eq_comm (a := a)]

/-- The subscribe action is enqueued once, and before the unsubscribe action. -/
theorem Queued.subscribes {queue : List Action} {subs : Nat → Subscription} (queued : Queued queue subs)
    (asked : (subs x).subscribing ≠ .queued) (quiet : (subs x).unsubscribing ≠ .queued) :
    Queued (queue ++ [.subscribe x]) (Function.update subs x { subs x with subscribing := .queued }) := by
  refine queued.append (fun b member y => ⟨?_,?_⟩) (fun y => ?_) fun y => ?_
  · rintro rfl same
    cases same
    exact asked ((queued.subscribe x).mp member)
  · rintro rfl
    refine ⟨fun same => ?_,by simp⟩
    cases same
    exact quiet ((queued.unsubscribe x).mp member)
  · by_cases this : y = x
    · subst this
      simp
    · simp [this,Ne.symm this]
  · by_cases this : y = x
    · subst this
      simp
    · simp [this]

theorem Queued.unsubscribes {queue : List Action} {subs : Nat → Subscription} (queued : Queued queue subs)
    (asked : (subs x).unsubscribing ≠ .queued) :
    Queued (queue ++ [.unsubscribe x]) (Function.update subs x { subs x with unsubscribing := .queued }) := by
  refine queued.append (fun b member y => ⟨by simp,?_⟩) (fun y => ?_) fun y => ?_
  · rintro rfl
    refine ⟨by simp,fun same => ?_⟩
    cases same
    exact asked ((queued.unsubscribe x).mp member)
  · by_cases this : y = x
    · subst this
      simp
    · simp [this]
  · by_cases this : y = x
    · subst this
      simp
    · simp [this,Ne.symm this]

/-- A subscribe action comes before the unsubscribe action of its observer. -/
theorem enqueue_keeps (inv : Invariant c) (once : RemovedOnce c (.run p)) {a : Action}
    (left : c.threads p = .enqueue a :: rest) (ran : (s,new) ∈ exec p (.enqueue a) c.shared) : Invariant (c.put p s (new ++ rest)) := by
  have at_p := inv.left p
  rw [left] at at_p
  cases List.mem_singleton.mp ran
  cases at_p with
  | asking x asked =>
    cases inv.stage x with
    | fresh _ idle => simp [asked] at idle
    | early _ _ idle => simp [asked] at idle
    | active ops busy quiet nobody inside nothing =>
      refine inv.modify rfl rfl rfl rfl inv.sent (inv.queued.subscribes (by simp [asked]) (by simp [quiet])) rfl
        (fun _ => inv.begun x busy) (by simp [asked]) (inv.running_put rfl (by simp [Subscription.at])
          (not_pushing left (by simp))) (.active ops (by simp [Subscription.at]) quiet nobody inside nothing)
        (fun q other => ⟨?_,id,by simp [asked],fun _ => id,by simp [nobody]⟩) (.idle _)
      rintro rfl
      exact absurd rfl other
    -- the stop callback has acted in between, and its action is not enqueued yet
    | stopping ops busy late unasked mine inside nothing =>
      have behind := late asked
      refine inv.modify rfl rfl rfl rfl inv.sent (inv.queued.subscribes (by simp [asked]) (by simp [behind])) rfl
        (fun _ => inv.begun x busy) (by simp [asked]) (inv.running_put rfl (by simp [Subscription.at])
          (not_pushing left (by simp)))
        (.stopping ops (by simp [Subscription.at]) (by simp [Subscription.at]) unasked mine inside nothing)
        (fun q other => ⟨?_,id,by simp [asked],fun _ => id,fun owner => ?_⟩) (.idle _)
      · rintro rfl
        exact absurd rfl other
      · exact ⟨owner,rfl,rfl,fun _ => rfl,by simp [asked],fun _ => rfl⟩
    | picked _ _ known => simp [inv.turn x known] at asked
    | gone _ _ known => simp [inv.turn x known] at asked
  | unsubscribing x asked =>
    cases inv.stage x with
    | fresh _ _ idle => simp [asked] at idle
    | early _ _ _ idle => simp [asked] at idle
    | active _ _ idle => simp [asked] at idle
    | stopping ops busy _ _ mine inside nothing =>
      have enqueued := once.2.2 x _ left
      refine inv.modify rfl rfl rfl rfl inv.sent (inv.queued.unsubscribes (by simp [asked])) rfl (inv.begun x) id
        (inv.running_put rfl id (not_pushing left (by simp)))
        (.stopping ops busy (fun still => absurd still enqueued) (by simp [Subscription.at]) mine inside nothing)
        (fun q other => ⟨fun _ _ => rfl,id,id,?_,fun mine => ⟨mine,rfl,rfl,fun _ => rfl,id,by simp [asked]⟩⟩) (.idle _)
      rintro rfl
      exact absurd rfl other
    | picked _ _ _ idle => simp [asked] at idle
    | gone _ _ _ idle => simp [asked] at idle

/-- The first action leaves the queue. -/
theorem Queued.pop {queue : List Action} {subs subs' : Nat → Subscription} {a : Action} (queued : Queued (a :: queue) subs)
    (subscribe : ∀ x, (subs' x).subscribing = .queued ↔ (subs x).subscribing = .queued ∧ a ≠ .subscribe x)
    (unsubscribe : ∀ x, (subs' x).unsubscribing = .queued ↔ (subs x).unsubscribing = .queued ∧ a ≠ .unsubscribe x) :
    Queued queue subs' where
  order := (List.pairwise_cons.mp queued.order).2
  subscribe x := by
    rw [subscribe,← queued.subscribe,List.mem_cons]
    constructor
    · refine fun member => ⟨.inr member,fun same => ?_⟩
      exact ((List.pairwise_cons.mp queued.order).1 _ member x).1 same rfl
    · exact fun ⟨member,other⟩ => member.resolve_left fun same => other same.symm
  unsubscribe x := by
    rw [unsubscribe,← queued.unsubscribe,List.mem_cons]
    constructor
    · refine fun member => ⟨.inr member,fun same => ?_⟩
      exact (((List.pairwise_cons.mp queued.order).1 _ member x).2 same).2 rfl
    · exact fun ⟨member,other⟩ => member.resolve_left fun same => other same.symm

/-- When an unsubscribe action runs, the observer was put into the list. -/
theorem Invariant.known_of_first (inv : Invariant c) (idle : c.threads .mutex = []) {queue : List Action}
    (first : c.shared.queue = .unsubscribe x :: queue)
    (busy : (c.shared.subs x).subscribing ≠ .idle) (enqueued : (c.shared.subs x).subscribing ≠ .asked) :
    x ∈ c.shared.pushed := by
  have queued := inv.queued
  rw [first] at queued
  cases turn : (c.shared.subs x).subscribing with
  | idle => exact absurd turn busy
  | asked => exact absurd turn enqueued
  | queued =>
    rcases List.mem_cons.mp ((queued.subscribe x).mpr turn) with same | later
    · cases same
    · exact absurd rfl (((List.pairwise_cons.mp queued.order).1 _ later x).2 rfl).1
  | running =>
    refine (inv.running x turn).resolve_right fun pushing => ?_
    rw [idle] at pushing
    cases pushing

theorem drain_keeps (inv : Invariant c) (idle : c.threads .mutex = []) (accepted : accept .drain c.shared = some (s,new)) :
    Invariant (c.put .mutex s new) := by
  simp only [accept] at accepted
  have still : ∀ y, c.threads .mutex = [.pushBack y] → Party.mutex ≠ .mutex := by simp [idle]
  split at accepted
  · cases accepted
  · rename_i a queue first
    cases accepted
    have queued := inv.queued
    rw [first] at queued
    have untracked : a.subject = none → Left c.shared .mutex a.body →
        Invariant (c.put .mutex { c.shared with queue := queue } a.body) := by
      intro free after
      refine inv.modify (x := 0) (Function.update_eq_self 0 _).symm rfl rfl rfl inv.sent
        (queued.pop (fun y => ?_) fun y => ?_) rfl (inv.begun 0) id
        (inv.running_put (x := 0) (Function.update_eq_self 0 _).symm id still) (inv.stage 0) (fun q _ => .refl q 0 _)
        (after.other (fun y => .refl .mutex y _) (fun _ => id) fun _ => rfl)
      · exact ⟨fun same => ⟨same,by rintro rfl; cases free⟩,And.left⟩
      · exact ⟨fun same => ⟨same,by rintro rfl; cases free⟩,And.left⟩
    cases a with
    | subscribe x =>
      have waits := (queued.subscribe x).mp List.mem_cons_self
      have absent : x ∉ c.shared.pushed := fun known => by simp [inv.turn x known] at waits
      refine inv.modify rfl rfl rfl rfl inv.sent (queued.pop (fun y => ?_) fun y => ?_) rfl
        (fun _ => inv.begun x (by simp [waits])) (by simp [waits]) (fun y running => ?_) ?_ (fun q other => ?_)
        (.pushing x (by simp) absent)
      · by_cases this : y = x
        · subst this
          simp
        · simp [this,Ne.symm this]
      · by_cases this : y = x
        · subst this
          simp
        · simp [this]
      · by_cases this : y = x
        · subst this
          exact .inr (put_threads_self ..)
        · refine (inv.running y ?_).imp_right fun busy => by simp [idle] at busy
          simpa [this] using running
      · cases inv.stage x with
        | fresh _ idle => simp [waits] at idle
        | early _ _ idle => simp [waits] at idle
        | active ops _ quiet nobody inside nothing =>
          exact .active ops (by simp [Subscription.at]) quiet nobody inside nothing
        | stopping ops _ _ asked mine inside nothing =>
          exact .stopping ops (by simp [Subscription.at]) (by simp [Subscription.at]) asked mine inside nothing
        | picked _ _ known => exact absurd known absent
        | gone _ _ known => exact absurd known absent
      · refine ⟨fun _ => by simp [waits],id,by simp [waits],fun _ => id,fun mine => ?_⟩
        cases inv.stage x with
        | fresh _ idle => simp [waits] at idle
        | early _ _ idle => simp [waits] at idle
        | active _ _ _ nobody => simp [nobody] at mine
        | stopping _ _ _ _ owner => exact absurd (Option.some.inj (owner.symm.trans mine)).symm other
        | picked _ _ known => exact absurd known absent
        | gone _ _ known => exact absurd known absent
    | unsubscribe x =>
      have waits := (queued.unsubscribe x).mp List.mem_cons_self
      cases inv.stage x with
      | fresh _ _ idle => simp [waits] at idle
      | early _ _ _ idle => simp [waits] at idle
      | active _ _ idle => simp [waits] at idle
      | stopping ops busy late _ mine inside nothing =>
        have enqueued : (c.shared.subs x).subscribing ≠ .asked := fun asked => by simp [late asked] at waits
        have known := inv.known_of_first idle first busy enqueued
        refine inv.modify rfl rfl rfl rfl inv.sent (queued.pop (fun y => ?_) fun y => ?_) rfl (inv.begun x) id
          (inv.running_put rfl id still)
          (.stopping ops busy (fun asked => absurd asked enqueued) (by simp [Subscription.at]) mine inside nothing)
          (fun q other => ⟨fun _ _ => rfl,id,id,fun _ => by simp [waits],?_⟩) ?_
        · by_cases this : y = x
          · subst this
            simp
          · simp [this]
        · by_cases this : y = x
          · subst this
            simp
          · simp [this,Ne.symm this]
        · exact fun owner => absurd (Option.some.inj (mine.symm.trans owner)).symm other
        · refine .erasing .mutex x _ ?_ ?_ known (.inr ?_) (.inr ⟨?_,rfl,rfl⟩)
          · simpa using mine
          · simpa using inside
          · simp
          · simpa using ops
      | picked _ _ _ idle => simp [waits] at idle
      | gone _ _ _ idle => simp [waits] at idle
    | close => exact untracked rfl .closing
    | notifyAll => exact untracked rfl .notifying

/-- `close` and `notify_all` wait for the mutex. -/
theorem request_keeps (inv : Invariant c) (a : Action) (free : a.subject = none) :
    Invariant (c.put .caller { c.shared with queue := c.shared.queue ++ [a] } []) := by
  refine inv.modify (x := 0) (Function.update_eq_self 0 _).symm rfl rfl rfl inv.sent
    (inv.queued.append (fun b _ x => ?_) (fun y => ?_) fun y => ?_) rfl (inv.begun 0) id
    (inv.running_put (x := 0) (Function.update_eq_self 0 _).symm id (by simp)) (inv.stage 0)
    (fun q _ => .refl q 0 _) (.idle _)
  · refine ⟨fun _ => ?_,fun _ => ⟨?_,?_⟩⟩ <;> rintro rfl <;> cases free
  · refine ⟨.inl,fun waits => waits.resolve_right ?_⟩
    rintro rfl
    cases free
  · refine ⟨.inl,fun waits => waits.resolve_right ?_⟩
    rintro rfl
    cases free

theorem start_keeps (inv : Invariant c) (accepted : accept (.start x) c.shared = some (s,new)) :
    Invariant (c.put (.starter x) s new) := by
  simp only [accept] at accepted
  split at accepted
  · rename_i fresh
    cases accepted
    have idle : (c.shared.subs x).subscribing = .idle := by
      by_contra busy
      simpa [fresh.2] using (inv.begun x busy).2
    refine inv.alter rfl rfl rfl rfl inv.sent rfl rfl (.inl rfl) (.inl rfl) (fun _ => rfl) (by simp)
      ((inv.stage x).flags _ _ _) (fun q _ => .flags q x _ _ _ _ fun _ => rfl) ?_
    exact .emplacing x _ (.starter x fresh.1 (by simp) (by simpa using idle))
  · cases accepted

theorem requestStop_keeps (inv : Invariant c) (accepted : accept (.requestStop x) c.shared = some (s,new)) :
    Invariant (c.put (.stopper x) s new) := by
  simp only [accept] at accepted
  split at accepted
  · cases accepted
  · cases accepted
    refine inv.alter rfl rfl rfl rfl inv.sent rfl rfl (.inl rfl) (.inl rfl) id (by simp)
      ((inv.stage x).flags _ _ _) (fun q _ => .flags q x _ _ _ _ id) ?_
    split
    · exact .exchanging _ x [] (.inr rfl) (.stopper x)
    · exact .idle _

/-- An item that stops takes out its observer, which nobody else takes out. -/
theorem itemStops_keeps (inv : Invariant c) {k : Nat} (once : RemovedOnce c (.call (.itemStops k)))
    (accepted : accept (.itemStops k) c.shared = some (s,new)) : Invariant (c.put (.item k) s new) := by
  simp only [accept] at accepted
  split at accepted
  · cases accepted
  · rename_i x sent
    split at accepted
    · cases accepted
    · cases accepted
      have nobody := once x sent
      have known := inv.sent x (List.mem_of_getElem? sent)
      obtain ⟨ops,quiet,nothing⟩ := (inv.stage x).of_known known nobody
      have inside : (c.shared.subs x).removed = false := by
        cases inv.stage x with
        | fresh _ _ _ _ inside => exact inside
        | early _ _ _ _ mine => simp [nobody] at mine
        | active _ _ _ _ inside => exact inside
        | stopping _ _ _ _ mine => simp [nobody] at mine
        | picked _ _ _ _ mine => simp [nobody] at mine
        | gone _ _ _ _ mine => simp [nobody] at mine
      refine inv.alter rfl rfl rfl rfl inv.sent rfl rfl (.inl rfl) (.inl rfl) id (by simp)
        (.picked k ops known quiet rfl inside nothing) (fun q _ => .foreign (by simp [nobody]) rfl rfl id) ?_
      exact .erasing (.item k) x [] (by simp) (by simpa using inside) known
        (.inl (by simpa using quiet)) (.inl ⟨by simpa using ops,.item k⟩)

theorem run_keeps (inv : Invariant c) (once : RemovedOnce c (.run p)) {i : Instr} (left : c.threads p = i :: rest)
    (ran : (s,new) ∈ exec p i c.shared) : Invariant (c.put p s (new ++ rest)) := by
  cases i with
  | emplaceCallback x => exact emplaceCallback_keeps inv left ran
  | compareExchange x => exact compareExchange_keeps inv left ran
  | exchangeStop x => exact exchangeStop_keeps inv once left ran
  | enqueue a => exact enqueue_keeps inv once left ran
  | pushBack x => exact pushBack_keeps inv left ran
  | erase x => exact erase_keeps inv left ran
  | setValue x => exact setValue_keeps inv left ran
  | resetCallback x => exact resetCallback_keeps inv left ran
  | complete x => exact complete_keeps inv left ran
  | closeFront => exact closeFront_keeps inv once left ran
  | notifyAll => exact notify_keeps (x := 0) inv left (.inl rfl) ran
  | notifyFrom x => exact notify_keeps inv left (.inr (.inl rfl)) ran
  | notifyNext x => exact notify_keeps inv left (.inr (.inr rfl)) ran

theorem call_keeps (inv : Invariant c) {e : Event} (once : RemovedOnce c (.call e))
    (idle : c.threads (machine.party e) = []) (accepted : accept e c.shared = some (s,new)) :
    Invariant (c.put (machine.party e) s new) := by
  cases e with
  | start x => exact start_keeps inv accepted
  | requestStop x => exact requestStop_keeps inv accepted
  | drain => exact drain_keeps inv idle accepted
  | close =>
    cases accepted
    exact request_keeps inv .close rfl
  | notifyAll =>
    cases accepted
    exact request_keeps inv .notifyAll rfl
  | itemStops k => exact itemStops_keeps inv once accepted

theorem invariant_reach (reach : Reach machine RemovedOnce initial c) : Invariant c :=
  reach.invariant invariant_initial (fun _ _ _ _ _ _ inv once left ran => run_keeps inv once left ran)
    (fun _ _ _ _ inv once idle accepted => call_keeps inv once idle accepted)

/-! ### What the channel guarantees -/

theorem Stage.at_most_once {pushed : Prop} (stage : Stage d pushed) : d.completions ≤ 1 := by
  cases stage with
  | fresh _ _ _ _ _ nothing => simp [nothing]
  | early _ _ _ _ _ _ once => exact once
  | active _ _ _ _ _ nothing => simp [nothing]
  | stopping _ _ _ _ _ _ nothing => simp [nothing]
  | picked _ _ _ _ _ _ nothing => simp [nothing]
  | gone _ _ _ _ _ _ once => exact once

/-- `RemovedOnce`, computed. -/
def removedOnce (c : Config Party Context Instr) : Label Party Event → Bool
  | .run p =>
    match c.threads p with
    | .exchangeStop x :: _ =>
      let d := c.shared.subs x
      d.nOps != 1 || d.remover.isNone
    | .closeFront :: _ =>
      c.shared.observers.head == 0 || (c.shared.subs c.shared.observers.head).remover.isNone
    | .enqueue (.unsubscribe x) :: _ => (c.shared.subs x).subscribing != .asked
    | _ => true
  | .call (.itemStops k) => c.shared.spawned[k]?.all fun x => (c.shared.subs x).remover.isNone
  | _ => true

theorem removedOnce_of_computed (c : Config Party Context Instr) (l : Label Party Event)
    (computed : removedOnce c l = true) : RemovedOnce c l := by
  cases l with
  | run p =>
    refine ⟨fun x rest left one => ?_,fun rest left real => ?_,fun x rest left => ?_⟩
    · simpa [removedOnce,left,one] using computed
    · simpa [removedOnce,left,real] using computed
    · simpa [removedOnce,left] using computed
  | call e =>
    cases e with
    | itemStops k =>
      intro x sent
      simpa [removedOnce,sent] using computed
    | _ => trivial

end SendersIo.Channel
