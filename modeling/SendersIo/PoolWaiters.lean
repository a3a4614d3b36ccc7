import SendersIo.Interleaving
import SendersIo.IntrusiveLists
import SendersIo.SizeClasses

/-!
The operations that wait for a block of a pool. They are in an intrusive list of
their class, from which whoever gives back a block takes the first, under the
mutex, and completes it after the mutex is released; a stop callback takes its
own operation out, under the mutex, and completes it with stopped. Nothing keeps
the callback of an operation that was taken from running before it is deregistered.
-/
namespace SendersIo.PoolWaiters
open SendersIo.Interleaving SendersIo.IntrusiveLists SendersIo.SizeClasses
set_option linter.unusedSimpArgs false

/-- `allocate_operation`, with what happened to it: whether its stop callback is
    registered, and executing, and whether its stop token is requested; whether it
    was started, who took it off the list to complete it, whether its stop callback
    took it out, and the completions of its receiver. -/
structure AllocateOperation where
  index : Fin 32
  result : Nat
  registered : Bool
  executing : Bool
  stopRequested : Bool
  started : Bool
  taker : Option Nat
  erased : Bool
  completions : List (Option Nat)

/-- `memory_pool`, with the index in the header of every block, the operations with
    their links, those that have waited in the order in which they began to, and the
    pointers that callers have received and not yet given back. -/
structure Pool where
  links : Links
  pending : Fin 32 → IntrusiveList
  blockLists : Fin 32 → List Nat
  headers : Nat → Fin 32
  ops : Nat → AllocateOperation
  pushed : List Nat
  received : List Nat

/-- Who executes: the thread that starts an operation, a thread that gives back
    blocks, or the thread that runs the stop callback of an operation. -/
inductive Party where
  | starter (op : Nat)
  | reclaimer (k : Nat)
  | stopper (op : Nat)
  deriving DecidableEq

/-- The atomic steps: the critical sections and the callouts after them. -/
inductive Instr where
  | start (op : Nat)
  | setValue (op : Nat) (base : Nat)
  | reclaim (ptr : Nat)
  | resetCallback (op : Nat)
  | complete (op : Nat)
  | erase (op : Nat)
  | resetOwnCallback (op : Nat)
  | setStopped (op : Nat)
  | returnFromCallback (op : Nat)
  deriving DecidableEq

inductive Event where
  | start (op : Nat) (i : Fin 32)
  | deallocate (k : Nat) (ptr : Nat)
  | requestStop (op : Nat)

def Pool.modify (s : Pool) (op : Nat) (o : AllocateOperation) : Pool :=
  { s with ops := Function.update s.ops op o }

/-- `allocate_operation::start`, under the lock. `upstream` is what upstream returns
    to an operation. A callback that is constructed when its token is requested runs
    at once and waits for the lock forever. -/
def start (upstream : Nat → Option Nat) (s : Pool) (op : Nat) : List (Pool × List Instr) :=
  let o := s.ops op
  match s.blockLists o.index,upstream op with
  | base :: rest,_ => [({ s with blockLists := Function.update s.blockLists o.index rest },[.setValue op base])]
  | [],some base => [({ s with headers := Function.update s.headers base o.index },[.setValue op base])]
  | [],none =>
    if o.stopRequested then []
    else
      let out := pushBack s.links (s.pending o.index) op
      [({ s with
          links := out.1, pending := Function.update s.pending o.index out.2, pushed := s.pushed ++ [op]
          ops := Function.update s.ops op { o with registered := true } },[])]

/-- The list of the class of a pointer's block, `pending_allocation_[block.index]`. -/
def Pool.pendingOf (s : Pool) (ptr : Nat) : IntrusiveList := s.pending (s.headers (ptr - headerBytes))

/-- `memory_pool::reclaim_memory`, under the lock, and `complete_` of the operation
    that gets the block. -/
def reclaim (s : Pool) (k ptr : Nat) : List (Pool × List Instr) :=
  let i := s.headers (ptr - headerBytes)
  let list := s.pendingOf ptr
  if list.head = 0 then
    [({ s with blockLists := Function.update s.blockLists i ((ptr - headerBytes) :: s.blockLists i) },[])]
  else
    let op := list.head
    let out := popFront s.links list
    [({ s with
        links := out.1, pending := Function.update s.pending i out.2
        ops := Function.update s.ops op { s.ops op with result := ptr, taker := some k } },
      [.resetCallback op,.complete op])]

/-- `on_receiver_stop::operator()`, under the lock. -/
def stopErase (s : Pool) (op : Nat) : Pool :=
  let o := s.ops op
  let out := IntrusiveLists.erase s.links (s.pending o.index) op
  { s with
    links := out.1, pending := Function.update s.pending o.index out.2
    ops := Function.update s.ops op { o with erased := true } }

/-- `on_receiver_stop::operator()`, until the callback returns. -/
def onReceiverStop (op : Nat) : List Instr := [.erase op,.resetOwnCallback op,.setStopped op,.returnFromCallback op]

def exec (upstream : Nat → Option Nat) : Party → Instr → Pool → List (Pool × List Instr)
  | _,.start op,s => start upstream s op
  | _,.setValue op base,s =>
    let o := s.ops op
    [({ s.modify op { o with completions := o.completions ++ [some (base + headerBytes)] } with
        received := s.received ++ [base + headerBytes] },[])]
  | .reclaimer k,.reclaim ptr,s => reclaim s k ptr
  -- the destructor of a callback waits for it, unless it was destroyed before
  | _,.resetCallback op,s =>
    let o := s.ops op
    if o.registered ∧ o.executing then [] else [(s.modify op { o with registered := false },[])]
  | _,.complete op,s =>
    let o := s.ops op
    if o.result = 0 then [(s.modify op { o with completions := o.completions ++ [none] },[])]
    else
      [({ s.modify op { o with completions := o.completions ++ [some o.result] } with
          received := s.received ++ [o.result] },[])]
  | _,.erase op,s => [(stopErase s op,[])]
  | _,.resetOwnCallback op,s => [(s.modify op { s.ops op with registered := false },[])]
  | _,.setStopped op,s =>
    let o := s.ops op
    [(s.modify op { o with completions := o.completions ++ [none] },[])]
  | _,.returnFromCallback op,s => [(s.modify op { s.ops op with executing := false },[])]
  | _,_,_ => []

/-- An operation is started once. A caller gives back a pointer that it has. A token
    is requested once, and runs the callback that is registered with it. -/
def accept : Event → Pool → Option (Pool × List Instr)
  | .start op i,s =>
    let o := s.ops op
    if op ≠ 0 ∧ o.started = false then some (s.modify op { o with index := i, started := true },[.start op]) else none
  | .deallocate _ ptr,s =>
    if ptr ∈ s.received then some ({ s with received := s.received.erase ptr },[.reclaim ptr]) else none
  | .requestStop op,s =>
    let o := s.ops op
    if o.stopRequested then none
    else if o.registered then
      some (s.modify op { o with stopRequested := true, executing := true },onReceiverStop op)
    else some (s.modify op { o with stopRequested := true },[])

def machine (upstream : Nat → Option Nat) : Machine Party Pool Instr Event where
  exec := exec upstream
  accept := accept
  party
    | .start op _ => .starter op
    | .deallocate k _ => .reclaimer k
    | .requestStop op => .stopper op

def initial : Config Party Pool Instr where
  shared :=
    { links := ⟨fun _ => 0,fun _ => 0⟩, pending := fun _ => ⟨0,0⟩, blockLists := fun _ => [], headers := fun _ => 0
      ops := fun _ => ⟨0,0,false,false,false,false,none,false,[]⟩, pushed := [], received := [] }
  threads _ := []

/-! ### The operations that wait -/

/-- Nobody has taken the operation off its list. -/
def AllocateOperation.waits (o : AllocateOperation) : Bool := o.taker.isNone && !o.erased

/-- The operations that wait for a block of a class, in the order in which they began to. -/
def Pool.waiting (s : Pool) (i : Fin 32) : List Nat :=
  s.pushed.filter fun op => decide ((s.ops op).index = i) && (s.ops op).waits

/-- How the receiver of an operation that has waited is completed: with the block of
    whoever took it, with stopped by its stop callback, and not while it waits. -/
def AllocateOperation.outcome (o : AllocateOperation) : List (Option Nat) :=
  if o.taker.isSome then [some o.result] else if o.erased then [none] else []

/-- Handing over a block and stopping do not overlap: the stop callback of an
    operation does not start between the operation's removal from the list and the
    callback's deregistration, and an operation whose stop callback is executing is
    not given a block. -/
def Separate (c : Config Party Pool Instr) : Label Party Event → Prop
  | .run p => ∀ ptr rest, c.threads p = .reclaim ptr :: rest →
      (c.shared.ops (c.shared.pendingOf ptr).head).executing = false
  | .call (.requestStop op) => (c.shared.ops op).registered = true → (c.shared.ops op).taker = none
  | _ => True

/-! ### The invariant -/

/-- What the thread that starts an operation has left. -/
inductive StartLeft (op : Nat) (o : AllocateOperation) (pushed : Prop) : List Instr → Prop
  | fresh : o.started = false → ¬ pushed → o.completions = [] → StartLeft op o pushed []
  | starting : o.started = true → ¬ pushed → o.completions = [] → StartLeft op o pushed [.start op]
  | serving (base : Nat) : o.started = true → ¬ pushed → o.completions = [] →
      StartLeft op o pushed [.setValue op base]
  | served (ptr : Nat) : o.started = true → ¬ pushed → o.completions = [some ptr] → StartLeft op o pushed []
  | waited : o.started = true → pushed → StartLeft op o pushed []

/-- What the thread that runs the stop callback of an operation has left. -/
inductive StopLeft (op : Nat) (o : AllocateOperation) : List Instr → Prop
  | quiet : o.executing = false → o.erased = false → StopLeft op o []
  | erasing : o.registered = true → o.executing = true → o.taker = none → o.erased = false →
      StopLeft op o (onReceiverStop op)
  | resetting : o.executing = true → o.erased = true → o.completions = [] →
      StopLeft op o [.resetOwnCallback op,.setStopped op,.returnFromCallback op]
  | stopping : o.registered = false → o.executing = true → o.erased = true → o.completions = [] →
      StopLeft op o [.setStopped op,.returnFromCallback op]
  | returning : o.registered = false → o.executing = true → o.erased = true → o.completions = [none] →
      StopLeft op o [.returnFromCallback op]
  | stopped : o.registered = false → o.executing = false → o.erased = true → o.completions = [none] →
      StopLeft op o []

/-- What a thread that gives back blocks has left: it may have taken an operation
    that it has to complete. -/
inductive TakeLeft (k : Nat) (ops : Nat → AllocateOperation) : List Instr → Prop
  | idle : TakeLeft k ops []
  | reclaiming (ptr : Nat) : ptr ≠ 0 → TakeLeft k ops [.reclaim ptr]
  | resetting (op : Nat) : (ops op).taker = some k → (ops op).completions = [] →
      TakeLeft k ops [.resetCallback op,.complete op]
  | completing (op : Nat) : (ops op).taker = some k → (ops op).completions = [] → (ops op).registered = false →
      TakeLeft k ops [.complete op]

/-- What holds of one operation, whatever the others do. -/
structure Sound (op : Nat) (o : AllocateOperation) (pushed : Prop) (threads : Party → List Instr) : Prop where
  real : o.started = true → op ≠ 0
  start : StartLeft op o pushed (threads (.starter op))
  stop : StopLeft op o (threads (.stopper op))
  taken : ∀ k, o.taker = some k → pushed ∧ o.erased = false ∧ o.result ≠ 0 ∧ o.executing = false ∧
    (o.completions = [some o.result] ∧ o.registered = false ∨ .complete op ∈ threads (.reclaimer k))
  erased : o.erased = true → pushed ∧ o.taker = none
  waits : pushed → o.waits = true → o.completions = [] ∧ o.registered = true
  registered : o.registered = true → pushed

structure Invariant (c : Config Party Pool Instr) : Prop where
  lists : ∀ i, Represents c.shared.links (c.shared.pending i) (c.shared.waiting i)
  once : c.shared.pushed.Nodup
  received : ∀ ptr ∈ c.shared.received, ptr ≠ 0
  sound : ∀ op, Sound op (c.shared.ops op) (op ∈ c.shared.pushed) c.threads
  take : ∀ k, TakeLeft k c.shared.ops (c.threads (.reclaimer k))

variable {c : Config Party Pool Instr} {s : Pool} {op : Nat} {i : Fin 32} {new rest : List Instr}
  {upstream : Nat → Option Nat}

theorem mem_waiting : op ∈ s.waiting i ↔ op ∈ s.pushed ∧ (s.ops op).index = i ∧ (s.ops op).waits = true := by
  simp [Pool.waiting]

theorem waits_iff {o : AllocateOperation} : o.waits = true ↔ o.taker = none ∧ o.erased = false := by
  simp [AllocateOperation.waits]

/-- The lists of operations that wait depend on their classes and on who took them. -/
theorem waiting_congr {s' : Pool} (pushed : s'.pushed = s.pushed)
    (same : ∀ x ∈ s.pushed, (s'.ops x).index = (s.ops x).index ∧ (s'.ops x).waits = (s.ops x).waits) (i : Fin 32) :
    s'.waiting i = s.waiting i := by
  rw [Pool.waiting,pushed]
  refine List.filter_congr fun x member => ?_
  rw [(same x member).1,(same x member).2]

/-- An operation that stops waiting leaves the others in their order. -/
theorem waiting_erase {s' : Pool} (once : s.pushed.Nodup) (pushed : s'.pushed = s.pushed)
    (same : ∀ x ∈ s.pushed, x ≠ op → (s'.ops x).index = (s.ops x).index ∧ (s'.ops x).waits = (s.ops x).waits)
    (gone : (s'.ops op).waits = false) (i : Fin 32) : s'.waiting i = (s.waiting i).erase op := by
  rw [Pool.waiting,Pool.waiting,(once.filter _).erase_eq_filter,pushed,List.filter_filter]
  refine List.filter_congr fun x member => ?_
  by_cases this : x = op
  · simp [this,gone]
  · rw [(same x member this).1,(same x member this).2]
    simp [this]

theorem invariant_initial : Invariant initial where
  lists i := represents_empty _
  once := List.nodup_nil
  received := by simp [initial]
  sound op :=
    ⟨nofun,.fresh rfl (by simp [initial]) rfl,.quiet rfl rfl,by simp [initial],by simp [initial],by simp [initial],
      by simp [initial]⟩
  take k := .idle

/-- A step of one operation leaves the others as they are. -/
theorem Sound.other {threads threads' : Party → List Instr} {o : AllocateOperation} {pushed pushed' : Prop}
    (sound : Sound op o pushed threads) (same : pushed' ↔ pushed)
    (start : threads' (.starter op) = threads (.starter op)) (stop : threads' (.stopper op) = threads (.stopper op))
    (taking : ∀ k, .complete op ∈ threads (.reclaimer k) → .complete op ∈ threads' (.reclaimer k)) :
    Sound op o pushed' threads' := by
  obtain rfl : pushed' = pushed := propext same
  refine ⟨sound.real,start ▸ sound.start,stop ▸ sound.stop,fun k taken => ?_,sound.erased,sound.waits,sound.registered⟩
  obtain ⟨known,kept,block,quiet,served⟩ := sound.taken k taken
  exact ⟨known,kept,block,quiet,served.imp_right (taking k)⟩

/-- A thread that has not taken the operation does not mind what happens to it. -/
theorem TakeLeft.other {k : Nat} {ops : Nat → AllocateOperation} {o : AllocateOperation} {prog : List Instr}
    (take : TakeLeft k ops prog) (apart : (ops op).taker ≠ some k) : TakeLeft k (Function.update ops op o) prog := by
  have differ : ∀ x, (ops x).taker = some k → Function.update ops op o x = ops x := fun x taken =>
    Function.update_of_ne (fun same => apart (by rwa [← same])) _ _
  cases take with
  | idle => exact .idle
  | reclaiming ptr real => exact .reclaiming ptr real
  | resetting x taken empty => exact .resetting x (by rwa [differ x taken]) (by rwa [differ x taken])
  | completing x taken empty unset =>
    exact .completing x (by rwa [differ x taken]) (by rwa [differ x taken]) (by rwa [differ x taken])

/-- A step that changes one operation, of one of its threads or of the thread that
    has taken it. -/
theorem Invariant.modify (inv : Invariant c) {p : Party} {o : AllocateOperation} {s' : Pool} {prog : List Instr}
    (ops : s'.ops = Function.update c.shared.ops op o) (links : s'.links = c.shared.links)
    (pending : s'.pending = c.shared.pending) (pushed : s'.pushed = c.shared.pushed)
    (received : ∀ ptr ∈ s'.received, ptr ≠ 0)
    (waiting : op ∈ c.shared.pushed → o.index = (c.shared.ops op).index ∧ o.waits = (c.shared.ops op).waits)
    (sound : Sound op o (op ∈ c.shared.pushed) (c.put p s' prog).threads)
    (starter : ∀ x, p = .starter x → x = op) (stopper : ∀ x, p = .stopper x → x = op)
    (taking : ∀ x, x ≠ op → .complete x ∈ c.threads p → .complete x ∈ prog)
    (take : ∀ k, TakeLeft k (Function.update c.shared.ops op o) ((c.put p s' prog).threads (.reclaimer k))) :
    Invariant (c.put p s' prog) where
  lists i := by
    have same : s'.waiting i = c.shared.waiting i := by
      refine waiting_congr pushed (fun x member => ?_) i
      rw [ops]
      by_cases this : x = op
      · subst this
        simpa using waiting member
      · simp [Function.update_of_ne this]
    rw [put_shared,links,pending,same]
    exact inv.lists i
  once := by rw [put_shared,pushed]; exact inv.once
  received := received
  sound x := by
    rw [put_shared,ops,pushed]
    by_cases this : x = op
    · subst this
      simpa using sound
    · rw [Function.update_of_ne this]
      refine (inv.sound x).other Iff.rfl (put_threads_ne c ?_ _ _) (put_threads_ne c ?_ _ _) fun k member => ?_
      · rintro rfl
        exact this (starter x rfl)
      · rintro rfl
        exact this (stopper x rfl)
      · rw [put_threads]
        split
        · rename_i here
          rw [here] at member
          exact taking x this member
        · exact member
  take k := by
    rw [put_shared,ops]
    exact take k

/-- Nobody but the party of the step has taken the operation that it changes. -/
theorem Invariant.take_put (inv : Invariant c) {p : Party} {o : AllocateOperation} {s' : Pool} {prog : List Instr}
    (own : ∀ k, p = .reclaimer k → TakeLeft k (Function.update c.shared.ops op o) prog)
    (alone : ∀ k, (c.shared.ops op).taker = some k → p = .reclaimer k) (k : Nat) :
    TakeLeft k (Function.update c.shared.ops op o) ((c.put p s' prog).threads (.reclaimer k)) := by
  rw [put_threads]
  split
  · rename_i here
    exact own k here.symm
  · rename_i other
    exact (inv.take k).other fun taken => other (alone k taken).symm

/-! ### The steps -/

/-- What an operation that was not taken leaves to say. -/
theorem Sound.untaken {threads : Party → List Instr} {o : AllocateOperation} {pushed : Prop} (none : o.taker = none)
    (real : o.started = true → op ≠ 0) (start : StartLeft op o pushed (threads (.starter op)))
    (stop : StopLeft op o (threads (.stopper op))) (erased : o.erased = true → pushed)
    (waits : pushed → o.erased = false → o.completions = [] ∧ o.registered = true)
    (registered : o.registered = true → pushed) : Sound op o pushed threads where
  real := real
  start := start
  stop := stop
  taken k taken := by simp [none] at taken
  erased gone := ⟨erased gone,none⟩
  waits known wait := waits known (waits_iff.mp wait).2
  registered := registered

/-- An operation that waits, or has waited, was started by a thread that is done with it. -/
theorem Sound.begun {threads : Party → List Instr} {o : AllocateOperation} {pushed : Prop}
    (sound : Sound op o pushed threads) (known : pushed) : o.started = true ∧ threads (.starter op) = [] := by
  have start := sound.start
  generalize threads (.starter op) = prog at start
  cases start with
  | waited begun => exact ⟨begun,rfl⟩
  | fresh _ absent => exact absurd known absent
  | starting _ absent => exact absurd known absent
  | serving _ _ absent => exact absurd known absent
  | served _ _ absent => exact absurd known absent

/-- The thread of a stop callback that is not executing has nothing left. -/
theorem Sound.quiet {threads : Party → List Instr} {o : AllocateOperation} {pushed : Prop}
    (sound : Sound op o pushed threads) (idle : o.executing = false) (kept : o.erased = false) :
    threads (.stopper op) = [] := by
  have stop := sound.stop
  generalize threads (.stopper op) = prog at stop
  cases stop with
  | quiet => rfl
  | erasing _ busy => simp [idle] at busy
  | resetting busy => simp [idle] at busy
  | stopping _ busy => simp [idle] at busy
  | returning _ busy => simp [idle] at busy
  | stopped _ _ gone => simp [kept] at gone

/-- Before an operation waits nobody else knows it. -/
theorem Invariant.unknown (inv : Invariant c) (absent : op ∉ c.shared.pushed) :
    (c.shared.ops op).taker = none ∧ (c.shared.ops op).erased = false ∧ (c.shared.ops op).registered = false ∧
      (c.shared.ops op).executing = false ∧ c.threads (.stopper op) = [] := by
  have sound := inv.sound op
  have untaken : (c.shared.ops op).taker = none := by
    cases taken : (c.shared.ops op).taker with
    | none => rfl
    | some k => exact absurd (sound.taken k taken).1 absent
  have kept : (c.shared.ops op).erased = false := by
    by_contra gone
    exact absent (sound.erased (by simpa using gone)).1
  have unset : (c.shared.ops op).registered = false := by
    by_contra held
    exact absent (sound.registered (by simpa using held))
  have idle : (c.shared.ops op).executing = false := by
    have stop := sound.stop
    generalize c.threads (.stopper op) = prog at stop
    cases stop with
    | quiet idle => exact idle
    | erasing held => simp [unset] at held
    | resetting _ gone => simp [kept] at gone
    | stopping _ _ gone => simp [kept] at gone
    | returning _ _ gone => simp [kept] at gone
    | stopped _ _ gone => simp [kept] at gone
  exact ⟨untaken,kept,unset,idle,sound.quiet idle kept⟩

theorem received_append {l : List Nat} {ptr : Nat} (before : ∀ x ∈ l, x ≠ 0) (real : ptr ≠ 0) :
    ∀ x ∈ l ++ [ptr], x ≠ 0 := by
  intro x member
  rcases List.mem_append.mp member with earlier | now
  · exact before x earlier
  · rwa [List.mem_singleton.mp now]

/-- A receiver is completed by the thread that started its operation. -/
theorem setValue_keeps (inv : Invariant c) {base : Nat} (left : c.threads (.starter op) = .setValue op base :: rest)
    (ran : (s,new) ∈ exec upstream (.starter op) (.setValue op base) c.shared) :
    Invariant (c.put (.starter op) s (new ++ rest)) := by
  obtain ⟨rfl,rfl⟩ : s = _ ∧ new = _ := by simpa [exec,Pool.modify] using ran
  have sound := inv.sound op
  have start := sound.start
  rw [left] at start
  cases start with
  | serving _ begun absent empty =>
    obtain ⟨untaken,kept,unset,idle,quiet⟩ := inv.unknown absent
    refine inv.modify rfl rfl rfl rfl ?_ (fun member => absurd member absent) ?_ (by simp) (by simp) ?_
      (inv.take_put (by simp) (by simp [untaken]))
    · exact received_append inv.received (by simp [headerBytes])
    · refine .untaken untaken (fun _ => sound.real begun) ?_ ?_ (by simp [kept]) (fun member => absurd member absent)
        (by simp [unset])
      · rw [put_threads_self]
        exact .served (base + headerBytes) begun absent (by simp [empty])
      · rw [put_threads_ne c (by simp),quiet]
        exact .quiet idle kept
    · simp [left]

/-- The lists of two classes share no operation. -/
theorem waiting_disjoint {j : Fin 32} {x : Nat} (other : j ≠ i) (member : x ∈ s.waiting j) : x ∉ s.waiting i := by
  intro member'
  exact other ((mem_waiting.mp member).2.1.symm.trans (mem_waiting.mp member').2.1)

/-- An operation goes to the end of the list of its class. -/
theorem waiting_push {s' : Pool} {o : AllocateOperation} (absent : op ∉ s.pushed) (pushed : s'.pushed = s.pushed ++ [op])
    (ops : s'.ops = Function.update s.ops op o) (wait : o.waits = true) (j : Fin 32) :
    s'.waiting j = if j = o.index then s.waiting j ++ [op] else s.waiting j := by
  have before : (s.pushed.filter fun x => decide ((s'.ops x).index = j) && (s'.ops x).waits) = s.waiting j := by
    refine List.filter_congr fun x member => ?_
    have other : x ≠ op := by
      rintro rfl
      exact absent member
    rw [ops,Function.update_of_ne other]
  rw [Pool.waiting,pushed,List.filter_append,before]
  split
  · rename_i same
    simp [ops,same,wait]
  · rename_i other
    simp [ops,Ne.symm other]

/-- The operation goes to the end of the list of its class and registers its callback. -/
theorem Invariant.wait (inv : Invariant c) {s' : Pool} {o : AllocateOperation} (absent : op ∉ c.shared.pushed)
    (real : op ≠ 0) (links : s'.links = (pushBack c.shared.links (c.shared.pending o.index) op).1)
    (pending : s'.pending = Function.update c.shared.pending o.index
      (pushBack c.shared.links (c.shared.pending o.index) op).2)
    (pushed : s'.pushed = c.shared.pushed ++ [op]) (ops : s'.ops = Function.update c.shared.ops op o)
    (received : s'.received = c.shared.received) (begun : o.started = true) (set_ : o.registered = true)
    (idle : o.executing = false) (untaken : o.taker = none) (kept : o.erased = false) (empty : o.completions = []) :
    Invariant (c.put (.starter op) s' []) := by
  have wait : o.waits = true := waits_iff.mpr ⟨untaken,kept⟩
  have fresh : ∀ j, op ∉ c.shared.waiting j := fun j member => absent (mem_waiting.mp member).1
  obtain ⟨nobody,_,_,_,quiet⟩ := inv.unknown absent
  refine ⟨fun j => ?_,?_,received ▸ inv.received,fun x => ?_,fun k => ?_⟩
  · rw [put_shared,waiting_push absent pushed ops wait,links,pending]
    split
    · rename_i here
      subst here
      rw [Function.update_self]
      exact pushBack_represents (inv.lists _) real (fresh _)
    · rename_i other
      rw [Function.update_of_ne other]
      refine (inv.lists j).congr fun y member => pushBack_links (inv.lists _) (waiting_disjoint other member) ?_
      rintro rfl
      exact fresh j member
  · rw [put_shared,pushed]
    exact inv.once.append (List.nodup_singleton op) (by simpa using absent)
  · rw [put_shared,pushed,ops]
    by_cases this : x = op
    · subst this
      rw [Function.update_self]
      refine .untaken untaken (fun _ => real) ?_ ?_ (by simp) (fun _ _ => ⟨empty,set_⟩) (by simp)
      · rw [put_threads_self]
        exact .waited begun (by simp)
      · rw [put_threads_ne c (by simp),quiet]
        exact .quiet idle kept
    · rw [Function.update_of_ne this]
      refine (inv.sound x).other (by simp [this]) (put_threads_ne c (by simpa using this) _ _)
        (put_threads_ne c (by simp) _ _) fun k member => ?_
      rwa [put_threads_ne c (by simp)]
  · rw [put_shared,ops,put_threads_ne c (by simp)]
    exact (inv.take k).other (by simp [nobody])

/-- The critical section of a start: the operation gets a block, or waits. -/
theorem start_keeps (inv : Invariant c) (left : c.threads (.starter op) = .start op :: rest)
    (ran : (s,new) ∈ exec upstream (.starter op) (.start op) c.shared) :
    Invariant (c.put (.starter op) s (new ++ rest)) := by
  have sound := inv.sound op
  have begins := sound.start
  rw [left] at begins
  cases begins with
  | starting begun absent empty =>
    obtain ⟨untaken,kept,unset,idle,quiet⟩ := inv.unknown absent
    have serve : ∀ (s' : Pool) (base : Nat), s'.ops = c.shared.ops → s'.links = c.shared.links →
        s'.pending = c.shared.pending → s'.pushed = c.shared.pushed → s'.received = c.shared.received →
        Invariant (c.put (.starter op) s' [.setValue op base]) := by
      intro s' base ops links pending pushed received
      refine inv.modify (o := c.shared.ops op) (by simpa using ops) links pending pushed
        (received ▸ inv.received) (fun _ => ⟨rfl,rfl⟩) ?_ (by simp) (by simp) (by simp [left])
        (inv.take_put (by simp) (by simp [untaken]))
      refine .untaken untaken sound.real ?_ ?_ (by simp [kept]) (fun member => absurd member absent) (by simp [unset])
      · rw [put_threads_self]
        exact .serving base begun absent empty
      · rw [put_threads_ne c (by simp),quiet]
        exact .quiet idle kept
    simp only [exec,start] at ran
    cases lists : c.shared.blockLists (c.shared.ops op).index with
    | cons base free =>
      obtain ⟨rfl,rfl⟩ : s = _ ∧ new = _ := by simpa [lists] using ran
      exact serve _ base rfl rfl rfl rfl rfl
    | nil =>
      cases got : upstream op with
      | some base =>
        obtain ⟨rfl,rfl⟩ : s = _ ∧ new = _ := by simpa [lists,got] using ran
        exact serve _ base rfl rfl rfl rfl rfl
      | none =>
        by_cases requested : (c.shared.ops op).stopRequested
        · simp [lists,got,requested] at ran
        · simp only [lists,got] at ran
          rw [if_neg requested] at ran
          cases List.mem_singleton.mp ran
          exact inv.wait (o := { c.shared.ops op with registered := true }) absent (sound.real begun) rfl rfl rfl rfl rfl
            begun rfl idle untaken kept empty

/-- A thread that gives back a block and has taken no operation. -/
theorem Invariant.reclaimer (inv : Invariant c) {k : Nat} {s' : Pool} {prog : List Instr}
    (ops : s'.ops = c.shared.ops) (links : s'.links = c.shared.links) (pending : s'.pending = c.shared.pending)
    (pushed : s'.pushed = c.shared.pushed) (received : ∀ ptr ∈ s'.received, ptr ≠ 0)
    (nothing : ∀ x, .complete x ∉ c.threads (.reclaimer k)) (take : TakeLeft k c.shared.ops prog) :
    Invariant (c.put (.reclaimer k) s' prog) where
  lists i := by
    rw [put_shared,links,pending,waiting_congr pushed (fun x _ => by simp [ops])]
    exact inv.lists i
  once := by rw [put_shared,pushed]; exact inv.once
  received := received
  sound x := by
    rw [put_shared,ops,pushed]
    refine (inv.sound x).other Iff.rfl (put_threads_ne c (by simp) _ _) (put_threads_ne c (by simp) _ _)
      fun k' member => ?_
    have other : Party.reclaimer k' ≠ .reclaimer k := fun same => nothing x (same ▸ member)
    rwa [put_threads_ne c other]
  take k' := by
    rw [put_shared,ops,put_threads]
    split
    · rename_i here
      cases here
      exact take
    · exact inv.take k'

/-- An operation of the list is taken out of it, by whoever. -/
theorem Invariant.remove (inv : Invariant c) {s' : Pool} {o : AllocateOperation} (member : op ∈ c.shared.waiting i)
    (list : Represents s'.links (s'.pending i) ((c.shared.waiting i).erase op))
    (others : ∀ j, j ≠ i → s'.pending j = c.shared.pending j)
    (links : ∀ y, y ∉ c.shared.waiting i →
      s'.links.next y = c.shared.links.next y ∧ s'.links.prev y = c.shared.links.prev y)
    (pushed : s'.pushed = c.shared.pushed) (ops : s'.ops = Function.update c.shared.ops op o) (gone : o.waits = false)
    (j : Fin 32) : Represents s'.links (s'.pending j) (s'.waiting j) := by
  have left : s'.waiting j = (c.shared.waiting j).erase op := waiting_erase inv.once pushed
    (fun x _ other => by rw [ops,Function.update_of_ne other]; exact ⟨rfl,rfl⟩) (by simpa [ops] using gone) j
  rw [left]
  by_cases here : j = i
  · rw [here]
    exact list
  · rw [others j here,List.erase_of_not_mem (fun member' => waiting_disjoint here member' member)]
    exact (inv.lists j).congr fun y member' => links y (waiting_disjoint here member')

/-- The operations that wait have not been completed, and their callbacks are armed. -/
theorem Invariant.of_waiting (inv : Invariant c) (member : op ∈ c.shared.waiting i) :
    op ∈ c.shared.pushed ∧ (c.shared.ops op).index = i ∧ (c.shared.ops op).taker = none ∧
      (c.shared.ops op).erased = false ∧ (c.shared.ops op).completions = [] ∧ (c.shared.ops op).registered = true := by
  obtain ⟨known,index,wait⟩ := mem_waiting.mp member
  obtain ⟨untaken,kept⟩ := waits_iff.mp wait
  obtain ⟨empty,held⟩ := (inv.sound op).waits known wait
  exact ⟨known,index,untaken,kept,empty,held⟩

/-- The first operation of a list gets the block, unless its callback is executing. -/
theorem Invariant.handOver (inv : Invariant c) {k ptr : Nat} {s' : Pool} {more : List Nat}
    (queue : c.shared.waiting i = op :: more) (separate : (c.shared.ops op).executing = false) (real : ptr ≠ 0)
    (nothing : ∀ x, .complete x ∉ c.threads (.reclaimer k))
    (links : s'.links = (popFront c.shared.links (c.shared.pending i)).1)
    (pending : s'.pending = Function.update c.shared.pending i (popFront c.shared.links (c.shared.pending i)).2)
    (pushed : s'.pushed = c.shared.pushed) (received : s'.received = c.shared.received)
    (ops : s'.ops = Function.update c.shared.ops op { c.shared.ops op with result := ptr, taker := some k }) :
    Invariant (c.put (.reclaimer k) s' [.resetCallback op,.complete op]) := by
  have list := inv.lists i
  rw [queue] at list
  have popped := (popFront_represents list).2
  have member : op ∈ c.shared.waiting i := by simp [queue]
  obtain ⟨known,_,untaken,kept,empty,_⟩ := inv.of_waiting member
  have sound := inv.sound op
  have differ : ∀ {x}, x ≠ op → s'.ops x = c.shared.ops x := fun other => by rw [ops,Function.update_of_ne other]
  refine ⟨inv.remove member ?_ ?_ ?_ pushed ops rfl,?_,received ▸ inv.received,fun x => ?_,fun k' => ?_⟩
  · rw [put_shared,links,pending,Function.update_self,queue,List.erase_cons_head]
    exact popped
  · intro j other
    rw [put_shared,pending,Function.update_of_ne other]
  · intro y out
    rw [put_shared,links]
    exact popFront_links list fun inside => out (by simp [queue,inside])
  · rw [put_shared,pushed]
    exact inv.once
  · rw [put_shared,pushed]
    by_cases this : x = op
    · subst this
      rw [ops,Function.update_self]
      refine ⟨sound.real,?_,?_,?_,by simp [kept],by simp [AllocateOperation.waits],sound.registered⟩
      · rw [put_threads_ne c (by simp),(sound.begun known).2]
        exact .waited (sound.begun known).1 known
      · rw [put_threads_ne c (by simp),sound.quiet separate kept]
        exact .quiet separate kept
      · rintro k' taken
        cases taken
        exact ⟨known,kept,real,separate,.inr (by simp)⟩
    · rw [differ this]
      refine (inv.sound x).other Iff.rfl (put_threads_ne c (by simp) _ _) (put_threads_ne c (by simp) _ _)
        fun k' member => ?_
      have other : Party.reclaimer k' ≠ .reclaimer k := fun same => nothing x (same ▸ member)
      rwa [put_threads_ne c other]
  · rw [put_shared,put_threads,ops]
    split
    · rename_i here
      cases here
      exact .resetting op (by simp) (by simpa using empty)
    · exact (inv.take k').other (by simp [untaken])

/-- A block is given back: to the first operation that waits, or to the free list. -/
theorem reclaim_keeps (inv : Invariant c) {k ptr : Nat} (left : c.threads (.reclaimer k) = .reclaim ptr :: rest)
    (separate : (c.shared.ops (c.shared.pendingOf ptr).head).executing = false)
    (ran : (s,new) ∈ exec upstream (.reclaimer k) (.reclaim ptr) c.shared) :
    Invariant (c.put (.reclaimer k) s (new ++ rest)) := by
  have take := inv.take k
  rw [left] at take
  cases take with
  | reclaiming _ real =>
    simp only [exec,reclaim] at ran
    by_cases nobody : (c.shared.pendingOf ptr).head = 0
    · rw [if_pos nobody] at ran
      cases List.mem_singleton.mp ran
      exact inv.reclaimer rfl rfl rfl rfl inv.received (by simp [left]) .idle
    · rw [if_neg nobody] at ran
      cases List.mem_singleton.mp ran
      simp only [Pool.pendingOf] at nobody separate ⊢
      generalize c.shared.headers (ptr - headerBytes) = i at nobody separate ⊢
      have list := inv.lists i
      cases queue : c.shared.waiting i with
      | nil => exact absurd (list.head_eq_zero.mpr queue) nobody
      | cons op more =>
        rw [queue] at list
        have first := (popFront_represents list).1
        rw [first] at separate ⊢
        exact inv.handOver queue separate real (by simp [left]) rfl rfl rfl rfl rfl

/-- The thread that took an operation deregisters its callback, which it need not wait for. -/
theorem resetCallback_keeps (inv : Invariant c) {k : Nat}
    (left : c.threads (.reclaimer k) = .resetCallback op :: rest)
    (ran : (s,new) ∈ exec upstream (.reclaimer k) (.resetCallback op) c.shared) :
    Invariant (c.put (.reclaimer k) s (new ++ rest)) := by
  have take := inv.take k
  rw [left] at take
  cases take with
  | resetting _ taken empty =>
    have sound := inv.sound op
    obtain ⟨known,kept,block,quiet,_⟩ := sound.taken k taken
    simp only [exec] at ran
    rw [if_neg (by simp [quiet])] at ran
    cases List.mem_singleton.mp ran
    refine inv.modify rfl rfl rfl rfl inv.received (fun _ => ⟨rfl,rfl⟩) ?_ (by simp) (by simp) (by simp [left])
      (inv.take_put ?_ (by simp [taken]))
    · refine ⟨sound.real,?_,?_,?_,sound.erased,by simp [AllocateOperation.waits,taken],by simp⟩
      · rw [put_threads_ne c (by simp),(sound.begun known).2]
        exact .waited (sound.begun known).1 known
      · rw [put_threads_ne c (by simp),sound.quiet quiet kept]
        exact .quiet quiet kept
      · rintro k' here
        obtain rfl : k = k' := by simpa [taken] using here
        exact ⟨known,kept,block,quiet,.inr (by simp)⟩
    · rintro k' here
      cases here
      exact .completing op (by simpa using taken) (by simpa using empty) (by simp)

/-- The thread that took an operation completes its receiver with the block. -/
theorem complete_keeps (inv : Invariant c) {k : Nat} (left : c.threads (.reclaimer k) = .complete op :: rest)
    (ran : (s,new) ∈ exec upstream (.reclaimer k) (.complete op) c.shared) :
    Invariant (c.put (.reclaimer k) s (new ++ rest)) := by
  have take := inv.take k
  rw [left] at take
  cases take with
  | completing _ taken empty unset =>
    have sound := inv.sound op
    obtain ⟨known,kept,block,quiet,_⟩ := sound.taken k taken
    obtain ⟨rfl,rfl⟩ : s = _ ∧ new = _ := by simpa [exec,block] using ran
    refine inv.modify rfl rfl rfl rfl (received_append inv.received block) (fun _ => ⟨rfl,rfl⟩) ?_ (by simp)
      (by simp) (by simp [left]) (inv.take_put (fun _ _ => .idle) (by simp [taken]))
    refine ⟨sound.real,?_,?_,?_,sound.erased,by simp [AllocateOperation.waits,taken],by simp [unset]⟩
    · rw [put_threads_ne c (by simp),(sound.begun known).2]
      exact .waited (sound.begun known).1 known
    · rw [put_threads_ne c (by simp),sound.quiet quiet kept]
      exact .quiet quiet kept
    · exact fun _ _ => ⟨known,kept,block,quiet,.inl ⟨by simp [empty],unset⟩⟩

/-- The stop callback takes its operation out of the list, in which it is. -/
theorem erase_keeps (inv : Invariant c) (left : c.threads (.stopper op) = .erase op :: rest)
    (ran : (s,new) ∈ exec upstream (.stopper op) (.erase op) c.shared) :
    Invariant (c.put (.stopper op) s (new ++ rest)) := by
  have sound := inv.sound op
  have stop := sound.stop
  rw [left] at stop
  cases stop with
  | erasing held busy untaken kept =>
    obtain ⟨rfl,rfl⟩ : s = _ ∧ new = _ := by simpa [exec] using ran
    have known := sound.registered held
    have wait : (c.shared.ops op).waits = true := waits_iff.mpr ⟨untaken,kept⟩
    have member : op ∈ c.shared.waiting (c.shared.ops op).index := mem_waiting.mpr ⟨known,rfl,wait⟩
    have empty := (sound.waits known wait).1
    refine ⟨inv.remove member ?_ ?_ ?_ rfl rfl (by simp [AllocateOperation.waits]),inv.once,inv.received,fun x => ?_,
      fun k => ?_⟩
    · simpa [stopErase] using erase_represents_of_mem (inv.lists _) member
    · intro j other
      exact Function.update_of_ne other _ _
    · intro y out
      exact erase_links (inv.lists _) member out
    · by_cases this : x = op
      · subst this
        simp only [put_shared,stopErase,Function.update_self]
        refine .untaken untaken sound.real ?_ ?_ (fun _ => known) (by simp) (fun _ => known)
        · rw [put_threads_ne c (by simp),(sound.begun known).2]
          exact .waited (sound.begun known).1 known
        · rw [put_threads_self]
          exact .resetting busy rfl empty
      · simp only [put_shared,stopErase,Function.update_of_ne this]
        refine (inv.sound x).other Iff.rfl (put_threads_ne c (by simp) _ _) (put_threads_ne c (by simpa using this) _ _)
          fun k member => ?_
        rwa [put_threads_ne c (by simp)]
    · rw [put_threads_ne c (by simp)]
      exact (inv.take k).other (by simp [untaken])

/-- What the stop callback does after that concerns its operation only. -/
theorem Invariant.stopping (inv : Invariant c) {s' : Pool} {o : AllocateOperation} {prog : List Instr}
    (gone : (c.shared.ops op).erased = true) (ops : s'.ops = Function.update c.shared.ops op o)
    (links : s'.links = c.shared.links) (pending : s'.pending = c.shared.pending) (pushed : s'.pushed = c.shared.pushed)
    (received : s'.received = c.shared.received) (index : o.index = (c.shared.ops op).index)
    (begun : o.started = true) (untaken : o.taker = none) (erased : o.erased = true)
    (nothing : ∀ x, .complete x ∉ c.threads (.stopper op)) (stop : StopLeft op o prog) :
    Invariant (c.put (.stopper op) s' prog) := by
  have sound := inv.sound op
  obtain ⟨known,nobody⟩ := sound.erased gone
  refine inv.modify ops links pending pushed (received ▸ inv.received) (fun _ => ⟨index,?_⟩) ?_ (by simp) (by simp)
    (fun x _ member => absurd member (nothing x)) (inv.take_put (by simp) (by simp [nobody]))
  · simp [AllocateOperation.waits,erased,gone]
  · refine .untaken untaken (fun _ => sound.real (sound.begun known).1) ?_ ?_ (fun _ => known) (by simp [erased])
      (fun _ => known)
    · rw [put_threads_ne c (by simp),(sound.begun known).2]
      exact .waited begun known
    · rw [put_threads_self]
      exact stop

/-- The stop callback after it took its operation out: it deregisters itself and
    completes the receiver with stopped. -/
theorem stopper_keeps (inv : Invariant c) {j : Instr} (left : c.threads (.stopper op) = j :: rest)
    (ran : (s,new) ∈ exec upstream (.stopper op) j c.shared) : Invariant (c.put (.stopper op) s (new ++ rest)) := by
  have stop := (inv.sound op).stop
  have known := fun gone => ((inv.sound op).erased gone).1
  have begun := fun gone => ((inv.sound op).begun (known gone)).1
  rw [left] at stop
  cases stop with
  | erasing => exact erase_keeps inv left ran
  | resetting busy gone empty =>
    cases List.mem_singleton.mp ran
    exact inv.stopping gone rfl rfl rfl rfl rfl rfl (begun gone) ((inv.sound op).erased gone).2 gone (by simp [left])
      (.stopping rfl busy gone empty)
  | stopping unset busy gone empty =>
    cases List.mem_singleton.mp ran
    exact inv.stopping gone rfl rfl rfl rfl rfl rfl (begun gone) ((inv.sound op).erased gone).2 gone (by simp [left])
      (.returning unset busy gone (by simp [empty]))
  | returning unset busy gone empty =>
    cases List.mem_singleton.mp ran
    exact inv.stopping gone rfl rfl rfl rfl rfl rfl (begun gone) ((inv.sound op).erased gone).2 gone (by simp [left])
      (.stopped unset rfl gone empty)

theorem run_keeps (inv : Invariant c) {p : Party} {j : Instr} (separate : Separate c (.run p))
    (left : c.threads p = j :: rest) (ran : (s,new) ∈ exec upstream p j c.shared) :
    Invariant (c.put p s (new ++ rest)) := by
  cases p with
  | starter op =>
    have start := (inv.sound op).start
    have here := left
    rw [left] at start
    cases start with
    | starting => exact start_keeps inv here ran
    | serving => exact setValue_keeps inv here ran
  | reclaimer k =>
    have take := inv.take k
    have here := left
    rw [left] at take
    cases take with
    | reclaiming ptr => exact reclaim_keeps inv here (separate ptr _ here) ran
    | resetting op => exact resetCallback_keeps inv here ran
    | completing op => exact complete_keeps inv here ran
  | stopper op => exact stopper_keeps inv left ran

/-! ### The events -/

/-- A token is requested: the callback runs if it is registered. -/
theorem requestStop_keeps (inv : Invariant c) (idle : c.threads (.stopper op) = [])
    (separate : (c.shared.ops op).registered = true → (c.shared.ops op).taker = none)
    (accepted : accept (.requestStop op) c.shared = some (s,new)) : Invariant (c.put (.stopper op) s new) := by
  have sound := inv.sound op
  have starts : ∀ (s' : Pool) (prog : List Instr) (pushed : Prop),
      StartLeft op (c.shared.ops op) pushed (c.threads (.starter op)) →
      ∀ o : AllocateOperation, o.started = (c.shared.ops op).started → o.completions = (c.shared.ops op).completions →
        StartLeft op o pushed ((c.put (.stopper op) s' prog).threads (.starter op)) := by
    intro s' prog pushed left o begun sent
    rw [put_threads_ne c (by simp)]
    generalize c.threads (.starter op) = before at left ⊢
    cases left with
    | fresh not_begun absent empty => exact .fresh (begun.trans not_begun) absent (sent.trans empty)
    | starting yes absent empty => exact .starting (begun.trans yes) absent (sent.trans empty)
    | serving base yes absent empty => exact .serving base (begun.trans yes) absent (sent.trans empty)
    | served ptr yes absent got => exact .served ptr (begun.trans yes) absent (sent.trans got)
    | waited yes known => exact .waited (begun.trans yes) known
  have stop := sound.stop
  rw [idle] at stop
  simp only [accept] at accepted
  split at accepted
  · cases accepted
  · split at accepted
    · rename_i held
      cases accepted
      have untaken := separate held
      have known := sound.registered held
      cases stop with
      | quiet _ kept =>
        refine inv.modify rfl rfl rfl rfl inv.received (fun _ => ⟨rfl,rfl⟩) ?_ (by simp) (by simp)
          (by simp [idle]) (inv.take_put (by simp) (by simp [untaken]))
        refine .untaken untaken sound.real (starts _ _ _ sound.start _ rfl rfl) ?_ (fun _ => known)
          (fun known kept => sound.waits known (waits_iff.mpr ⟨untaken,kept⟩)) (fun _ => known)
        rw [put_threads_self]
        exact .erasing held rfl untaken kept
      | stopped unset => simp [unset] at held
    · rename_i unset
      cases accepted
      refine inv.modify rfl rfl rfl rfl inv.received (fun _ => ⟨rfl,rfl⟩) ?_ (by simp) (by simp)
        (by simp [idle]) (fun k => ?_)
      · refine ⟨sound.real,starts _ _ _ sound.start _ rfl rfl,?_,?_,sound.erased,sound.waits,sound.registered⟩
        · rw [put_threads_self]
          cases stop with
          | quiet quiet kept => exact .quiet quiet kept
          | stopped unset quiet gone empty => exact .stopped unset quiet gone empty
        · intro k taken
          rw [put_threads_ne c (by simp)]
          exact sound.taken k taken
      · rw [put_threads_ne c (by simp)]
        have take := inv.take k
        generalize c.threads (.reclaimer k) = prog at take ⊢
        have same : ∀ x, (Function.update c.shared.ops op { c.shared.ops op with stopRequested := true } x).taker =
            (c.shared.ops x).taker ∧ (Function.update c.shared.ops op { c.shared.ops op with stopRequested := true } x).completions =
            (c.shared.ops x).completions ∧
            (Function.update c.shared.ops op { c.shared.ops op with stopRequested := true } x).registered =
            (c.shared.ops x).registered := by
          intro x
          by_cases this : x = op
          · subst this
            simp
          · simp [Function.update_of_ne this]
        cases take with
        | idle => exact .idle
        | reclaiming ptr real => exact .reclaiming ptr real
        | resetting x taken empty => exact .resetting x ((same x).1.trans taken) ((same x).2.1.trans empty)
        | completing x taken empty held =>
          exact .completing x ((same x).1.trans taken) ((same x).2.1.trans empty) ((same x).2.2.trans held)

theorem call_keeps (inv : Invariant c) {e : Event} (separate : Separate c (.call e))
    (idle : c.threads ((machine upstream).party e) = []) (accepted : accept e c.shared = some (s,new)) :
    Invariant (c.put ((machine upstream).party e) s new) := by
  cases e with
  | start op i =>
    simp only [accept] at accepted
    split at accepted
    · rename_i fresh
      cases accepted
      have sound := inv.sound op
      have start := sound.start
      have absent : op ∉ c.shared.pushed := fun known => by simpa [fresh.2] using (sound.begun known).1
      obtain ⟨untaken,kept,unset,quiet,silent⟩ := inv.unknown absent
      show Invariant (c.put (.starter op) _ _)
      refine inv.modify rfl rfl rfl rfl inv.received (fun member => absurd member absent) ?_ (by simp)
        (by simp) ?_ (inv.take_put (by simp) (by simp [untaken]))
      · refine .untaken untaken (fun _ => fresh.1) ?_ ?_ (by simp [kept]) (fun member => absurd member absent)
          (by simp [unset])
        · rw [put_threads_self]
          generalize c.threads (.starter op) = prog at start
          cases start with
          | fresh _ _ empty => exact .starting rfl absent empty
          | starting yes => simp [fresh.2] at yes
          | serving _ yes => simp [fresh.2] at yes
          | served _ yes => simp [fresh.2] at yes
          | waited yes => simp [fresh.2] at yes
        · rw [put_threads_ne c (by simp),silent]
          exact .quiet quiet kept
      · have nothing : c.threads (.starter op) = [] := idle
        simp [nothing]
    · cases accepted
  | deallocate k ptr =>
    simp only [accept] at accepted
    split at accepted
    · rename_i member
      cases accepted
      have nothing : c.threads (.reclaimer k) = [] := idle
      exact inv.reclaimer rfl rfl rfl rfl (fun x inside => inv.received x (List.mem_of_mem_erase inside))
        (by simp [nothing]) (.reclaiming ptr (inv.received ptr member))
    · cases accepted
  | requestStop op => exact requestStop_keeps inv idle separate accepted

theorem invariant_reach (reach : Reach (machine upstream) Separate initial c) : Invariant c :=
  reach.invariant invariant_initial (fun _ _ _ _ _ _ inv separate left ran => run_keeps inv separate left ran)
    (fun _ _ _ _ inv separate idle accepted => call_keeps inv separate idle accepted)

/-! ### What a waiting operation can rely on -/

/-- A thread that has taken an operation, or runs a stop callback, is never stuck. -/
theorem Invariant.progress (inv : Invariant c) {p : Party} (other : ∀ op, p ≠ .starter op) (busy : c.threads p ≠ []) :
    (machine upstream).next c (.run p) ≠ [] := by
  cases at_p : c.threads p with
  | nil => exact absurd at_p busy
  | cons j rest =>
    cases p with
    | starter op => exact absurd rfl (other op)
    | reclaimer k =>
      have take := inv.take k
      rw [at_p] at take
      cases take with
      | reclaiming ptr real =>
        simp only [Machine.next,at_p,machine,exec,reclaim]
        split <;> simp
      | resetting op taken =>
        have quiet := ((inv.sound op).taken k taken).2.2.2.1
        simp [Machine.next,at_p,machine,exec,quiet]
      | completing op =>
        simp only [Machine.next,at_p,machine,exec]
        split <;> simp
    | stopper op =>
      have stop := (inv.sound op).stop
      rw [at_p] at stop
      cases stop <;> simp [Machine.next,at_p,machine,exec,onReceiverStop]

/-- An operation that was taken has been completed with the block, or will be by its taker. -/
theorem Invariant.of_taken (inv : Invariant c) {k : Nat} (taken : (c.shared.ops op).taker = some k) :
    (c.shared.ops op).completions = [some (c.shared.ops op).result] ∨
      (c.shared.ops op).completions = [] ∧ c.threads (.reclaimer k) ≠ [] := by
  obtain ⟨_,_,_,_,served⟩ := (inv.sound op).taken k taken
  refine served.imp And.left fun member => ?_
  have take := inv.take k
  generalize c.threads (.reclaimer k) = prog at take member
  cases take with
  | idle => simp at member
  | reclaiming => simp at member
  | resetting x _ empty =>
    obtain rfl : op = x := by simpa using member
    exact ⟨empty,by simp⟩
  | completing x _ empty =>
    obtain rfl : op = x := by simpa using member
    exact ⟨empty,by simp⟩

/-- An operation that its stop callback took out has been completed with stopped, or will be by the callback. -/
theorem Invariant.of_erased (inv : Invariant c) (gone : (c.shared.ops op).erased = true) :
    (c.shared.ops op).completions = [none] ∨
      (c.shared.ops op).completions = [] ∧ c.threads (.stopper op) ≠ [] := by
  have stop := (inv.sound op).stop
  generalize c.threads (.stopper op) = prog at stop ⊢
  cases stop with
  | quiet _ kept => simp [kept] at gone
  | erasing _ _ _ kept => simp [kept] at gone
  | resetting _ _ empty => exact .inr ⟨empty,by simp⟩
  | stopping _ _ _ empty => exact .inr ⟨empty,by simp⟩
  | returning _ _ _ sent => exact .inl sent
  | stopped _ _ _ sent => exact .inl sent

/-- The completions of an operation that has waited are those that its history calls
    for, or none while a thread still has to make them. -/
theorem Invariant.completions_outcome (inv : Invariant c) (known : op ∈ c.shared.pushed) :
    (c.shared.ops op).completions = (c.shared.ops op).outcome ∨
      (c.shared.ops op).completions = [] ∧ ∃ p, c.threads p ≠ [] := by
  simp only [AllocateOperation.outcome]
  cases taken : (c.shared.ops op).taker with
  | some k => exact (inv.of_taken taken).imp (by simp) fun ⟨empty,busy⟩ => ⟨empty,_,busy⟩
  | none =>
    cases gone : (c.shared.ops op).erased with
    | true => exact (inv.of_erased gone).imp (by simp) fun ⟨empty,busy⟩ => ⟨empty,_,busy⟩
    | false => exact .inl (by simpa using ((inv.sound op).waits known (waits_iff.mpr ⟨taken,gone⟩)).1)

theorem length_outcome (o : AllocateOperation) : o.outcome.length ≤ 1 := by
  simp only [AllocateOperation.outcome]
  split
  · simp
  · split <;> simp

/-- No receiver is completed twice. -/
theorem Invariant.at_most_once (inv : Invariant c) (op : Nat) : (c.shared.ops op).completions.length ≤ 1 := by
  by_cases known : op ∈ c.shared.pushed
  · rcases inv.completions_outcome known with sent | ⟨empty,_⟩
    · rw [sent]
      exact length_outcome _
    · simp [empty]
  · have start := (inv.sound op).start
    generalize c.threads (.starter op) = prog at start
    cases start with
    | fresh _ _ empty => simp [empty]
    | starting _ _ empty => simp [empty]
    | serving _ _ _ empty => simp [empty]
    | served ptr _ _ sent => simp [sent]
    | waited _ inside => exact absurd inside known

/-- As long as handing over and stopping do not overlap: no receiver is completed
    twice, and once nothing is going on every operation that has waited was completed
    with the block of whoever took it, or with stopped by its stop callback, or waits;
    nobody who has to complete one is stuck; a stop callback takes out a member of its
    list only; and every list is well formed and holds the operations that wait, in
    the order in which they began to. -/
theorem waiters_completed_once (reach : Reach (machine upstream) Separate initial c) :
    (∀ op, (c.shared.ops op).completions.length ≤ 1) ∧
    ((∀ p, c.threads p = []) → ∀ op ∈ c.shared.pushed, (c.shared.ops op).completions = (c.shared.ops op).outcome) ∧
    (∀ p, (∀ op, p ≠ .starter op) → c.threads p ≠ [] → (machine upstream).next c (.run p) ≠ []) ∧
    (∀ p op rest, c.threads p = .erase op :: rest → op ∈ c.shared.waiting (c.shared.ops op).index) ∧
    ∀ i, Represents c.shared.links (c.shared.pending i) (c.shared.waiting i) := by
  have inv := invariant_reach reach
  refine ⟨inv.at_most_once,fun idle op known => ?_,fun p other busy => inv.progress other busy,fun p op rest left => ?_,
    inv.lists⟩
  · rcases inv.completions_outcome known with sent | ⟨_,p,busy⟩
    · exact sent
    · exact absurd (idle p) busy
  · cases p with
    | starter x =>
      have start := (inv.sound x).start
      rw [left] at start
      cases start
    | reclaimer k =>
      have take := inv.take k
      rw [left] at take
      cases take
    | stopper x =>
      have stop := (inv.sound x).stop
      rw [left] at stop
      cases stop with
      | erasing held _ untaken kept =>
        exact mem_waiting.mpr ⟨(inv.sound op).registered held,rfl,waits_iff.mpr ⟨untaken,kept⟩⟩

/-- `Separate`, computed. -/
def separate (c : Config Party Pool Instr) : Label Party Event → Bool
  | .run p =>
    match c.threads p with
    | .reclaim ptr :: _ => !(c.shared.ops (c.shared.pendingOf ptr).head).executing
    | _ => true
  | .call (.requestStop op) => !(c.shared.ops op).registered || (c.shared.ops op).taker.isNone
  | _ => true

theorem separate_of_computed (c : Config Party Pool Instr) (l : Label Party Event) (computed : separate c l = true) :
    Separate c l := by
  cases l with
  | run p =>
    intro ptr rest left
    simpa [separate,left] using computed
  | call e =>
    cases e with
    | requestStop op =>
      intro held
      simpa [separate,held] using computed
    | _ => trivial

/-- Operation 2 gets the only block; operations 1 and 3 wait; the block goes to
    operation 1 and operation 3 is stopped. -/
theorem waiters_completed_once_three : ∃ c : Config Party Pool Instr,
    (c.shared.ops 1).completions = [some 116] ∧ (c.shared.ops 3).completions = [none] ∧
      Represents c.shared.links (c.shared.pending 0) (c.shared.waiting 0) := by
  obtain ⟨c,reach,computed⟩ := exists_of_follow (machine fun op => if op = 2 then some 100 else none) Separate initial
    separate separate_of_computed
    [(.call (.start 2 0),0),(.run (.starter 2),0),(.run (.starter 2),0),(.call (.start 1 0),0),(.run (.starter 1),0),
      (.call (.start 3 0),0),(.run (.starter 3),0),(.call (.requestStop 3),0),(.run (.stopper 3),0),
      (.call (.deallocate 0 116),0),(.run (.reclaimer 0),0),(.run (.reclaimer 0),0),(.run (.reclaimer 0),0),
      (.run (.stopper 3),0),(.run (.stopper 3),0),(.run (.stopper 3),0)]
    (fun c => (c.shared.ops 1).completions = [some 116] ∧ (c.shared.ops 3).completions = [none]) (by decide)
  obtain ⟨first,third⟩ := of_decide_eq_true computed
  exact ⟨c,first,third,(waiters_completed_once reach).2.2.2.2 0⟩

/-- The stop callback of an operation that was just taken off the list runs before it
    is deregistered: it erases an operation that is no member, and the receiver is
    completed with stopped and then with the block. -/
theorem taken_waiter_stopped_and_served :
    ¬ ∀ c, Reach (machine fun op => if op = 2 then some 100 else none) Any initial c →
      (∀ op, (c.shared.ops op).completions.length ≤ 1) ∧
      (∀ p op rest, c.threads p = .erase op :: rest → op ∈ c.shared.waiting (c.shared.ops op).index) ∧
      ∀ i, Represents c.shared.links (c.shared.pending i) (c.shared.waiting i) := by
  intro claimed
  obtain ⟨c,reach,computed⟩ := exists_of_follow (machine fun op => if op = 2 then some 100 else none) Any initial
    (fun _ _ => true) (fun _ _ _ => trivial)
    [(.call (.start 2 0),0),(.run (.starter 2),0),(.run (.starter 2),0),(.call (.start 1 0),0),(.run (.starter 1),0),
      (.call (.deallocate 0 116),0),(.run (.reclaimer 0),0),(.call (.requestStop 1),0),(.run (.stopper 1),0),
      (.run (.stopper 1),0),(.run (.stopper 1),0),(.run (.reclaimer 0),0),(.run (.reclaimer 0),0)]
    (fun c => (c.shared.ops 1).completions = [none,some 116]) (by decide)
  have twice := (claimed c reach).1 1
  rw [of_decide_eq_true computed] at twice
  simp at twice

end SendersIo.PoolWaiters
