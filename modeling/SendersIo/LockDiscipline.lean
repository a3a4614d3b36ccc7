import SendersIo.PoolWaiters

/-!
The lock of the pool. A thread starts operations, gives back blocks and requests stops,
and so does every receiver that it completes on the way. The mutex is not recursive: a
thread that holds it must not lock it again, nor complete a receiver, which may do so.
The stop callback of an operation that has to wait is constructed under the lock.
-/
namespace SendersIo.LockDiscipline
open SendersIo.Interleaving SendersIo.IntrusiveLists SendersIo.SizeClasses
open SendersIo.PoolWaiters (Pool AllocateOperation)

/-- What a thread, or a receiver that it completes, may call: `allocate_operation::start`,
    `deallocate_operation::start`, and the stop source of an operation. -/
inductive Call where
  | start (op : Nat)
  | deallocate (k : Nat) (ptr : Nat)
  | requestStop (op : Nat)

/-- The instructions of these calls. What is under the lock is one instruction between
    `lock` and `unlock`, up to the construction of a stop callback. -/
inductive Instr where
  | lock
  | unlock
  | start (op : Nat)
  | emplaceStopCallback (op : Nat)
  | reclaim (k : Nat) (ptr : Nat)
  | resetCallback (op : Nat)
  | erase (op : Nat)
  | requestStop (op : Nat)
  | setValue (op : Nat) (base : Nat)
  | complete (op : Nat)
  | setStopped (op : Nat)
  | setDeallocated (k : Nat)
  deriving DecidableEq

/-- The pool, and the thread that holds `mutex_`. -/
structure System where
  pool : Pool
  owner : Option Nat

/-- What upstream returns to an operation, whether the stop token of an operation is
    requested while its callback is constructed, and what the receivers call when they are
    completed. -/
structure Environment where
  upstream : Nat → Option Nat
  during : Nat → Bool
  allocated : Nat → Option Nat → List Call
  deallocated : Nat → List Call

/-- The instructions of a call. -/
def program : Call → List Instr
  | .start op => [.lock,.start op]
  | .deallocate k ptr => if ptr = 0 then [.setDeallocated k] else [.lock,.reclaim k ptr,.setDeallocated k]
  | .requestStop op => [.requestStop op]

/-- `on_receiver_stop::operator()`. -/
def onReceiverStop (op : Nat) : List Instr := [.lock,.erase op,.unlock,.resetCallback op,.setStopped op]

/-- `allocate_operation::start` under the lock, up to the construction of the stop callback. -/
def start (upstream : Nat → Option Nat) (s : Pool) (op : Nat) : Pool × List Instr :=
  let o := s.ops op
  match s.blockLists o.index,upstream op with
  | base :: rest,_ => ({ s with blockLists := Function.update s.blockLists o.index rest },[.unlock,.setValue op base])
  | [],some base => ({ s with headers := Function.update s.headers base o.index },[.unlock,.setValue op base])
  | [],none =>
    let out := pushBack s.links (s.pending o.index) op
    ({ s with
        links := out.1, pending := Function.update s.pending o.index out.2, pushed := s.pushed ++ [op] },
      [.emplaceStopCallback op,.unlock])

/-- The callback is registered. -/
def register (s : Pool) (op : Nat) : Pool := s.modify op { s.ops op with registered := true }

/-- `memory_pool::reclaim_memory` under the lock, and what follows it. -/
def reclaim (s : Pool) (k ptr : Nat) : Pool × List Instr :=
  let i := s.headers (ptr - headerBytes)
  let list := s.pendingOf ptr
  if list.head = 0 then
    ({ s with blockLists := Function.update s.blockLists i ((ptr - headerBytes) :: s.blockLists i) },[.unlock])
  else
    let op := list.head
    let out := popFront s.links list
    ({ s with
        links := out.1, pending := Function.update s.pending i out.2
        ops := Function.update s.ops op { s.ops op with result := ptr, taker := some k } },
      [.unlock,.resetCallback op,.complete op])

/-- A receiver is completed, and calls what it calls. -/
def setCompletion (env : Environment) (s : System) (op : Nat) (signal : Option Nat) : System × List Instr :=
  ({ s with pool := s.pool.modify op { s.pool.ops op with completions := (s.pool.ops op).completions ++ [signal] } },
    (env.allocated op signal).flatMap program)

/-- The effect of an instruction. Whoever locks waits until nobody holds the lock. -/
def exec (env : Environment) (t : Nat) (i : Instr) (s : System) : List (System × List Instr) :=
  match i with
  | .lock => if s.owner = none then [({ s with owner := some t },[])] else []
  | .unlock => if s.owner = some t then [({ s with owner := none },[])] else []
  | .start op =>
    let out := start env.upstream s.pool op
    [({ s with pool := out.1 },out.2)]
  -- a callback that is constructed with a requested token runs at once
  | .emplaceStopCallback op =>
    [({ s with pool := register s.pool op },
      if (s.pool.ops op).stopRequested || env.during op then onReceiverStop op else [])]
  | .reclaim k ptr =>
    let out := reclaim s.pool k ptr
    [({ s with pool := out.1 },out.2)]
  | .resetCallback op => [({ s with pool := s.pool.modify op { s.pool.ops op with registered := false } },[])]
  | .erase op => [({ s with pool := PoolWaiters.stopErase s.pool op },[])]
  | .requestStop op =>
    [({ s with pool := s.pool.modify op { s.pool.ops op with stopRequested := true } },
      if (s.pool.ops op).registered then onReceiverStop op else [])]
  | .setValue op base => [setCompletion env s op (some (base + headerBytes))]
  | .complete op => [setCompletion env s op (if (s.pool.ops op).result = 0 then none else some (s.pool.ops op).result)]
  | .setStopped op => [setCompletion env s op none]
  | .setDeallocated k => [(s,(env.deallocated k).flatMap program)]

/-- Any thread may call anything when it is idle. -/
def machine (env : Environment) : Machine Nat System Instr (Nat × Call) where
  exec := exec env
  accept e s := some (s,program e.2)
  party e := e.1

/-- The instruction completes a receiver. -/
def Instr.completes : Instr → Bool
  | .setValue _ _ | .complete _ | .setStopped _ | .setDeallocated _ => true
  | _ => false

/-- No thread that holds the lock is about to lock it again, or to complete a receiver. -/
def Disciplined (c : Config Nat System Instr) : Prop :=
  ∀ t i rest, c.threads t = i :: rest → c.shared.owner = some t → i ≠ .lock ∧ i.completes = false

/-- The stop token of an operation whose callback is constructed is not requested, neither
    before nor meanwhile. -/
def Quiet (env : Environment) (c : Config Nat System Instr) (l : Label Nat (Nat × Call)) : Prop :=
  ∀ t op rest, l = .run t → c.threads t = .emplaceStopCallback op :: rest →
    (c.shared.pool.ops op).stopRequested = false ∧ env.during op = false

/-! ### Who holds the lock -/

/-- Whether a thread holds the lock when it executes the instruction. -/
def Instr.before : Instr → Bool
  | .unlock | .start _ | .emplaceStopCallback _ | .reclaim _ _ | .erase _ => true
  | _ => false

/-- Whether it holds the lock when it is done with the instruction and what that leads to. -/
def Instr.after : Instr → Bool
  | .lock | .emplaceStopCallback _ | .erase _ => true
  | _ => false

/-- What a thread has left takes and releases the lock in turn. -/
def Balanced : Bool → List Instr → Prop
  | held,[] => held = false
  | held,i :: rest => held = i.before ∧ Balanced i.after rest

/-- The thread holds the lock. -/
def holds (s : System) (t : Nat) : Bool := s.owner = some t

variable {env : Environment} {s s' : System} {c c₀ : Config Nat System Instr} {t : Nat} {i : Instr} {rest new : List Instr}
  {held : Bool} {steps : List (Config Nat System Instr × Label Nat (Nat × Call))}

theorem balanced_program (call : Call) (balanced : Balanced false rest) : Balanced false (program call ++ rest) := by
  cases call with
  | start op => exact ⟨rfl,rfl,balanced⟩
  | deallocate k ptr =>
    rw [program]
    split
    · exact ⟨rfl,balanced⟩
    · exact ⟨rfl,rfl,rfl,balanced⟩
  | requestStop op => exact ⟨rfl,balanced⟩

theorem balanced_calls (calls : List Call) (balanced : Balanced false rest) :
    Balanced false (calls.flatMap program ++ rest) := by
  induction calls with
  | nil => exact balanced
  | cons call calls ih =>
    rw [List.flatMap_cons,List.append_assoc]
    exact balanced_program call ih

/-- Only `lock` and `unlock` change the owner. -/
theorem exec_owner (ran : (s',new) ∈ exec env t i s) :
    s'.owner = match i with
      | .lock => some t
      | .unlock => none
      | _ => s.owner := by
  cases i <;> simp only [exec,setCompletion] at ran
  case lock | unlock =>
    split at ran
    · cases List.mem_singleton.mp ran
      rfl
    · cases ran
  all_goals
    cases List.mem_singleton.mp ran
    rfl

/-- A step leaves the lock with the others who hold it. -/
theorem exec_others (ran : (s',new) ∈ exec env t i s) {u : Nat} (other : u ≠ t) : holds s' u = holds s u := by
  have owner := exec_owner ran
  cases i <;> simp only at owner
  case lock =>
    simp only [exec] at ran
    split at ran
    · rename_i free
      simp [holds,owner,free,Ne.symm other]
    · cases ran
  case unlock =>
    simp only [exec] at ran
    split at ran
    · rename_i mine
      simp [holds,owner,mine,Ne.symm other]
    · cases ran
  all_goals rw [holds,owner,holds]

/-- A step keeps the balance, unless it runs a stop callback under the lock. -/
theorem exec_balanced (ran : (s',new) ∈ exec env t i s) (balanced : Balanced (holds s t) (i :: rest))
    (quiet : ∀ op, i = .emplaceStopCallback op → (s.pool.ops op).stopRequested = false ∧ env.during op = false) :
    Balanced (holds s' t) (new ++ rest) := by
  have owner := exec_owner ran
  obtain ⟨before,later⟩ := balanced
  cases i <;> simp only [exec,setCompletion] at ran <;> simp only at owner
  case lock =>
    split at ran
    · cases List.mem_singleton.mp ran
      have mine : holds { s with owner := some t } t = true := by simp [holds]
      rw [mine]
      exact later
    · cases ran
  case unlock =>
    split at ran
    · cases List.mem_singleton.mp ran
      exact later
    · cases ran
  case start op =>
    cases List.mem_singleton.mp ran
    have mine : holds { s with pool := (start env.upstream s.pool op).1 } t = true := before
    rw [mine]
    simp only [start]
    split
    · exact ⟨rfl,rfl,later⟩
    · exact ⟨rfl,rfl,later⟩
    · exact ⟨rfl,rfl,later⟩
  case emplaceStopCallback op =>
    cases List.mem_singleton.mp ran
    obtain ⟨unrequested,outside⟩ := quiet op rfl
    have mine : holds { s with pool := register s.pool op } t = true := before
    rw [mine,unrequested,outside]
    exact later
  case reclaim k ptr =>
    cases List.mem_singleton.mp ran
    have mine : holds { s with pool := (reclaim s.pool k ptr).1 } t = true := before
    rw [mine]
    simp only [reclaim]
    split
    · exact ⟨rfl,later⟩
    · exact ⟨rfl,rfl,rfl,later⟩
  case erase op =>
    cases List.mem_singleton.mp ran
    have mine : holds { s with pool := PoolWaiters.stopErase s.pool op } t = true := before
    rw [mine]
    exact later
  all_goals
    cases List.mem_singleton.mp ran
    have mine : holds s t = false := before
    rw [holds,owner,← holds,mine]
  case resetCallback => exact later
  case requestStop =>
    split
    · exact ⟨rfl,rfl,rfl,rfl,rfl,later⟩
    · exact later
  all_goals exact balanced_calls _ later

/-- What every thread has left takes and releases the lock in turn. -/
def AllBalanced (c : Config Nat System Instr) : Prop := ∀ t, Balanced (holds c.shared t) (c.threads t)

theorem run_balanced (balanced : AllBalanced c) (left : c.threads t = i :: rest)
    (ran : (s,new) ∈ exec env t i c.shared) (quiet : Quiet env c (.run t)) : AllBalanced (c.put t s (new ++ rest)) := by
  intro u
  rw [put_shared,put_threads]
  split
  · rename_i same
    subst same
    have mine := balanced u
    rw [left] at mine
    exact exec_balanced ran mine fun op here => quiet u op rest rfl (by rw [left,here])
  · rename_i other
    rw [exec_others ran other]
    exact balanced u

theorem call_balanced (balanced : AllBalanced c) (idle : c.threads t = []) (call : Call) :
    AllBalanced (c.put t c.shared (program call)) := by
  intro u
  rw [put_shared,put_threads]
  split
  · rename_i same
    subst same
    have mine := balanced u
    rw [idle] at mine
    change holds c.shared u = false at mine
    rw [mine]
    have called : Balanced false (program call ++ []) := balanced_program call rfl
    rwa [List.append_nil] at called
  · exact balanced u

theorem disciplined_of_balanced (balanced : AllBalanced c) : Disciplined c := by
  intro t i rest left mine
  have here := balanced t
  rw [left] at here
  have held : i.before = true := here.1.symm.trans (by simp [holds,mine])
  cases i <;> simp_all [Instr.before,Instr.completes]

/-- A stop callback that runs under the lock is about to lock it again. -/
theorem undisciplined_of_requested {op : Nat} (balanced : AllBalanced c) (left : c.threads t = .emplaceStopCallback op :: rest)
    (ran : (s,new) ∈ exec env t (.emplaceStopCallback op) c.shared)
    (requested : ¬ ((c.shared.pool.ops op).stopRequested = false ∧ env.during op = false)) :
    ¬ Disciplined (c.put t s (new ++ rest)) := by
  intro disciplined
  have mine := balanced t
  rw [left] at mine
  have held : c.shared.owner = some t := by simpa [holds,Instr.before] using mine.1
  simp only [exec] at ran
  cases List.mem_singleton.mp ran
  have runs : ((c.shared.pool.ops op).stopRequested || env.during op) = true := by
    by_contra quiet
    exact requested (by simpa using quiet)
  have again := disciplined t .lock ([.erase op,.unlock,.resetCallback op,.setStopped op] ++ rest)
    (by rw [put_threads_self,runs]; rfl) held
  exact again.1 rfl

/-- As long as no stop callback runs under the lock, all is balanced; once one has, a state
    was not disciplined. -/
def Followed (env : Environment) (steps : List (Config Nat System Instr × Label Nat (Nat × Call)))
    (c : Config Nat System Instr) : Prop :=
  (∀ step ∈ steps, Quiet env step.1 step.2) ∧ (∀ step ∈ steps, Disciplined step.1) ∧ AllBalanced c ∨
  (¬ ∀ step ∈ steps, Quiet env step.1 step.2) ∧ ¬ ((∀ step ∈ steps, Disciplined step.1) ∧ Disciplined c)

theorem Followed.step {l : Label Nat (Nat × Call)} {c' : Config Nat System Instr} (followed : Followed env steps c)
    (quiet : AllBalanced c → Quiet env c l → AllBalanced c')
    (loud : AllBalanced c → ¬ Quiet env c l → ¬ Disciplined c') : Followed env (steps ++ [(c,l)]) c' := by
  simp only [Followed,List.forall_mem_append,List.forall_mem_singleton]
  rcases followed with ⟨before,disciplined,balanced⟩ | ⟨requested,broken⟩
  · by_cases now : Quiet env c l
    · exact .inl ⟨⟨before,now⟩,⟨disciplined,disciplined_of_balanced balanced⟩,quiet balanced now⟩
    · exact .inr ⟨fun all => now all.2,fun all => loud balanced now all.2⟩
  · exact .inr ⟨fun all => requested all.1,fun all => broken all.1⟩

theorem followed_run (idle : ∀ t, c₀.threads t = []) (free : c₀.shared.owner = none)
    (run : Run (machine env) Any c₀ steps c) : Followed env steps c := by
  refine run.invariant (I := Followed env) ?_ ?_ ?_
  · refine .inl ⟨by simp,by simp,fun t => ?_⟩
    rw [idle]
    simp [Balanced,holds,free]
  · intro steps c t i rest s new _ followed _ left ran
    refine followed.step (fun balanced quiet => run_balanced balanced left ran quiet) fun balanced requested => ?_
    simp only [Quiet,not_forall] at requested
    obtain ⟨u,op,more,same,here,requested⟩ := requested
    cases same
    obtain ⟨rfl,rfl⟩ := List.cons.inj (left.symm.trans here)
    exact undisciplined_of_requested balanced left ran requested
  · intro steps c e s prog _ followed _ idle accepted
    cases accepted
    refine followed.step (fun balanced _ => call_balanced balanced idle e.2) fun _ requested => absurd ?_ requested
    intro _ _ _ same
    cases same

/-- From any pool whose lock nobody holds, and whatever the threads and the receivers call:
    no thread locks the mutex that it holds, or completes a receiver while it does, in any
    state of a run, if and only if no stop callback is constructed in it whose token is
    requested. -/
theorem lock_discipline_iff (idle : ∀ t, c₀.threads t = []) (free : c₀.shared.owner = none)
    (run : Run (machine env) Any c₀ steps c) :
    (∀ step ∈ steps, Disciplined step.1) ∧ Disciplined c ↔ ∀ step ∈ steps, Quiet env step.1 step.2 := by
  rcases followed_run idle free run with ⟨quiet,disciplined,balanced⟩ | ⟨requested,broken⟩
  · exact iff_of_true ⟨disciplined,disciplined_of_balanced balanced⟩ quiet
  · exact iff_of_false broken requested

/-- Operation 1 gets the only block of upstream and operation 2 waits; the receiver of a
    block that is given back starts operation 3. -/
def threeOperations : Environment where
  upstream op := if op = 1 then some 100 else none
  during _ := false
  allocated op _ := if op = 2 then [.start 3] else []
  deallocated _ := []

/-- The constructed pool, with the stop tokens of some operations requested. -/
def initial (requested : Nat → Bool) : Config Nat System Instr where
  shared :=
    ⟨{ PoolWaiters.initial.shared with
        ops := fun op => { PoolWaiters.initial.shared.ops op with stopRequested := requested op } },none⟩
  threads _ := []

/-- `Quiet`, computed. -/
def quiet (env : Environment) (c : Config Nat System Instr) : Label Nat (Nat × Call) → Bool
  | .run t =>
    match c.threads t with
    | .emplaceStopCallback op :: _ => !(c.shared.pool.ops op).stopRequested && !env.during op
    | _ => true
  | .call _ => true

theorem quiet_of_computed {l : Label Nat (Nat × Call)} (computed : quiet env c l = true) : Quiet env c l := by
  intro t op rest same left
  subst same
  simpa [quiet,left] using computed

/-- The three operations on one thread. -/
theorem lock_discipline_three : ∃ steps c, Run (machine threeOperations) Any (initial fun _ => false) steps c ∧
    (c.shared.pool.ops 2).completions = [some 116] ∧ (c.shared.pool.ops 3).registered = true ∧
    (∀ step ∈ steps, Disciplined step.1) ∧ Disciplined c := by
  obtain ⟨steps,c,run,computed⟩ := exists_run_of_follow (machine threeOperations) Any (initial fun _ => false)
    (fun _ _ => true) (fun _ _ _ => trivial)
    ((.call (0,.start 1),0) :: List.replicate 4 (.run 0,0) ++ (.call (0,.start 2),0) :: List.replicate 4 (.run 0,0) ++
      (.call (0,.deallocate 0 116),0) :: List.replicate 10 (.run 0,0))
    (fun steps c => (steps.all fun step => quiet threeOperations step.1 step.2) ∧
      (c.shared.pool.ops 2).completions = [some 116] ∧ (c.shared.pool.ops 3).registered = true) (by decide)
  obtain ⟨all,served,waits⟩ := of_decide_eq_true computed
  exact ⟨steps,c,run,served,waits,(lock_discipline_iff (fun _ => rfl) rfl run).mpr fun step member =>
    quiet_of_computed (List.all_eq_true.mp all step member)⟩

/-- An operation that has to wait and whose token is already requested: its callback waits
    for the lock that its thread holds. -/
theorem requested_callback_relocks :
    ¬ ∀ steps c, Run (machine threeOperations) Any (initial fun op => op = 2) steps c → Disciplined c := by
  intro claimed
  obtain ⟨steps,c,run,computed⟩ := exists_run_of_follow (machine threeOperations) Any (initial fun op => op = 2)
    (fun _ _ => true) (fun _ _ _ => trivial) ((.call (0,.start 2),0) :: List.replicate 3 (.run 0,0))
    (fun _ c => (c.threads 0).head? = some .lock ∧ c.shared.owner = some 0) (by decide)
  obtain ⟨first,mine⟩ := of_decide_eq_true computed
  obtain ⟨rest,left⟩ := List.head?_eq_some_iff.mp first
  exact (claimed steps c run 0 .lock rest left mine).1 rfl

/-! ### The pool of the operations that wait -/

/-- A start whose stop token is not requested does to the pool what it does where the
    critical section is one step. -/
theorem start_of_unrequested {upstream : Nat → Option Nat} {s : Pool} {op : Nat}
    (unrequested : (s.ops op).stopRequested = false) :
    (PoolWaiters.start upstream s op).map Prod.fst =
      [if .emplaceStopCallback op ∈ (start upstream s op).2 then register (start upstream s op).1 op
        else (start upstream s op).1] := by
  cases blocks : s.blockLists (s.ops op).index with
  | cons base free => simp [PoolWaiters.start,start,blocks]
  | nil =>
    cases got : upstream op with
    | some base => simp [PoolWaiters.start,start,blocks,got]
    | none => simp [PoolWaiters.start,start,blocks,got,unrequested,register,Pool.modify]

theorem reclaim_eq (s : Pool) (k ptr : Nat) :
    (PoolWaiters.reclaim s k ptr).map Prod.fst = [(reclaim s k ptr).1] := by
  simp only [PoolWaiters.reclaim,reclaim]
  split <;> rfl

end SendersIo.LockDiscipline
