import Mathlib.Data.List.Pairwise
import SendersIo.Interleaving
import SendersIo.Signals

/-!
Repeating a sequence. The operation tests the stop token, subscribes to the sequence anew and
starts it; when the child completes with a value, the same happens again. A child may
complete on any thread, and before its start has returned: then the handler of the next round
runs inside the start of the last one.
-/
namespace SendersIo.Repeat
open SendersIo.Interleaving SendersIo.Signals

/-- What `op_` holds: nothing, or the child of the latest round. -/
inductive Child where
  | absent
  | constructed
  | started
  | completed
  deriving DecidableEq

/-- `repeat_::operation` and what happened to it so far: the number of subscriptions, how their
    children completed, and how many were started when stop was requested. -/
structure Operation (Error : Type) where
  stopRequested : Bool
  begun : Bool
  child : Child
  subscriptions : Nat
  results : List (Signal Error)
  startedAtStop : Option Nat
  completions : List (Signal Error)

/-- Who runs the handler that begins a round: for the first one that is `start`. -/
inductive Party where
  | round (k : Nat)
  | stop
  deriving DecidableEq

/-- The atomic steps of the handlers. At `starting`, the start of the child has not returned. -/
inductive Instr (Error : Type) where
  | testStop
  | emplace
  | start
  | starting
  | setValue
  | setStopped
  | setError (e : Error)
  deriving DecidableEq

inductive Event (Error : Type) where
  | start
  | childValue (k : Nat)
  | childStopped (k : Nat)
  | childError (k : Nat) (e : Error)
  | requestStop

variable {Error : Type}

/-- How many children have been started. -/
def Operation.started (s : Operation Error) : Nat :=
  if s.child = .constructed then s.subscriptions - 1 else s.subscriptions

/-- `operation::repeat`, and what the receiver of a child does. A subscription throws the
    exception, if there is one. -/
def exec (exception : Option Error) (_ : Party) :
    Instr Error → Operation Error → List (Operation Error × List (Instr Error))
  | .testStop,s => [(s,if s.stopRequested then [.setValue] else [.emplace])]
  | .emplace,s =>
    ({ s with child := .constructed, subscriptions := s.subscriptions + 1 },[.start]) ::
      exception.toList.map fun e => ({ s with child := .absent },[.setError e])
  | .start,s => [({ s with child := .started },[.starting])]
  | .starting,s => [(s,[])]
  | .setValue,s => [({ s with completions := s.completions ++ [.value ()] },[])]
  | .setStopped,s => [({ s with completions := s.completions ++ [setValueUnlessStopped s.stopRequested] },[])]
  | .setError e,s => [({ s with completions := s.completions ++ [.error e] },[])]

/-- The child of a round completes, once it has been started. -/
def childCompletes (s : Operation Error) (k : Nat) (result : Signal Error) (next : Instr Error) :
    Option (Operation Error × List (Instr Error)) :=
  if s.child = .started ∧ s.subscriptions = k + 1 then
    some ({ s with child := .completed, results := s.results ++ [result] },[next])
  else none

def accept : Event Error → Operation Error → Option (Operation Error × List (Instr Error))
  | .start,s => if s.begun then none else some ({ s with begun := true },[.testStop])
  | .childValue k,s => childCompletes s k (.value ()) .testStop
  | .childStopped k,s => childCompletes s k .stopped .setStopped
  | .childError k e,s => childCompletes s k (.error e) (.setError e)
  | .requestStop,s =>
    if s.stopRequested then none
    else some ({ s with stopRequested := true, startedAtStop := some s.started },[])

def machine (exception : Option Error) : Machine Party (Operation Error) (Instr Error) (Event Error) where
  exec := exec exception
  accept := accept
  party
    | .start => .round 0
    | .childValue k | .childStopped k | .childError k _ => .round (k + 1)
    | .requestStop => .stop

def initial (Error : Type) : Config Party (Operation Error) (Instr Error) :=
  ⟨⟨false,false,.absent,0,[],none,[]⟩,fun _ => []⟩

/-- The code that a handler calls. -/
def callout : Instr Error → Bool
  | .starting => true
  | _ => false

/-! ### What holds between the steps -/

/-- A number of rounds that went on. -/
def values (Error : Type) (n : Nat) : List (Signal Error) := List.replicate n (.value ())

/-- All children have completed with a value. -/
structure Between (s : Operation Error) (k : Nat) : Prop where
  child : s.child = .absent ∨ s.child = .completed
  rounds : s.subscriptions = k
  results : s.results = values Error k

/-- The last child has completed in another way. -/
structure Ended (s : Operation Error) (result : Signal Error) : Prop where
  child : s.child = .completed
  last : ∃ n, s.subscriptions = n + 1 ∧ s.results = values Error n ++ [result]

/-- What the handler that begins a round is at. -/
inductive Doing (exception : Option Error) (s : Operation Error) (k : Nat) : Instr Error → Prop
  | testStop : Between s k → Doing exception s k .testStop
  | emplace : Between s k → (∀ n, s.startedAtStop = some n → n = k) → Doing exception s k .emplace
  | start : s.child = .constructed → s.subscriptions = k + 1 → s.results = values Error k →
      (∀ n, s.startedAtStop = some n → n = k) → Doing exception s k .start
  | setValue : Between s k → s.stopRequested = true → Doing exception s k .setValue
  | setStopped : Ended s .stopped → Doing exception s k .setStopped
  | setError {e : Error} : Ended s (.error e) ∨ exception = some e ∧ Between s k → Doing exception s k (.setError e)

/-- Why the receiver was completed as it was. -/
def Outcome (exception : Option Error) (s : Operation Error) : Signal Error → Prop
  | .value () => s.stopRequested = true ∧ Between s s.subscriptions ∨ Ended s .stopped
  | .stopped => s.stopRequested = true ∧ Ended s .stopped
  | .error e => Ended s (.error e) ∨ exception = some e ∧ Between s s.subscriptions

/-- A handler that is not active, or has started its child. -/
def Returning (prog : List (Instr Error)) : Prop := prog = [] ∨ prog = [.starting]

/-- Where the operation is: one handler is active, or the child runs, or neither is the case
    because the operation has not begun or has completed. -/
inductive Stage (exception : Option Error) (c : Config Party (Operation Error) (Instr Error)) : Prop
  | fresh : c.shared.begun = false → Between c.shared 0 → c.shared.completions = [] → (∀ q, c.threads q = []) →
      Stage exception c
  | handling {k : Nat} {i : Instr Error} : c.shared.begun = true → c.threads (.round k) = [i] →
      Doing exception c.shared k i → c.shared.completions = [] → (∀ q, q ≠ .round k → Returning (c.threads q)) →
      Stage exception c
  | child {n : Nat} : c.shared.begun = true → c.shared.child = .started → c.shared.subscriptions = n + 1 →
      c.shared.results = values Error n → c.shared.completions = [] → (∀ q, Returning (c.threads q)) → Stage exception c
  | done {result : Signal Error} : c.shared.begun = true → c.shared.child ≠ .started → c.shared.completions = [result] →
      Outcome exception c.shared result → (∀ q, Returning (c.threads q)) → Stage exception c

/-- How many children are started after stop was requested. -/
def Bounded (s : Operation Error) : Prop :=
  (s.stopRequested = true ↔ s.startedAtStop.isSome = true) ∧
  ∀ n, s.startedAtStop = some n → n ≤ s.started ∧ s.started ≤ n + 1

structure Invariant (exception : Option Error) (c : Config Party (Operation Error) (Instr Error)) : Prop where
  stage : Stage exception c
  bounded : Bounded c.shared

variable {exception : Option Error} {c : Config Party (Operation Error) (Instr Error)} {p : Party} {i : Instr Error}
  {rest new prog : List (Instr Error)} {s : Operation Error} {e : Event Error} {k n : Nat} {result : Signal Error}

theorem initial_invariant : Invariant exception (initial Error) :=
  ⟨.fresh rfl ⟨by simp [initial],rfl,rfl⟩ rfl fun _ => rfl,by simp [Bounded,initial]⟩

theorem returning_put (others : ∀ q, q ≠ p → Returning (c.threads q)) (here : Returning prog) (q : Party) :
    Returning ((c.put p s prog).threads q) := by
  by_cases same : q = p
  · subst same
    rwa [put_threads_self]
  · rw [put_threads_ne c same]
    exact others q same

theorem Between.not_started (between : Between s k) : s.child ≠ .started := by
  rcases between.child with child | child <;> simp [child]

theorem Between.started (between : Between s k) : s.started = s.subscriptions := by
  rcases between.child with child | child <;> simp [Operation.started,child]

theorem Bounded.same {s' : Operation Error} (bounded : Bounded s) (stop : s'.stopRequested = s.stopRequested)
    (atStop : s'.startedAtStop = s.startedAtStop) (started : s'.started = s.started) : Bounded s' := by
  unfold Bounded
  rw [stop,atStop,started]
  exact bounded

theorem Ended.not_started (ended : Ended s result) : s.child ≠ .started := by
  simp [ended.child]

theorem Doing.not_started (doing : Doing exception s k i) : s.child ≠ .started := by
  cases doing with
  | testStop between | emplace between _ | setValue between _ => exact between.not_started
  | start constructed _ _ _ => simp [constructed]
  | setStopped ended => exact ended.not_started
  | setError why => exact why.elim Ended.not_started fun thrown => thrown.2.not_started

theorem Outcome.not_started : (result : Signal Error) → Outcome exception s result → s.child ≠ .started
  | .value () => fun why => why.elim (fun stopped => stopped.2.not_started) Ended.not_started
  | .stopped => fun why => why.2.not_started
  | .error _ => fun why => why.elim Ended.not_started fun thrown => thrown.2.not_started

theorem Outcome.sent {sent : List (Signal Error)} : {result : Signal Error} → Outcome exception s result →
    Outcome exception { s with completions := sent } result
  | .value () => fun why => why.imp (fun stopped => ⟨stopped.1,stopped.2.child,stopped.2.rounds,stopped.2.results⟩)
      fun ended => ⟨ended.child,ended.last⟩
  | .stopped => fun why => ⟨why.1,why.2.child,why.2.last⟩
  | .error _ => fun why => why.imp (fun ended => ⟨ended.child,ended.last⟩)
      fun thrown => ⟨thrown.1,thrown.2.child,thrown.2.rounds,thrown.2.results⟩

/-- A party that has more left than the return of a start is the one that handles. -/
theorem handling_of_left (stage : Stage exception c) (left : c.threads p = i :: rest) (active : i ≠ .starting) :
    ∃ k, p = .round k ∧ rest = [] ∧ c.shared.begun = true ∧ Doing exception c.shared k i ∧
      c.shared.completions = [] ∧ ∀ q, q ≠ p → Returning (c.threads q) := by
  have busy : ¬ Returning (c.threads p) := by
    rintro (none | returns)
    · simp [left] at none
    · rw [left] at returns
      exact active (List.cons.inj returns).1
  cases stage with
  | fresh _ _ _ idle => exact absurd (.inl (idle p)) busy
  | @handling k j begun here doing silent others =>
    by_cases same : p = .round k
    · subst same
      obtain ⟨rfl,rfl⟩ := List.cons.inj (left.symm.trans here)
      exact ⟨k,rfl,rfl,begun,doing,silent,others⟩
    · exact absurd (others p same) busy
  | child _ _ _ _ _ returning => exact absurd (returning p) busy
  | done _ _ _ _ returning => exact absurd (returning p) busy

/-- Only the child runs when a child completes. -/
theorem child_of_started (stage : Stage exception c) (started : c.shared.child = .started) :
    ∃ n, c.shared.begun = true ∧ c.shared.subscriptions = n + 1 ∧ c.shared.results = values Error n ∧
      c.shared.completions = [] ∧ ∀ q, Returning (c.threads q) := by
  cases stage with
  | fresh _ between _ _ => exact absurd started between.not_started
  | handling _ _ doing _ _ => exact absurd started doing.not_started
  | child begun _ count results silent returning => exact ⟨_,begun,count,results,silent,returning⟩
  | done _ other _ _ _ => exact absurd started other

/-! ### What a step keeps -/

/-- A handler does nothing after the start of its child. -/
theorem nothing_after_start (stage : Stage exception c) (left : c.threads p = .starting :: rest) : rest = [] := by
  have last : Returning (c.threads p) → rest = [] := by
    rintro (none | returns)
    · simp [left] at none
    · rw [left] at returns
      exact (List.cons.inj returns).2
  cases stage with
  | fresh _ _ _ idle => exact absurd (idle p) (by simp [left])
  | @handling k j _ here doing _ others =>
    by_cases same : p = .round k
    · subst same
      rw [here] at left
      exact (List.cons.inj left).2.symm
    · exact last (others p same)
  | child _ _ _ _ _ returning | done _ _ _ _ returning => exact last (returning p)

/-- The start of a child returns. -/
theorem returned_keeps (stage : Stage exception c) (left : c.threads p = .starting :: rest) :
    Stage exception (c.put p c.shared rest) := by
  obtain rfl := nothing_after_start stage left
  cases stage with
  | fresh _ _ _ idle => exact absurd (idle p) (by simp [left])
  | @handling k j begun here doing silent others =>
    have other : p ≠ .round k := by
      rintro rfl
      rw [here] at left
      obtain ⟨rfl,_⟩ := List.cons.inj left
      cases doing
    refine .handling begun ((put_threads_ne c other.symm _ _).trans here) doing silent fun q different => ?_
    by_cases same : q = p
    · subst same
      rw [put_threads_self]
      exact .inl rfl
    · rw [put_threads_ne c same]
      exact others q different
  | child begun started count results silent returning =>
    exact .child begun started count results silent (returning_put (fun q _ => returning q) (.inl rfl))
  | done begun other sent why returning =>
    exact .done begun other sent why (returning_put (fun q _ => returning q) (.inl rfl))

/-- The party of the stop request has nothing to do. -/
theorem stop_idle (reach : Reach (machine exception) Any (initial Error) c) : c.threads .stop = [] := by
  refine reach.invariant (I := fun c => c.threads .stop = []) rfl ?_ ?_
  · intro c p i rest s new idle _ left _
    have other : .stop ≠ p := by
      rintro rfl
      simp [idle] at left
    rw [put_threads_ne c other]
    exact idle
  · intro c e s prog idle _ _ accepted
    cases e with
    | requestStop =>
      simp only [machine,accept] at accepted
      split at accepted
      · cases accepted
      · obtain ⟨rfl,rfl⟩ := Prod.mk.inj (Option.some.inj accepted)
        exact put_threads_self c _ _ _
    | _ => exact (put_threads_ne c (by simp [machine]) _ _).trans idle

/-- A handler goes on. -/
theorem handler_keeps (begun : s.begun = true) (doing : Doing exception s k i) (silent : s.completions = [])
    (others : ∀ q, q ≠ .round k → Returning (c.threads q)) : Stage exception (c.put (.round k) s [i]) :=
  .handling begun (put_threads_self c _ _ _) doing silent fun q different => by
    rw [put_threads_ne c different]
    exact others q different

/-- A handler completes the receiver. -/
theorem completion_keeps (begun : s.begun = true) (why : Outcome exception s result) (sent : s.completions = [result])
    (others : ∀ q, q ≠ p → Returning (c.threads q)) : Stage exception (c.put p s []) :=
  .done begun (why.not_started result) sent why (returning_put others (.inl rfl))

theorem run_keeps (inv : Invariant exception c) (left : c.threads p = i :: rest)
    (ran : (s,new) ∈ exec exception p i c.shared) : Invariant exception (c.put p s (new ++ rest)) := by
  by_cases active : i = .starting
  · subst active
    obtain ⟨rfl,rfl⟩ := Prod.mk.inj (List.mem_singleton.mp ran)
    exact ⟨returned_keeps inv.stage left,inv.bounded⟩
  obtain ⟨k,rfl,rfl,begun,doing,silent,others⟩ := handling_of_left inv.stage left active
  rw [List.append_nil]
  cases doing with
  | testStop between =>
    obtain ⟨rfl,rfl⟩ := Prod.mk.inj (List.mem_singleton.mp ran)
    refine ⟨?_,inv.bounded⟩
    split
    · next stop => exact handler_keeps begun (.setValue between stop) silent others
    · next going =>
      refine handler_keeps begun (.emplace between fun n stopped => ?_) silent others
      exact absurd (inv.bounded.1.mpr (by simp [stopped])) going
  | emplace between early =>
    obtain ran | ran := List.mem_cons.mp ran
    · obtain ⟨rfl,rfl⟩ := Prod.mk.inj ran
      have subscribed := congrArg (· + 1) between.rounds
      exact ⟨handler_keeps begun (.start rfl subscribed between.results early) silent others,
        inv.bounded.same rfl rfl (by rw [between.started]; simp [Operation.started])⟩
    · obtain ⟨e,thrown,same⟩ := List.mem_map.mp ran
      obtain ⟨rfl,rfl⟩ := Prod.mk.inj same
      have between' : Between { c.shared with child := .absent } k := ⟨.inl rfl,between.rounds,between.results⟩
      exact ⟨handler_keeps begun (.setError (.inr ⟨Option.mem_toList.mp thrown,between'⟩)) silent others,
        inv.bounded.same rfl rfl (by rw [between.started]; simp [Operation.started])⟩
  | start constructed count results early =>
    obtain ⟨rfl,rfl⟩ := Prod.mk.inj (List.mem_singleton.mp ran)
    refine ⟨.child begun rfl count results silent (returning_put others (.inr rfl)),inv.bounded.1,fun n stopped => ?_⟩
    obtain rfl := early n stopped
    have started : Operation.started { c.shared with child := .started } = n + 1 := count
    exact ⟨started ▸ Nat.le_succ n,Nat.le_of_eq started⟩
  | setValue between stop =>
    obtain ⟨rfl,rfl⟩ := Prod.mk.inj (List.mem_singleton.mp ran)
    have same : Between c.shared c.shared.subscriptions := ⟨between.child,rfl,between.rounds ▸ between.results⟩
    have why : Outcome exception c.shared (.value ()) := .inl ⟨stop,same⟩
    exact ⟨completion_keeps begun why.sent (by simp [silent]) others,inv.bounded⟩
  | setStopped ended =>
    obtain ⟨rfl,rfl⟩ := Prod.mk.inj (List.mem_singleton.mp ran)
    have why : Outcome exception c.shared (setValueUnlessStopped c.shared.stopRequested) := by
      unfold setValueUnlessStopped
      split
      · next stop => exact ⟨stop,ended⟩
      · exact .inr ended
    exact ⟨completion_keeps begun why.sent (by simp [silent]) others,inv.bounded⟩
  | @setError e why =>
    obtain ⟨rfl,rfl⟩ := Prod.mk.inj (List.mem_singleton.mp ran)
    have why : Outcome exception c.shared (.error e) := by
      refine why.imp_right ?_
      rintro ⟨thrown,between⟩
      exact ⟨thrown,between.child,rfl,between.rounds ▸ between.results⟩
    exact ⟨completion_keeps begun why.sent (by simp [silent]) others,inv.bounded⟩

/-- A child completes, and its receiver begins the handler of the next round. -/
theorem childCompletes_keeps {i : Instr Error} (inv : Invariant exception c)
    (accepted : childCompletes c.shared k result i = some (s,prog))
    (doing : ∀ s : Operation Error, s.child = .completed → s.subscriptions = k + 1 →
      s.results = values Error k ++ [result] → Doing exception s (k + 1) i) :
    Invariant exception (c.put (.round (k + 1)) s prog) := by
  unfold childCompletes at accepted
  split at accepted
  · next running =>
    obtain ⟨rfl,rfl⟩ := Prod.mk.inj (Option.some.inj accepted)
    obtain ⟨n,begun,count,results,silent,returning⟩ := child_of_started inv.stage running.1
    obtain rfl : n = k := by omega
    exact ⟨handler_keeps begun (doing _ rfl running.2 (by simp [results])) silent fun q _ => returning q,
      inv.bounded.same rfl rfl (by simp [Operation.started,running.1])⟩
  · cases accepted

/-- The operation after a request to stop. -/
def stopped (s : Operation Error) : Operation Error :=
  { s with stopRequested := true, startedAtStop := some s.started }

theorem Doing.stopped (doing : Doing exception s k i) : Doing exception (stopped s) k i := by
  cases doing with
  | testStop between => exact .testStop ⟨between.child,between.rounds,between.results⟩
  | emplace between _ =>
    refine .emplace ⟨between.child,between.rounds,between.results⟩ fun n same => ?_
    rw [← Option.some.inj same,between.started]
    exact between.rounds
  | start constructed count results _ =>
    refine .start constructed count results fun n same => ?_
    rw [← Option.some.inj same,Operation.started,if_pos constructed,count]
    rfl
  | setValue between _ => exact .setValue ⟨between.child,between.rounds,between.results⟩ rfl
  | setStopped ended => exact .setStopped ⟨ended.child,ended.last⟩
  | setError why =>
    refine .setError (why.imp (fun ended => ⟨ended.child,ended.last⟩) ?_)
    rintro ⟨thrown,between⟩
    exact ⟨thrown,between.child,between.rounds,between.results⟩

theorem Outcome.stopped : {result : Signal Error} → Outcome exception s result → Outcome exception (stopped s) result
  | .value () => fun why => why.imp (fun early => ⟨rfl,early.2.child,early.2.rounds,early.2.results⟩)
      fun ended => ⟨ended.child,ended.last⟩
  | .stopped => fun why => ⟨rfl,why.2.child,why.2.last⟩
  | .error _ => fun why => why.imp (fun ended => ⟨ended.child,ended.last⟩)
      fun thrown => ⟨thrown.1,thrown.2.child,thrown.2.rounds,thrown.2.results⟩

theorem put_idle (idle : c.threads p = []) : c.put p s [] = ⟨s,c.threads⟩ := by
  simp [Config.put,← idle]

theorem stopped_keeps (inv : Invariant exception c) (idle : c.threads .stop = []) :
    Invariant exception (c.put .stop (stopped c.shared) []) := by
  refine ⟨?_,by simp [stopped],fun n same => ?_⟩
  · rw [put_idle idle]
    cases inv.stage with
    | fresh begun between silent idle => exact .fresh begun ⟨between.child,between.rounds,between.results⟩ silent idle
    | handling begun here doing silent others => exact .handling begun here doing.stopped silent others
    | child begun started count results silent returning => exact .child begun started count results silent returning
    | done begun other sent why returning => exact .done begun other sent why.stopped returning
  · obtain rfl := Option.some.inj same
    exact ⟨Nat.le_refl _,Nat.le_succ _⟩

/-- Only an operation that has not begun is started. -/
theorem start_keeps (inv : Invariant exception c) (first : c.shared.begun = false) :
    Invariant exception (c.put (.round 0) { c.shared with begun := true } [.testStop]) := by
  refine ⟨?_,inv.bounded⟩
  cases inv.stage with
  | fresh _ between silent idle =>
    exact handler_keeps rfl (.testStop ⟨between.child,between.rounds,between.results⟩) silent fun q _ => .inl (idle q)
  | handling begun | child begun | done begun => simp [first] at begun

theorem call_keeps (inv : Invariant exception c) (idle : c.threads ((machine exception).party e) = [])
    (accepted : accept e c.shared = some (s,prog)) :
    Invariant exception (c.put ((machine exception).party e) s prog) := by
  cases e with
  | start =>
    simp only [accept] at accepted
    split at accepted
    · cases accepted
    · next first =>
      obtain ⟨rfl,rfl⟩ := Prod.mk.inj (Option.some.inj accepted)
      exact start_keeps inv (by simpa using first)
  | childValue k =>
    refine childCompletes_keeps inv accepted fun s child count results => .testStop ⟨.inr child,count,?_⟩
    rw [results,values,values,List.replicate_succ']
  | childStopped k =>
    exact childCompletes_keeps inv accepted fun s child count results => .setStopped ⟨child,k,count,results⟩
  | childError k error =>
    exact childCompletes_keeps inv accepted fun s child count results => .setError (.inl ⟨child,k,count,results⟩)
  | requestStop =>
    simp only [accept] at accepted
    split at accepted
    · cases accepted
    · obtain ⟨rfl,rfl⟩ := Prod.mk.inj (Option.some.inj accepted)
      exact stopped_keeps inv idle

theorem reach_invariant (reach : Reach (machine exception) Any (initial Error) c) : Invariant exception c :=
  reach.invariant initial_invariant (fun _ _ _ _ _ _ inv _ left ran => run_keeps inv left ran)
    (fun _ _ _ _ inv _ idle accepted => call_keeps inv idle accepted)

/-! ### What the rounds do -/

/-- The rounds of a sequence that is repeated: all children but the last one have completed with
    a value, and none is replaced while it runs; the receiver is completed once, as the last child
    or the stop token says, and nothing is left to do then; one more child is started, at most, once
    stop was requested; and an operation that waits for no child has completed the receiver. -/
structure Rounds (exception : Option Error) (c : Config Party (Operation Error) (Instr Error)) : Prop where
  once : c.shared.completions.length ≤ 1
  outcome : ∀ result ∈ c.shared.completions, Outcome exception c.shared result
  quiet : c.shared.completions ≠ [] → ∀ q, Returning (c.threads q)
  count : c.shared.results.length ≤ c.shared.subscriptions ∧ c.shared.subscriptions ≤ c.shared.results.length + 1
  values : ∀ result ∈ c.shared.results.dropLast, result = .value ()
  replaced : ∀ q rest, c.threads q = .emplace :: rest → c.shared.child = .absent ∨ c.shared.child = .completed
  stopped : ∀ n, c.shared.startedAtStop = some n → c.shared.started ≤ n + 1
  ends : c.shared.begun = true → c.shared.child ≠ .started → (∀ q, Returning (c.threads q)) →
    c.shared.completions.length = 1

/-- How many children have completed, and how. -/
def Counted (s : Operation Error) : Prop :=
  (s.results.length ≤ s.subscriptions ∧ s.subscriptions ≤ s.results.length + 1) ∧
  ∀ result ∈ s.results.dropLast, result = .value ()

theorem counted_values (results : s.results = values Error n) (least : n ≤ s.subscriptions)
    (most : s.subscriptions ≤ n + 1) : Counted s := by
  refine ⟨by simp [results,values,least,most],fun result member => ?_⟩
  rw [results] at member
  exact List.eq_of_mem_replicate (List.mem_of_mem_dropLast member)

theorem Between.counted (between : Between s k) : Counted s :=
  counted_values between.results (Nat.le_of_eq between.rounds.symm) (between.rounds ▸ Nat.le_succ _)

theorem Ended.counted (ended : Ended s result) : Counted s := by
  obtain ⟨n,count,results⟩ := ended.last
  refine ⟨by simp [results,values,count],fun result member => ?_⟩
  rw [results,List.dropLast_concat] at member
  exact List.eq_of_mem_replicate member

theorem Doing.counted (doing : Doing exception s k i) : Counted s := by
  cases doing with
  | testStop between | emplace between _ | setValue between _ => exact between.counted
  | start _ count results _ => exact counted_values results (count ▸ Nat.le_succ _) (Nat.le_of_eq count)
  | setStopped ended => exact ended.counted
  | setError why => exact why.elim Ended.counted fun thrown => thrown.2.counted

theorem Outcome.counted : (result : Signal Error) → Outcome exception s result → Counted s
  | .value () => fun why => why.elim (fun stopped => stopped.2.counted) Ended.counted
  | .stopped => fun why => why.2.counted
  | .error _ => fun why => why.elim Ended.counted fun thrown => thrown.2.counted

theorem Stage.counted (stage : Stage exception c) : Counted c.shared := by
  cases stage with
  | fresh _ between _ _ => exact between.counted
  | handling _ _ doing _ _ => exact doing.counted
  | child _ _ count results _ _ => exact counted_values results (count ▸ Nat.le_succ _) (Nat.le_of_eq count)
  | @done result _ _ _ why _ => exact why.counted result

theorem Stage.once (stage : Stage exception c) : c.shared.completions.length ≤ 1 := by
  cases stage with
  | fresh _ _ silent _ | handling _ _ _ silent _ | child _ _ _ _ silent _ => simp [silent]
  | done _ _ sent _ _ => simp [sent]

/-- An operation that waits for no child has completed its receiver. -/
theorem Stage.ends (stage : Stage exception c) (begun : c.shared.begun = true) (waits : c.shared.child ≠ .started)
    (returning : ∀ q, Returning (c.threads q)) : c.shared.completions.length = 1 := by
  cases stage with
  | fresh first _ _ _ => simp [first] at begun
  | @handling k i _ here doing _ _ =>
    have back := returning (.round k)
    rw [here] at back
    rcases back with none | back
    · cases none
    · obtain ⟨rfl,_⟩ := List.cons.inj back
      cases doing
  | child _ started _ _ _ _ => exact absurd started waits
  | done _ _ sent _ _ => simp [sent]

/-- In every run, whatever the threads are on which children complete and stop is requested. -/
theorem repeat_rounds (reach : Reach (machine exception) Any (initial Error) c) : Rounds exception c := by
  have inv := reach_invariant reach
  have counted := inv.stage.counted
  refine ⟨inv.stage.once,?_,?_,counted.1,counted.2,?_,fun n same => (inv.bounded.2 n same).2,inv.stage.ends⟩
  · cases inv.stage with
    | fresh _ _ silent _ | handling _ _ _ silent _ | child _ _ _ _ silent _ => simp [silent]
    | done _ _ sent why _ =>
      intro result member
      rw [sent,List.mem_singleton] at member
      exact member ▸ why
  · intro completed
    cases inv.stage with
    | fresh _ _ silent _ | handling _ _ _ silent _ | child _ _ _ _ silent _ => exact absurd silent completed
    | done _ _ _ _ returning => exact returning
  · intro q rest left
    obtain ⟨_,_,_,_,doing,_,_⟩ := handling_of_left inv.stage left (by simp)
    cases doing with
    | emplace between _ => exact between.child

/-- A child completes before its start has returned, and stop is requested then. -/
theorem repeat_rounds_once : ∃ c, Reach (machine none) Any (initial Nat) c ∧ Rounds none c ∧
    c.shared.results = [.value ()] ∧ c.shared.completions = [.value ()] := by
  obtain ⟨c,reach,computed⟩ := exists_of_follow (machine none) Any (initial Nat) (fun _ _ => true)
    (fun _ _ _ => trivial)
    [(.call .start,0),(.run (.round 0),0),(.run (.round 0),0),(.run (.round 0),0),(.call (.childValue 0),0),
      (.call .requestStop,0),(.run (.round 1),0),(.run (.round 1),0)]
    (fun c => decide (c.shared.results = [.value ()]) && decide (c.shared.completions = [.value ()])) (by decide)
  simp only [Bool.and_eq_true,decide_eq_true_eq] at computed
  exact ⟨c,reach,repeat_rounds reach,computed⟩

/-! ### Rounds inside of rounds -/

/-- The round that a party begins. -/
def round? : Party → Option Nat
  | .round k => some k
  | .stop => none

/-- A step does not lower the number of subscriptions, and only a handler that starts a child
    is in its start then. -/
theorem exec_frame {before : Operation Error} (ran : (s,new) ∈ exec exception p i before) :
    before.subscriptions ≤ s.subscriptions ∧ (.starting ∈ new → i = .start) := by
  cases i with
  | emplace =>
    rcases List.mem_cons.mp ran with same | thrown
    · obtain ⟨rfl,rfl⟩ := Prod.mk.inj same
      exact ⟨Nat.le_succ _,by simp⟩
    · obtain ⟨_,_,same⟩ := List.mem_map.mp thrown
      obtain ⟨rfl,rfl⟩ := Prod.mk.inj same
      exact ⟨Nat.le_refl _,by simp⟩
  | testStop =>
    obtain ⟨rfl,rfl⟩ := Prod.mk.inj (List.mem_singleton.mp ran)
    exact ⟨Nat.le_refl _,by split <;> simp⟩
  | start => exact ⟨Nat.le_of_eq (by obtain ⟨rfl,rfl⟩ := Prod.mk.inj (List.mem_singleton.mp ran); rfl),fun _ => rfl⟩
  | starting | setValue | setStopped | setError e =>
    obtain ⟨rfl,rfl⟩ := Prod.mk.inj (List.mem_singleton.mp ran)
    exact ⟨Nat.le_refl _,by simp⟩

theorem childCompletes_frame {before : Operation Error} {i : Instr Error}
    (accepted : childCompletes before k result i = some (s,prog)) :
    before.child = .started ∧ before.subscriptions = k + 1 ∧ s.subscriptions = before.subscriptions ∧ prog = [i] := by
  unfold childCompletes at accepted
  split at accepted
  · next running =>
    obtain ⟨rfl,rfl⟩ := Prod.mk.inj (Option.some.inj accepted)
    exact ⟨running.1,running.2,rfl,rfl⟩
  · cases accepted

theorem accept_frame {before : Operation Error} (accepted : accept e before = some (s,prog)) :
    s.subscriptions = before.subscriptions ∧ .starting ∉ prog := by
  cases e with
  | start | requestStop =>
    simp only [accept] at accepted
    split at accepted
    · cases accepted
    · obtain ⟨rfl,rfl⟩ := Prod.mk.inj (Option.some.inj accepted)
      exact ⟨rfl,by simp⟩
  | childValue | childStopped | childError =>
    obtain ⟨_,_,same,rfl⟩ := childCompletes_frame accepted
    exact ⟨same,by simp⟩

/-- A handler whose child's start has not returned has subscribed. -/
theorem starting_subscribed (reach : Reach (machine exception) Any (initial Error) c) :
    ∀ k, .starting ∈ c.threads (.round k) → k < c.shared.subscriptions := by
  refine (reach.invariant (I := fun c => Invariant exception c ∧
    ∀ k, .starting ∈ c.threads (.round k) → k < c.shared.subscriptions) ⟨initial_invariant,by simp [initial]⟩ ?_ ?_).2
  · intro c p i rest s new holds _ left ran
    refine ⟨run_keeps holds.1 left ran,fun k member => ?_⟩
    obtain ⟨more,begins⟩ := exec_frame (p := p) ran
    rw [put_threads] at member
    split at member
    · next same =>
      subst same
      rcases List.mem_append.mp member with fresh | later
      · obtain rfl := begins fresh
        obtain ⟨k',same,_,_,doing,_,_⟩ := handling_of_left holds.1.stage left (by simp)
        obtain rfl := Party.round.inj same
        cases doing with
        | start _ count _ _ => exact Nat.lt_of_lt_of_le (Nat.lt_of_succ_le (Nat.le_of_eq count.symm)) more
      · exact Nat.lt_of_lt_of_le (holds.2 k (left ▸ List.mem_cons_of_mem i later)) more
    · exact Nat.lt_of_lt_of_le (holds.2 k member) more
  · intro c e s prog holds _ idle accepted
    refine ⟨call_keeps holds.1 idle accepted,fun k member => ?_⟩
    obtain ⟨same,none⟩ := accept_frame accepted
    rw [put_shared,same]
    rw [put_threads] at member
    split at member
    · exact absurd member none
    · exact holds.2 k member

/-- The handlers that are active inside of each other on a single thread are those of later and
    later rounds. -/
theorem rounds_descend {stack : List Party} (nested : Nested (machine exception) callout Any (initial Error) c stack) :
    (stack.filterMap round?).Pairwise (· > ·) := by
  induction nested with
  | start => exact .nil
  | run _ _ _ ih => exact ih
  | finish _ _ ih => exact ih.sublist ((List.sublist_cons_self _ _).filterMap _)
  | @call c c' e stack nested out _ moved ih =>
    obtain ⟨s,prog,_,accepted,_⟩ := (mem_next_call _).mp moved
    have below : ∀ k ∈ stack.filterMap round?, k < c.shared.subscriptions := by
      intro k member
      obtain ⟨q,active,same⟩ := List.mem_filterMap.mp member
      obtain ⟨i,rest,left,called⟩ := nested.called out q active
      cases q with
      | stop => cases same
      | round j =>
        obtain rfl := Option.some.inj same
        cases i <;> simp [callout] at called
        exact starting_subscribed nested.reach j (left ▸ List.mem_cons_self)
    cases e with
    | start =>
      have first : c.shared.begun = false := by
        by_contra begun
        simp [machine,accept,begun] at accepted
      refine List.pairwise_cons.mpr ⟨fun j member => ?_,ih⟩
      obtain ⟨q,active,_⟩ := List.mem_filterMap.mp member
      obtain ⟨i,rest,left,_⟩ := nested.called out q active
      cases (reach_invariant nested.reach).stage with
      | fresh _ _ _ idle => simp [idle] at left
      | handling begun | child begun | done begun => simp [first] at begun
    | requestStop => exact ih
    | childValue k | childStopped k | childError k _ =>
      obtain ⟨_,count,_,_⟩ := childCompletes_frame accepted
      exact List.pairwise_cons.mpr ⟨fun j member => count ▸ below j member,ih⟩

/-- The environment calls a handler that begins a round, and the handler comes to the start of its
    child. -/
theorem round_nests {stack : List Party} (nested : Nested (machine exception) callout Any (initial Error) c stack)
    (out : Outside callout c stack) (e : Event Error) (party : (machine exception).party e = .round k)
    (idle : c.threads (.round k) = []) (accepted : accept e c.shared = some (s,[.testStop]))
    (going : s.stopRequested = false) :
    ∃ c', Nested (machine exception) callout Any (initial Error) c' (.round k :: stack) ∧
      (c'.shared.stopRequested = false ∧ c'.shared.child = .started ∧ c'.shared.subscriptions = s.subscriptions + 1) ∧
      c'.threads (.round k) = [.starting] ∧ ∀ q, q ≠ .round k → c'.threads q = c.threads q := by
  have entered := nested.enter out e trivial party idle accepted
  have tested := entered.run trivial ((mem_next_run _).mpr
    ⟨.testStop,[],_,_,put_threads_self c _ _ _,List.mem_singleton_self _,rfl⟩)
  have emplaced := tested.run trivial ((mem_next_run _).mpr ⟨.emplace,[],_,_,by simp [going],List.mem_cons_self,rfl⟩)
  have started := emplaced.run trivial ((mem_next_run _).mpr ⟨.start,[],_,_,by simp,List.mem_singleton_self _,rfl⟩)
  refine ⟨_,started,⟨going,rfl,rfl⟩,by simp,fun q other => ?_⟩
  rw [put_threads_ne _ other,put_threads_ne _ other,put_threads_ne _ other,put_threads_ne _ other]

/-- The handlers of the first `n + 1` rounds, the last one innermost. -/
def nestedRounds : Nat → List Party
  | 0 => [.round 0]
  | n + 1 => .round (n + 1) :: nestedRounds n

/-- A single thread is in the starts of the children of the first `n + 1` rounds. -/
structure InStarts (n : Nat) (c : Config Party (Operation Error) (Instr Error)) : Prop where
  going : c.shared.stopRequested = false
  child : c.shared.child = .started
  subscriptions : c.shared.subscriptions = n + 1
  inside : ∀ k, k ≤ n → c.threads (.round k) = [.starting]
  idle : ∀ k, n < k → c.threads (.round k) = []

theorem exists_nested_rounds (exception : Option Error) (n : Nat) :
    ∃ c, Nested (machine exception) callout Any (initial Error) c (nestedRounds n) ∧ InStarts n c := by
  induction n with
  | zero =>
    have begun : Nested (machine exception) callout Any (initial Error) (initial Error) [] := .start
    obtain ⟨c,nested,⟨going,child,count⟩,here,others⟩ := round_nests begun trivial .start rfl rfl rfl rfl
    refine ⟨c,nested,going,child,count,fun k least => ?_,fun k more => ?_⟩
    · rw [Nat.le_zero.mp least]
      exact here
    · rw [others _ (by simpa using Nat.pos_iff_ne_zero.mp more)]
      rfl
  | succ n ih =>
    obtain ⟨c,nested,inStarts⟩ := ih
    have out : Outside callout c (nestedRounds n) := by
      cases n <;> exact ⟨.starting,[],inStarts.inside _ (Nat.le_refl _),rfl⟩
    obtain ⟨c',nested',⟨going,child,count⟩,here,others⟩ := round_nests nested out (.childValue n) rfl
      (inStarts.idle (n + 1) (Nat.lt_succ_self n)) (if_pos ⟨inStarts.child,inStarts.subscriptions⟩) inStarts.going
    refine ⟨c',nested',going,child,count.trans (congrArg (· + 1) inStarts.subscriptions),fun k most => ?_,
      fun k more => ?_⟩
    · by_cases last : k = n + 1
      · rw [last]
        exact here
      · rw [others _ (by simpa using last)]
        exact inStarts.inside k (by omega)
    · rw [others _ (by simp; omega)]
      exact inStarts.idle k (by omega)

/-- On a single thread the handlers that are active inside of each other are those of later and
    later rounds, all but the innermost one in the start of its child; and when every child completes
    before its start has returned, there are as many of them as there were rounds. -/
theorem repeat_nests (exception : Option Error) :
    (∀ c stack, Nested (machine exception) callout Any (initial Error) c stack →
      (stack.filterMap round?).Pairwise (· > ·) ∧
      ∀ k, .round k ∈ stack.tail → c.threads (.round k) = [.starting] ∧ k < c.shared.subscriptions) ∧
    ∀ n, ∃ c, Nested (machine exception) callout Any (initial Error) c (nestedRounds n) ∧
      c.shared.subscriptions = n + 1 ∧ ∀ k, k ≤ n → c.threads (.round k) = [.starting] := by
  refine ⟨fun c stack nested => ⟨rounds_descend nested,fun k member => ?_⟩,fun n => ?_⟩
  · obtain ⟨i,rest,left,called⟩ := nested.suspended.2 _ member
    obtain rfl : i = .starting := by cases i <;> simp [callout] at called ⊢
    obtain rfl := nothing_after_start (reach_invariant nested.reach).stage left
    exact ⟨left,starting_subscribed nested.reach k (by simp [left])⟩
  · obtain ⟨c,nested,inStarts⟩ := exists_nested_rounds exception n
    exact ⟨c,nested,inStarts.subscriptions,inStarts.inside⟩

end SendersIo.Repeat
