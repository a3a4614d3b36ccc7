import SendersIo.MergeEach

/-!
How the children of `merge_each` are told to stop. They see the token of `stop_source_`,
which a child requests that fails or is stopped. The outer token is not linked to it, so
a request of the outer receiver reaches them only if such a request was made before.
-/
namespace SendersIo.MergeCancellation
open SendersIo.Interleaving SendersIo.Signals SendersIo.MergeEach
set_option linter.unusedSimpArgs false

variable {n : Nat} {Error : Type}

/-- What the stop token of `receiver::get_env` reports to a child. -/
def childStopRequested (s : OperationBase n Error) : Bool := s.stopRequested

/-- Every child that has not completed sees that a stop is requested. -/
def AllAsked (s : OperationBase n Error) : Prop := ∀ i, s.signal i = none → childStopRequested s = true

/-- A step of a run, with the configuration before it. -/
abbrev Step (n : Nat) (Error : Type) :=
  Config (Party n) (OperationBase n Error) (Instr n Error) × Label (Party n) (Event n Error)

section
variable (steps : List (Step n Error))

/-- The child has completed with the signal. -/
def Completes (i : Fin n) (signal : Signal Error) : Prop := ∃ step ∈ steps, step.2 = .call (.complete i signal)

/-- The child has executed its request of `stop_source_`. -/
def Requests (i : Fin n) : Prop := ∃ step ∈ steps, step.2 = .run (.child i) ∧ executed step = some .requestStop

/-- The child has completed with an error or stopped, and has executed its request for that. -/
def Failed (i : Fin n) : Prop := (∃ signal, signal ≠ .value () ∧ Completes steps i signal) ∧ Requests steps i

/-- Some child has requested `stop_source_`, or all children have completed. -/
def InTime : Prop := (∃ i, Requests steps i) ∨ ∀ i, ∃ signal, Completes steps i signal

/-- The children are asked to stop when the outer token is requested, and when one of them fails. -/
structure Cancelled (s : OperationBase n Error) : Prop where
  outer : s.outerStopRequested = true → AllAsked s
  failed : (∃ i, Failed steps i) → AllAsked s

/-- The outer token is only requested in time. -/
def Timely : Prop :=
  ∀ before step after, steps = before ++ step :: after → step.2 = .call .requestStop → InTime before

end

/-! ### Steps -/

section
variable {p : Party n} {i : Instr n Error} {s s' : OperationBase n Error} {new prog : List (Instr n Error)}
  {e : Event n Error}

/-- No instruction makes a child complete or requests the outer token, and only children
    request `stop_source_`. -/
theorem exec_frame (ran : (s',new) ∈ exec p i s) :
    s'.signal = s.signal ∧ s'.outerStopRequested = s.outerStopRequested ∧
    (s'.stopRequested = true ↔ s.stopRequested = true ∨ i = .requestStop) ∧
    (i = .requestStop → ∃ k, p = .child k) := by
  unfold exec at ran
  split at ran
  case h_2 =>
    split at ran
    all_goals
      obtain ⟨rfl,rfl⟩ := Prod.mk.inj (List.mem_singleton.mp ran)
      simp
  case h_8 =>
    split at ran
    all_goals
      obtain ⟨rfl,rfl⟩ := Prod.mk.inj (List.mem_singleton.mp ran)
      simp [deliver]
  case h_10 => cases ran
  all_goals
    obtain ⟨rfl,rfl⟩ := Prod.mk.inj (List.mem_singleton.mp ran)
    simp [deliver]

/-- A child completes once. -/
theorem accept_frame (accepted : accept e s = some (s',prog)) :
    (∀ i signal, s'.signal i = some signal ↔ s.signal i = some signal ∨ e = .complete i signal) ∧
    s'.stopRequested = s.stopRequested ∧ (s'.outerStopRequested = true ↔ s.outerStopRequested = true ∨ e = .requestStop) := by
  cases e with
  | complete k sent =>
    simp only [accept] at accepted
    split at accepted
    next ok =>
      cases accepted
      refine ⟨fun i signal => ?_,rfl,by simp⟩
      by_cases same : i = k
      · subst same
        simp [Option.isNone_iff_eq_none.mp ok.2]
      · simp [same,Ne.symm same]
    next => cases accepted
  | requestStop =>
    cases accepted
    exact ⟨by simp,rfl,by simp⟩

end

/-! ### What the state says about the steps -/

variable {c : Config (Party n) (OperationBase n Error) (Instr n Error)} {steps : List (Step n Error)} {step : Step n Error}
  {i : Fin n} {signal : Signal Error}

theorem completes_append :
    Completes (steps ++ [step]) i signal ↔ Completes steps i signal ∨ step.2 = .call (.complete i signal) :=
  exists_mem_append_singleton

theorem requests_append : Requests (steps ++ [step]) i ↔
    Requests steps i ∨ step.2 = .run (.child i) ∧ executed step = some .requestStop := exists_mem_append_singleton

theorem completes_iff (run : Run (machine n Error) Any (initial n Error) steps c) (i : Fin n) (signal : Signal Error) :
    Completes steps i signal ↔ c.shared.signal i = some signal := by
  refine run.invariant (I := fun steps c => Completes steps i signal ↔ c.shared.signal i = some signal)
    (by simp [Completes,initial]) ?_ ?_
  · intro steps c p x rest s new _ ih _ _ ran
    rw [completes_append,ih,put_shared,(exec_frame ran).1]
    simp
  · intro steps c e s prog _ ih _ _ accepted
    rw [completes_append,ih,put_shared,(accept_frame accepted).1 i signal]
    simp

theorem requests_iff (run : Run (machine n Error) Any (initial n Error) steps c) :
    (∃ i, Requests steps i) ↔ c.shared.stopRequested = true := by
  refine run.invariant (I := fun steps c => (∃ i, Requests steps i) ↔ c.shared.stopRequested = true)
    (by simp [Requests,initial]) ?_ ?_
  · intro steps c p x rest s new _ ih _ left ran
    obtain ⟨_,_,request,child⟩ := exec_frame ran
    rw [put_shared,request,← ih]
    simp only [requests_append,executed_run left,exists_or,Option.some.injEq]
    refine or_congr_right ⟨?_,?_⟩
    · rintro ⟨_,_,rfl⟩
      rfl
    · rintro rfl
      obtain ⟨k,rfl⟩ := child rfl
      exact ⟨k,rfl,rfl⟩
  · intro steps c e s prog _ ih _ _ accepted
    rw [put_shared,(accept_frame accepted).2.1,← ih]
    simp [requests_append]

theorem outer_iff (run : Run (machine n Error) Any (initial n Error) steps c) :
    c.shared.outerStopRequested = true ↔ ∃ step ∈ steps, step.2 = .call .requestStop := by
  refine run.invariant (I := fun steps c => c.shared.outerStopRequested = true ↔
    ∃ step ∈ steps, step.2 = .call .requestStop) (by simp [initial]) ?_ ?_
  · intro steps c p x rest s new _ ih _ _ ran
    rw [put_shared,(exec_frame ran).2.1,ih,exists_mem_append_singleton]
    simp
  · intro steps c e s prog _ ih _ _ accepted
    rw [put_shared,(accept_frame accepted).2.2,ih,exists_mem_append_singleton]
    simp

/-- All children that run are asked to stop just if a child has requested it, or none runs. -/
theorem inTime_iff (run : Run (machine n Error) Any (initial n Error) steps c) : InTime steps ↔ AllAsked c.shared := by
  have completed : ∀ i, (∃ signal, Completes steps i signal) ↔ c.shared.signal i ≠ none := fun i => by
    simp only [completes_iff run,Option.ne_none_iff_exists']
  rw [InTime,requests_iff run]
  simp only [completed,AllAsked,childStopRequested]
  constructor
  · rintro (requested | finished) i running
    · exact requested
    · exact absurd running (finished i)
  · intro asked
    by_contra late
    obtain ⟨quiet,unfinished⟩ := not_or.mp late
    obtain ⟨i,running⟩ := not_forall.mp unfinished
    exact quiet (asked i (not_not.mp running))

theorem InTime.append (inTime : InTime steps) (more : List (Step n Error)) : InTime (steps ++ more) := by
  refine inTime.imp (fun requested => ?_) fun finished i => ?_
  · obtain ⟨i,step,member,request⟩ := requested
    exact ⟨i,step,List.mem_append_left _ member,request⟩
  · obtain ⟨signal,step,member,done⟩ := finished i
    exact ⟨signal,step,List.mem_append_left _ member,done⟩

/-! ### A child that fails -/

/-- A child that failed has requested the stop or is about to. -/
theorem asks (run : Run (machine n Error) Any (initial n Error) steps c) :
    ∀ i signal, c.shared.signal i = some signal → signal ≠ .value () →
      Requests steps i ∨ .requestStop ∈ c.threads (.child i) := by
  refine run.invariant (I := fun steps c => ∀ i signal, c.shared.signal i = some signal → signal ≠ .value () →
    Requests steps i ∨ .requestStop ∈ c.threads (.child i)) (by simp [initial]) ?_ ?_
  · intro steps c p x rest s new _ asks _ left ran i signal done bad
    rw [put_shared,(exec_frame ran).1] at done
    rw [requests_append,executed_run left]
    rcases asks i signal done bad with requested | about
    · exact .inl (.inl requested)
    · by_cases now : x = .requestStop ∧ p = .child i
      · exact .inl (.inr ⟨by rw [now.2],by rw [now.1]⟩)
      · right
        rw [put_threads]
        split
        · next same =>
          rw [same,left] at about
          rcases List.mem_cons.mp about with rfl | later
          · exact absurd ⟨rfl,same.symm⟩ now
          · exact List.mem_append_right _ later
        · exact about
  · intro steps c e s prog _ asks _ idle accepted i signal done bad
    rw [put_shared] at done
    rw [requests_append]
    rcases ((accept_frame accepted).1 i signal).mp done with before | rfl
    · rcases asks i signal before bad with requested | about
      · exact .inl (.inl requested)
      · right
        rw [put_threads]
        split
        · next same =>
          rw [same,idle] at about
          cases about
        · exact about
    · right
      simp only [machine,accept] at accepted
      split at accepted
      next =>
        cases accepted
        cases signal with
        | value v => exact absurd rfl bad
        | error e => simp [machine,handler,setError,setStopped]
        | stopped => simp [machine,handler,setStopped]
      next => cases accepted

/-- A child that failed requests the stop before it gives up its share. -/
theorem requests_of_failed (run : Run (machine n Error) Any (initial n Error) steps c) (gone : i ∈ c.shared.decremented)
    (failed : ∃ signal, signal ≠ .value () ∧ Completes steps i signal) : Requests steps i := by
  obtain ⟨signal,bad,completed⟩ := failed
  have done := (completes_iff run i signal).mp completed
  refine (asks run i signal done bad).resolve_right fun about => ?_
  have shape := (reach_invariant run.reach).counted.left i
  rw [done] at shape
  generalize c.threads (.child i) = prog at shape about
  cases shape with
  | exchanging _ early | emplacing _ early | storing _ early | stopping _ early | decrementing _ early =>
    exact absurd gone early
  | finishing _ _ finishing => rcases finishing with rfl | rfl | rfl <;> simp at about
  | done => cases about

/-! ### Runs -/

/-- When the outer token is requested in time, every child sees it as long as it runs. -/
theorem cancelled_of_timely (run : Run (machine n Error) Any (initial n Error) steps c) (timely : Timely steps) :
    Cancelled steps c.shared where
  outer requested := by
    obtain ⟨step,member,request⟩ := (outer_iff run).mp requested
    obtain ⟨before,after,split⟩ := List.append_of_mem member
    rw [← inTime_iff run,split]
    exact (timely before step after split request).append _
  failed := by
    rintro ⟨i,_,requested⟩
    exact (inTime_iff run).mp (.inl ⟨i,requested⟩)

theorem Timely.before (timely : Timely steps) {before after : List (Step n Error)}
    (split : steps = before ++ step :: after) : Timely before := by
  rintro early step' late rfl request
  exact timely early step' (late ++ step :: after) (by simp [split]) request

/-- The outer token was requested in time if every child sees it then. -/
theorem timely_append (run : Run (machine n Error) Any (initial n Error) (steps ++ [step]) c) (timely : Timely steps)
    (cancelled : Cancelled (steps ++ [step]) c.shared) : Timely (steps ++ [step]) := by
  intro before step' after split request
  rcases append_singleton_eq.mp split with ⟨rfl,rfl,_⟩ | ⟨more,_,earlier⟩
  · have outer := (outer_iff run).mpr ⟨step',by simp,request⟩
    have asked := (inTime_iff run).mpr (cancelled.outer outer)
    -- the request itself is neither a request of a child nor a completion
    simpa [InTime,requests_append,completes_append,request] using asked
  · exact timely before step' more earlier request

/-- In every state of a run the children are asked to stop when they are to be, if and only
    if the outer token is only requested in time. And a child that failed has requested the
    stop before it gives up its share. -/
theorem children_cancelled_iff {n : Nat} {Error : Type} (steps : List (Step n Error))
    (c : Config (Party n) (OperationBase n Error) (Instr n Error))
    (run : Run (machine n Error) Any (initial n Error) steps c) :
    (((∀ before step after, steps = before ++ step :: after → Cancelled before step.1.shared) ∧
      Cancelled steps c.shared) ↔ Timely steps) ∧
    ∀ i ∈ c.shared.decremented, (∃ signal, signal ≠ .value () ∧ Completes steps i signal) → Failed steps i := by
  refine ⟨⟨?_,fun timely => ⟨fun before step after split => ?_,cancelled_of_timely run timely⟩⟩,
    fun i gone failed => ⟨failed,requests_of_failed run gone failed⟩⟩
  · rintro ⟨all,now⟩
    induction run with
    | start => intro before step after split; simp at split
    | @step steps c c' l earlier ok moved ih =>
      refine timely_append (.step earlier ok moved) (ih (fun before step after split => ?_) ?_) now
      · exact all before step (after ++ [(c,l)]) (by simp [split])
      · exact all steps (c,l) [] rfl
  · exact cancelled_of_timely (run.before split) (timely.before split)

/-- The outer token is requested after a child has requested the stop, if at all. -/
def requestsLate (step : Step n Error) : Bool :=
  match step.2 with
  | .call .requestStop => step.1.shared.stopRequested
  | _ => true

theorem timely_of_late (run : Run (machine n Error) Any (initial n Error) steps c)
    (late : steps.all requestsLate = true) : Timely steps := by
  intro before step after split request
  have asked := List.all_eq_true.mp late step (by simp [split])
  rw [requestsLate,request] at asked
  exact .inl ((requests_iff (run.before split)).mpr asked)

/-- The outer token is requested after a child has stopped, while the other still runs. -/
theorem children_cancelled_stopped : ∃ steps, ∃ c : Config (Party 2) (OperationBase 2 Nat) (Instr 2 Nat),
    Run (machine 2 Nat) Any (initial 2 Nat) steps c ∧ Cancelled steps c.shared ∧
    c.shared.outerStopRequested = true ∧ c.shared.signal 1 = none := by
  obtain ⟨steps,c,run,computed⟩ := exists_run_of_follow (machine 2 Nat) Any (initial 2 Nat) (fun _ _ => true)
    (fun _ _ _ => trivial)
    [(.run .operation,0),(.run .operation,0),(.call (.complete 0 .stopped),0),(.run (.child 0),0),(.call .requestStop,0)]
    (fun steps c => steps.all requestsLate &&
      decide (c.shared.outerStopRequested = true ∧ c.shared.signal 1 = none)) (by decide)
  obtain ⟨requests,ended⟩ := Bool.and_eq_true_iff.mp computed
  exact ⟨steps,c,run,((children_cancelled_iff steps c run).1.mpr (timely_of_late run requests)).2,of_decide_eq_true ended⟩

/-- The outer token is requested before the children are started: they run on. -/
theorem outer_request_not_seen : ¬ ∀ steps, ∀ c : Config (Party 1) (OperationBase 1 Nat) (Instr 1 Nat),
    Run (machine 1 Nat) Any (initial 1 Nat) steps c → Cancelled steps c.shared := by
  intro claimed
  obtain ⟨steps,c,run,computed⟩ := exists_run_of_follow (machine 1 Nat) Any (initial 1 Nat) (fun _ _ => true)
    (fun _ _ _ => trivial) [(.call .requestStop,0),(.run .operation,0)]
    (fun _ c => c.shared.outerStopRequested = true ∧ c.shared.stopRequested = false ∧ c.shared.signal 0 = none) (by decide)
  obtain ⟨outer,quiet,running⟩ := of_decide_eq_true computed
  have asked := (claimed steps c run).outer outer 0 running
  rw [childStopRequested,quiet] at asked
  cases asked

end SendersIo.MergeCancellation
