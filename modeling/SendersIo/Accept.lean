import SendersIo.ForkOutcome
import SendersIo.LinkedMachines
import SendersIo.Repeat

/-!
Accepting connections: `accept_once` is repeated, and its items are forked. A round starts the
sender that `set_next` of `fork` returns for the accept. It completes with a value however the
accept has ended: the operation of the connection was started, or the failure was reported and a
stop requested. The stop token of `repeat` is the one of `fork`.
-/
namespace SendersIo.Accept
open SendersIo.Interleaving SendersIo.LinkedMachines
open SendersIo.Fork (Phase OperationBase NoStopCallback Holding ItemLeft UpstreamLeft)
open SendersIo.Repeat (Operation Rounds)

variable {Error : Type}

/-- The configurations of `repeat` and of `fork`. -/
abbrev Repeating (Error : Type) := Config Repeat.Party (Operation Error) (Repeat.Instr Error)

abbrev Forking (Error : Type) := Config Fork.Party (OperationBase Error) (Fork.Instr Error)

/-- What `repeat` calls of the receiver of `fork`. -/
def calls : Repeat.Party → Repeat.Instr Error → Operation Error → Option (Fork.Event Error)
  | .round k,.start,_ => some (.setNext k)
  | _,.setValue,_ => some .upstreamValue
  | _,.setStopped,s => some (if s.stopRequested then .upstreamStopped else .upstreamValue)
  | _,.setError e,_ => some (.upstreamError e)
  | _,_,_ => none

/-- The stop source of `fork` is requested. -/
def callsBack : Fork.Party → Fork.Instr Error → OperationBase Error → Option (Repeat.Event Error)
  | _,.requestStop,_ => some .requestStop
  | _,_,_ => none

/-- The accept of an item has begun, and the sender that `set_next` returned has not completed. -/
def InProgress : Phase → Prop
  | .setup | .failed | .allocated => True
  | _ => False

instance : DecidablePred InProgress
  | .setup | .failed | .allocated => .isTrue trivial
  | .fresh | .refused | .running | .completed | .deleting | .deleted | .released => .isFalse id

/-- Children complete with a value, when the sender of their item has. The events of an item are
    those of its accept, its operation and its deletion; the callback on the outer stop token does
    not fire. -/
def link (Error : Type) : Link Repeat.Party (Operation Error) (Repeat.Instr Error) (Repeat.Event Error)
    Fork.Party (OperationBase Error) (Fork.Instr Error) (Fork.Event Error) where
  calls := calls
  callsBack := callsBack
  permits
    | .start,_ => true
    | .childValue k,now => decide (now.2.shared.phase k ≠ .fresh ∧ ¬ InProgress (now.2.shared.phase k))
    | _,_ => false
  permitsBack
    | .setNext _,_ | .upstreamValue,_ | .upstreamError _,_ | .upstreamStopped,_ => false
    | .outerStop,now => !now.2.shared.stopCallback
    | _,_ => true

/-- The pairs of configurations of `accept`. A subscription throws the exception, if there is one. -/
def Accepts (exception : Option Error) (c : Repeating Error) (d : Forking Error) : Prop :=
  Joint (link Error) (Repeat.machine exception) (Fork.machine Error) (Repeat.initial Error,Fork.initial Error) (c,d)

variable {exception : Option Error} {c c' : Repeating Error} {d d' : Forking Error} {x y k : Nat}

theorem Accepts.repeats (accepts : Accepts exception c d) :
    Reach (Repeat.machine exception) Any (Repeat.initial Error) c :=
  Joint.first accepts (fun _ _ => trivial) (fun _ _ _ _ => trivial) fun _ _ _ _ _ _ => trivial

theorem not_outerStop {p : Repeat.Party} {i : Repeat.Instr Error} {s : Operation Error} {e : Fork.Event Error}
    (called : calls p i s = some e) : NoStopCallback d (.call e) := by
  cases e with
  | outerStop =>
    cases i with
    | setStopped =>
      simp only [calls,Option.some.injEq] at called
      split at called <;> cases called
    | _ => cases p <;> cases called
  | _ => trivial

theorem Accepts.forks (accepts : Accepts exception c d) :
    Reach (Fork.machine Error) NoStopCallback (Fork.initial Error) d := by
  refine Joint.second accepts (fun _ _ => trivial) ?_ fun _ _ _ _ _ called => not_outerStop called
  intro c d e permitted
  cases e with
  | outerStop => simpa [NoStopCallback,link] using permitted
  | _ => trivial

/-! ### What `fork` does to its items -/

section
variable {s : OperationBase Error} {p : Fork.Party} {i : Fork.Instr Error} {rest new : List (Fork.Instr Error)}

/-- The steps that begin no accept, and do not complete the upstream sequence. -/
structure Frame (before after : OperationBase Error) : Prop where
  fresh : ∀ x, after.phase x = .fresh ↔ before.phase x = .fresh
  progress : ∀ x, InProgress (after.phase x) → InProgress (before.phase x)
  upstream : after.upstream = .running ↔ before.upstream = .running

theorem frame_of_eq {before : OperationBase Error} (phase : s.phase = before.phase)
    (upstream : s.upstream = before.upstream) : Frame before s where
  fresh x := by rw [phase]
  progress x := by rw [phase]; exact id
  upstream := by rw [upstream]

/-- An item moves on. -/
theorem frame_update {before : OperationBase Error} {after : Phase} (x : Nat)
    (phase : s.phase = Function.update before.phase x after) (upstream : s.upstream = before.upstream) (begun : before.phase x ≠ .fresh) (stays : after ≠ .fresh)
    (progress : InProgress after → InProgress (before.phase x)) : Frame before s where
  fresh y := by
    rw [phase]
    by_cases same : y = x
    · subst same
      simp [begun,stays]
    · simp [same]
  progress y := by
    rw [phase]
    by_cases same : y = x
    · subst same
      simpa using progress
    · simp [same]
  upstream := by rw [upstream]

theorem finishing_phase {before : OperationBase Error} (finishing : Fork.Finishing (i :: rest))
    (ran : (s,new) ∈ Fork.exec p i before) : s.phase = before.phase ∧ s.upstream = before.upstream := by
  rcases finishing with whole | whole | ⟨ctype,whole⟩ <;>
  · obtain ⟨rfl,_⟩ := List.cons.inj whole
    obtain ⟨rfl,rfl⟩ := Prod.mk.inj (List.mem_singleton.mp ran)
    exact ⟨rfl,rfl⟩

theorem run_frame (inv : Fork.Invariant d) (left : d.threads p = i :: rest) (ran : (s,new) ∈ Fork.exec p i d.shared) :
    Frame d.shared s := by
  have shape := inv.counted.party p
  rw [left] at shape
  rcases Fork.party_cases shape with ⟨light,-⟩ | ⟨rfl,-,at_p⟩ | ⟨x,rfl,-,at_x⟩ | ⟨finishing,-⟩
  · obtain ⟨_,upstream,phase,_⟩ := Fork.exec_light light ran
    exact frame_of_eq phase upstream
  · obtain ⟨rfl,rfl⟩ := Prod.mk.inj (List.mem_singleton.mp ran)
    rcases at_p with ⟨rfl,completing⟩ | ⟨x,rfl,at_x⟩
    · exact ⟨fun x => Iff.rfl,fun x => id,by simp [Fork.release,completing]⟩
    · have member : x ∈ d.shared.holders := by
        rw [inv.counted.holding x]
        rcases at_x with failed | deleted <;> simp [*,Holding]
      simp only [Fork.release,if_pos member]
      exact frame_update x rfl rfl (by rcases at_x with failed | deleted <;> simp [*]) (by simp) (by simp [InProgress])
  · rcases at_x with ⟨rfl,allocated⟩ | ⟨rfl,completed⟩ <;> obtain ⟨rfl,rfl⟩ := Prod.mk.inj (List.mem_singleton.mp ran)
    · exact frame_update x rfl rfl (by simp [allocated]) (by split <;> simp) fun _ => by simp [allocated,InProgress]
    · exact frame_update x rfl rfl (by simp [completed]) (by simp) (by simp [InProgress])
  · obtain ⟨phase,upstream⟩ := finishing_phase finishing ran
    exact frame_of_eq phase upstream

theorem move_frame {x : Nat} {before after : Phase} {prog prog' : List (Fork.Instr Error)}
    (accepted : Fork.move d.shared x before after prog = some (s,prog')) (begun : before ≠ .fresh)
    (stays : after ≠ .fresh) (progress : InProgress after → InProgress before) :
    Frame d.shared s ∧ s.stopRequested = d.shared.stopRequested := by
  unfold Fork.move at accepted
  split at accepted
  · next here =>
    obtain ⟨rfl,rfl⟩ := Prod.mk.inj (Option.some.inj accepted)
    exact ⟨frame_update x rfl rfl (by rwa [here]) stays (by rwa [here]),rfl⟩
  · cases accepted

/-- The events that are not raised by `repeat`. -/
theorem call_frame {e : Fork.Event Error} {prog : List (Fork.Instr Error)}
    (permitted : (link Error).permitsBack e (c,d) = true) (accepted : Fork.accept e d.shared = some (s,prog)) :
    Frame d.shared s ∧ s.stopRequested = d.shared.stopRequested := by
  cases e with
  | setNext | upstreamValue | upstreamError | upstreamStopped => cases permitted
  | newValue x | newError x _ | newStopped x => exact move_frame accepted (by simp) (by simp) fun _ => trivial
  | nextValue x | nextStopped x | deleteValue x => exact move_frame accepted (by simp) (by simp) (by simp [InProgress])
  | outerStop =>
    simp only [Fork.accept] at accepted
    split at accepted
    · cases accepted
    · obtain ⟨rfl,rfl⟩ := Prod.mk.inj (Option.some.inj accepted)
      exact ⟨frame_of_eq rfl rfl,rfl⟩

end

/-! ### The request of the stop source -/

section
variable {t : OperationBase Error} {q : Fork.Party} {j : Fork.Instr Error} {after new : List (Fork.Instr Error)}

/-- What the instructions do to the stop source. -/
inductive Asks (before : OperationBase Error) : Fork.Instr Error → OperationBase Error → List (Fork.Instr Error) → Prop
  | exchange {t : OperationBase Error} : t.isStopRequested = true → t.stopRequested = before.stopRequested →
      Asks before .exchangeStop t (if before.isStopRequested then [] else [.requestStop])
  | request {t : OperationBase Error} : t.isStopRequested = before.isStopRequested → t.stopRequested = true →
      Asks before .requestStop t []
  | other {j : Fork.Instr Error} {t : OperationBase Error} {new : List (Fork.Instr Error)} : j ≠ .requestStop →
      t.isStopRequested = before.isStopRequested → t.stopRequested = before.stopRequested → .requestStop ∉ new →
      Asks before j t new

theorem exec_asks {before : OperationBase Error} (ran : (t,new) ∈ Fork.exec q j before) : Asks before j t new := by
  cases j with
  | exchangeStop =>
    obtain ⟨rfl,rfl⟩ := Prod.mk.inj (List.mem_singleton.mp ran)
    exact .exchange rfl rfl
  | requestStop =>
    obtain ⟨rfl,rfl⟩ := Prod.mk.inj (List.mem_singleton.mp ran)
    exact .request rfl rfl
  | compareExchangeError e =>
    simp only [Fork.exec] at ran
    split at ran <;> obtain ⟨rfl,rfl⟩ := Prod.mk.inj (List.mem_singleton.mp ran) <;>
      exact .other (by simp) rfl rfl (by simp)
  | compareExchangeEmplaced =>
    obtain ⟨rfl,rfl⟩ := Prod.mk.inj (List.mem_singleton.mp ran)
    split <;> exact .other (by simp) rfl rfl (by simp)
  | decreaseRef =>
    obtain ⟨rfl,rfl⟩ := Prod.mk.inj (List.mem_singleton.mp ran)
    have none : .requestStop ∉ if before.refCounter = 1 then (Fork.complete : List (Fork.Instr Error)) else [] := by
      split <;> simp [Fork.complete]
    cases q with
    | item x =>
      simp only [Fork.release]
      split <;> exact .other (by simp) rfl rfl none
    | upstream | stopCallback => exact .other (by simp) rfl rfl none
  | startItem | startDelete =>
    cases q with
    | item x =>
      obtain ⟨rfl,rfl⟩ := Prod.mk.inj (List.mem_singleton.mp ran)
      exact .other (by simp) rfl rfl (by simp)
    | upstream | stopCallback => cases ran
  | emplaceError | storeStopped | resetCallback | loadCompletionType | complete =>
    obtain ⟨rfl,rfl⟩ := Prod.mk.inj (List.mem_singleton.mp ran)
    exact .other (by simp) rfl rfl (by simp)

theorem accept_asks {before : OperationBase Error} {e : Fork.Event Error}
    (accepted : Fork.accept e before = some (t,new)) :
    t.isStopRequested = before.isStopRequested ∧ t.stopRequested = before.stopRequested ∧ .requestStop ∉ new := by
  cases e with
  | setNext x =>
    simp only [Fork.accept,Fork.increaseRef] at accepted
    split at accepted
    · by_cases zero : before.refCounter = 0
      · rw [if_pos zero] at accepted
        obtain ⟨rfl,rfl⟩ := Prod.mk.inj (Option.some.inj accepted)
        exact ⟨rfl,rfl,by simp [Fork.stopAndRelease]⟩
      · rw [if_neg zero] at accepted
        obtain ⟨rfl,rfl⟩ := Prod.mk.inj (Option.some.inj accepted)
        exact ⟨rfl,rfl,by simp⟩
    · cases accepted
  | outerStop =>
    simp only [Fork.accept] at accepted
    split at accepted
    · cases accepted
    · obtain ⟨rfl,rfl⟩ := Prod.mk.inj (Option.some.inj accepted)
      exact ⟨rfl,rfl,by split <;> simp [Fork.stopAndRelease]⟩
  | newValue | newError | newStopped | nextValue | nextStopped | deleteValue =>
    simp only [Fork.accept,Fork.move] at accepted
    split at accepted
    · obtain ⟨rfl,rfl⟩ := Prod.mk.inj (Option.some.inj accepted)
      exact ⟨rfl,rfl,by simp [Fork.setError,Fork.stopAndRelease]⟩
    · cases accepted
  | upstreamValue | upstreamError | upstreamStopped =>
    simp only [Fork.accept,Fork.completeUpstream] at accepted
    split at accepted
    · obtain ⟨rfl,rfl⟩ := Prod.mk.inj (Option.some.inj accepted)
      exact ⟨rfl,rfl,by simp [Fork.setError,Fork.setStopped,Fork.stopAndRelease]⟩
    · cases accepted

/-- Whoever is about to request the stop source was the first to exchange `is_stop_requested_`. -/
structure Asking (d : Forking Error) : Prop where
  exchanged : d.shared.stopRequested = true → d.shared.isStopRequested = true
  first : ∀ p, .requestStop ∈ d.threads p → d.shared.isStopRequested = true ∧ d.shared.stopRequested = false
  single : ∀ p p', .requestStop ∈ d.threads p → .requestStop ∈ d.threads p' → p = p'
  next : ∀ p, .requestStop ∉ (d.threads p).tail

theorem asking_run (asking : Asking d) (left : d.threads q = j :: after) (asks : Asks d.shared j t new) :
    Asking (d.put q t (new ++ after)) := by
  have once : .requestStop ∉ after := by
    have := asking.next q
    rwa [left] at this
  -- Only the exchange of a flag that was not set adds a request.
  have fresh : .requestStop ∈ new → d.shared.isStopRequested = false ∧ t.isStopRequested = true ∧
      t.stopRequested = d.shared.stopRequested := by
    intro member
    cases asks with
    | exchange done same =>
      by_cases set : d.shared.isStopRequested = true
      · simp [set] at member
      · exact ⟨by simpa using set,done,same⟩
    | request => cases member
    | other _ _ _ none => exact absurd member none
  have old : ∀ p, p ≠ q → .requestStop ∈ d.threads p → t.isStopRequested = true ∧ t.stopRequested = false := by
    intro p other member
    obtain ⟨done,open_⟩ := asking.first p member
    cases asks with
    | exchange done' same => exact ⟨done',same.trans open_⟩
    | request => exact absurd (asking.single p q member (by simp [left])) other
    | other _ done' same _ => exact ⟨done'.trans done,same.trans open_⟩
  have here : .requestStop ∈ (d.put q t (new ++ after)).threads q → .requestStop ∈ new := by
    rw [put_threads_self]
    exact fun member => (List.mem_append.mp member).resolve_right once
  have there : ∀ p, p ≠ q → (d.put q t (new ++ after)).threads p = d.threads p :=
    fun p other => put_threads_ne d other _ _
  refine ⟨?_,fun p member => ?_,fun p p' member member' => ?_,fun p => ?_⟩
  · cases asks with
    | exchange done _ => exact fun _ => done
    | request done _ => exact fun _ => done.trans (asking.first q (by simp [left])).1
    | other _ done same _ => exact fun open_ => done.trans (asking.exchanged (same.symm.trans open_))
  · by_cases same : p = q
    · subst same
      obtain ⟨unset,done,kept⟩ := fresh (here member)
      refine ⟨done,kept.trans ?_⟩
      by_contra open_
      simp [asking.exchanged (by simpa using open_)] at unset
    · exact old p same (there p same ▸ member)
  · by_cases same : p = q <;> by_cases same' : p' = q
    · rw [same,same']
    · subst same
      have := (asking.first p' (there p' same' ▸ member')).1
      simp [(fresh (here member)).1] at this
    · subst same'
      have := (asking.first p (there p same ▸ member)).1
      simp [(fresh (here member')).1] at this
    · exact asking.single p p' (there p same ▸ member) (there p' same' ▸ member')
  · by_cases same : p = q
    · subst same
      rw [put_threads_self]
      have tail : .requestStop ∉ new.tail := by
        cases asks with
        | exchange => split <;> simp
        | request => simp
        | other _ _ _ none => exact fun member => none (List.mem_of_mem_tail member)
      cases new with
      | nil => exact fun member => once (List.mem_of_mem_tail member)
      | cons k new => simpa using ⟨tail,once⟩
    · rw [there p same]
      exact asking.next p

theorem asking {allowed : Forking Error → Label Fork.Party (Fork.Event Error) → Prop}
    (reach : Reach (Fork.machine Error) allowed (Fork.initial Error) d) : Asking d := by
  have start : Asking (Fork.initial Error) := by
    constructor <;> simp [Fork.initial,Fork.start,Fork.constructed]
  refine reach.invariant start (fun _ _ _ _ _ _ asking _ left ran => asking_run asking left (exec_asks ran)) ?_
  intro d e t new asking _ idle accepted
  obtain ⟨done,same,none⟩ := accept_asks accepted
  have kept (p : Fork.Party) (member : .requestStop ∈ (d.put ((Fork.machine Error).party e) t new).threads p) :
      .requestStop ∈ d.threads p := by
    rw [put_threads] at member
    split at member
    · exact absurd member none
    · exact member
  refine ⟨?_,fun p member => ?_,fun p p' here there => asking.single p p' (kept p here) (kept p' there),fun p => ?_⟩
  · rw [put_shared,done,same]
    exact asking.exchanged
  · rw [put_shared,done,same]
    exact asking.first p (kept p member)
  · rw [put_threads]
    split
    · exact fun member => none (List.mem_of_mem_tail member)
    · exact asking.next p

end

/-! ### What both know of each other -/

/-- The stop token of `repeat` is that of `fork`, and its completion that of the upstream sequence;
    the items are those of the rounds, of which only the last one can be in progress. -/
structure Together (s : Operation Error) (t : OperationBase Error) : Prop where
  stop : t.stopRequested = s.stopRequested
  upstream : t.upstream = .running ↔ s.completions = []
  fresh : ∀ x, t.phase x = .fresh ↔ s.started ≤ x
  current : ∀ x, InProgress (t.phase x) → s.child = .started ∧ s.subscriptions = x + 1

section
variable {s s' : Operation Error} {t t' : OperationBase Error}

/-- `fork` has gone on. -/
theorem Together.forks (together : Together s t) (frame : Frame t t') (stop : t'.stopRequested = t.stopRequested) :
    Together s t' where
  stop := stop.trans together.stop
  upstream := frame.upstream.trans together.upstream
  fresh x := (frame.fresh x).trans (together.fresh x)
  current x progress := together.current x (frame.progress x progress)

/-- `repeat` has gone on between two children. -/
theorem Together.repeats (together : Together s t) (waits : s.child ≠ .started)
    (stop : s'.stopRequested = s.stopRequested) (same : s'.started = s.started) (completions : s'.completions = s.completions) : Together s' t where
  stop := together.stop.trans stop.symm
  upstream := by rw [completions]; exact together.upstream
  fresh x := by rw [same]; exact together.fresh x
  current x progress := absurd (together.current x progress).1 waits

/-- `set_next` lets the item begin, or refuses it. -/
theorem setNext_frame {k : Nat} {prog : List (Fork.Instr Error)}
    (accepted : Fork.accept (.setNext k) t = some (t',prog)) :
    ∃ phase, phase ≠ .fresh ∧ t'.phase = Function.update t.phase k phase ∧ t'.upstream = t.upstream ∧
      t'.stopRequested = t.stopRequested := by
  simp only [Fork.accept,Fork.increaseRef] at accepted
  split at accepted
  · by_cases zero : t.refCounter = 0
    · rw [if_pos zero] at accepted
      obtain ⟨rfl,rfl⟩ := Prod.mk.inj (Option.some.inj accepted)
      exact ⟨.refused,by simp,rfl,rfl,rfl⟩
    · rw [if_neg zero] at accepted
      obtain ⟨rfl,rfl⟩ := Prod.mk.inj (Option.some.inj accepted)
      exact ⟨.setup,by simp,rfl,rfl,rfl⟩
  · cases accepted

/-- A child is started: the accept of its item begins. -/
theorem Together.starts {k : Nat} {prog : List (Fork.Instr Error)} (together : Together s t)
    (constructed : s.child = .constructed) (count : s.subscriptions = k + 1) (accepted : Fork.accept (.setNext k) t = some (t',prog)) :
    Together { s with child := .started } t' := by
  obtain ⟨phase,entered,phases,upstream,stop⟩ := setNext_frame accepted
  have before : s.started = k := by simp [Operation.started,constructed,count]
  refine ⟨stop.trans together.stop,upstream ▸ together.upstream,fun x => ?_,fun x progress => ?_⟩
  · rw [phases]
    by_cases same : x = k
    · subst same
      simp [entered,Operation.started,count]
    · rw [Function.update_of_ne same,together.fresh x,before]
      simp only [Operation.started,reduceCtorEq,if_false,count]
      omega
  · rw [phases] at progress
    by_cases same : x = k
    · exact ⟨rfl,same ▸ count⟩
    · rw [Function.update_of_ne same] at progress
      exact absurd ((together.current x progress).1.symm.trans constructed) (by simp)

/-- The upstream sequence completes when `repeat` does. -/
theorem Together.completes {prog prog' : List (Fork.Instr Error)} {signal : Signals.Signal Error}
    (together : Together s t) (accepted : Fork.completeUpstream t prog = some (t',prog')) :
    Together { s with completions := s.completions ++ [signal] } t' := by
  unfold Fork.completeUpstream at accepted
  split at accepted
  · obtain ⟨rfl,rfl⟩ := Prod.mk.inj (Option.some.inj accepted)
    exact ⟨together.stop,by simp,together.fresh,together.current⟩
  · cases accepted

/-- A child completes when the sender of its item has. -/
theorem Together.completed {k : Nat} (together : Together s t) (started : s.child = .started)
    (count : s.subscriptions = k + 1) (done : ¬ InProgress (t.phase k)) (results : List (Signals.Signal Error)) :
    Together { s with child := .completed, results } t where
  stop := together.stop
  upstream := together.upstream
  fresh x := by rw [together.fresh x]; simp [Operation.started,started]
  current x progress := by
    obtain rfl : k = x := by have := (together.current x progress).2; omega
    exact absurd progress done

end

theorem initial_together : Together (Repeat.initial Error).shared (Fork.initial Error).shared where
  stop := rfl
  upstream := by simp [Repeat.initial,Fork.initial,Fork.start]
  fresh x := by simp [Repeat.initial,Fork.initial,Fork.start,Fork.constructed,Operation.started]
  current x progress := progress.elim

variable {i : Repeat.Instr Error} {rest new : List (Repeat.Instr Error)} {s : Operation Error} {p : Repeat.Party}

/-- A step of `repeat` that calls nothing of `fork`. -/
theorem together_run (inv : Repeat.Invariant exception c) (together : Together c.shared d.shared)
    (left : c.threads p = i :: rest) (alone : calls p i c.shared = none)
    (ran : (s,new) ∈ Repeat.exec exception p i c.shared) :
    Together s d.shared := by
  by_cases active : i = .starting
  · subst active
    obtain ⟨rfl,rfl⟩ := Prod.mk.inj (List.mem_singleton.mp ran)
    exact together
  obtain ⟨k,rfl,-,-,doing,-,-⟩ := Repeat.handling_of_left inv.stage left active
  cases doing with
  | testStop =>
    obtain ⟨rfl,rfl⟩ := Prod.mk.inj (List.mem_singleton.mp ran)
    exact together
  | emplace between _ =>
    rcases List.mem_cons.mp ran with same | thrown
    · obtain ⟨rfl,rfl⟩ := Prod.mk.inj same
      exact together.repeats between.not_started rfl (by rw [between.started]; simp [Operation.started]) rfl
    · obtain ⟨_,_,same⟩ := List.mem_map.mp thrown
      obtain ⟨rfl,rfl⟩ := Prod.mk.inj same
      exact together.repeats between.not_started rfl (by rw [between.started]; simp [Operation.started]) rfl
  | start | setValue | setStopped | setError => cases alone

/-- A step of `repeat` that calls the receiver of `fork`. -/
theorem together_calling {f : Fork.Event Error} {t : OperationBase Error} {prog : List (Fork.Instr Error)}
    (inv : Repeat.Invariant exception c) (together : Together c.shared d.shared) (left : c.threads p = i :: rest)
    (called : calls p i c.shared = some f) (ran : (s,new) ∈ Repeat.exec exception p i c.shared)
    (accepted : Fork.accept f d.shared = some (t,prog)) : Together s t := by
  have active : i ≠ .starting := by
    rintro rfl
    cases p <;> cases called
  obtain ⟨k,rfl,-,-,doing,-,-⟩ := Repeat.handling_of_left inv.stage left active
  cases doing with
  | testStop | emplace => cases called
  | start constructed count _ _ =>
    obtain rfl := Option.some.inj called
    obtain ⟨rfl,rfl⟩ := Prod.mk.inj (List.mem_singleton.mp ran)
    exact together.starts constructed count accepted
  | setStopped =>
    obtain ⟨rfl,rfl⟩ := Prod.mk.inj (List.mem_singleton.mp ran)
    obtain rfl := Option.some.inj called
    split at accepted <;> exact together.completes accepted
  | setValue | setError =>
    obtain ⟨rfl,rfl⟩ := Prod.mk.inj (List.mem_singleton.mp ran)
    obtain rfl := Option.some.inj called
    exact together.completes accepted

/-- An event of `repeat` that the environment raises. -/
theorem together_call {e : Repeat.Event Error} (together : Together c.shared d.shared)
    (permitted : (link Error).permits e (c,d) = true) (accepted : Repeat.accept e c.shared = some (s,new)) :
    Together s d.shared := by
  cases e with
  | start =>
    simp only [Repeat.accept] at accepted
    split at accepted
    · cases accepted
    · obtain ⟨rfl,rfl⟩ := Prod.mk.inj (Option.some.inj accepted)
      exact ⟨together.stop,together.upstream,together.fresh,together.current⟩
  | childValue k =>
    have done := of_decide_eq_true permitted
    simp only [Repeat.accept,Repeat.childCompletes] at accepted
    split at accepted
    · next running =>
      obtain ⟨rfl,rfl⟩ := Prod.mk.inj (Option.some.inj accepted)
      exact together.completed running.1 running.2 done.2 _
    · cases accepted
  | childStopped | childError | requestStop => cases permitted

/-- The stop source of `fork` is requested, and so is the stop token of `repeat`. -/
theorem together_requestStop {q : Fork.Party} {j : Fork.Instr Error} {more : List (Fork.Instr Error)}
    {t : OperationBase Error} {e : Repeat.Event Error} (together : Together c.shared d.shared)
    (called : callsBack q j d.shared = some e) (ran : (t,more) ∈ Fork.exec q j d.shared)
    (accepted : Repeat.accept e c.shared = some (s,new)) : Together s t := by
  cases j with
  | requestStop =>
    obtain rfl := Option.some.inj called
    obtain ⟨rfl,rfl⟩ := Prod.mk.inj (List.mem_singleton.mp ran)
    simp only [Repeat.accept] at accepted
    split at accepted
    · cases accepted
    · obtain ⟨rfl,rfl⟩ := Prod.mk.inj (Option.some.inj accepted)
      exact ⟨rfl,together.upstream,together.fresh,together.current⟩
  | _ => cases called

theorem together (accepts : Accepts exception c d) : Together c.shared d.shared := by
  refine Joint.invariant (R := fun c d => Together c.shared d.shared) accepts initial_together ?_ ?_
  · intro c d c' d' before both step
    have inv := Repeat.reach_invariant (Accepts.repeats before)
    cases step with
    | run left alone ran => exact together_run inv both left alone ran
    | calling left called ran _ accepted => exact together_calling inv both left called ran accepted
    | call permitted _ accepted => exact together_call both permitted accepted
  · intro c d c' d' before both step
    have inv := Fork.reach_invariant (Accepts.forks before)
    cases step with
    | @run _ _ p i rest new t left alone ran =>
      refine both.forks (run_frame inv left ran) ?_
      cases exec_asks ran with
      | request => cases alone
      | exchange _ same | other _ _ same _ => exact same
    | calling _ called ran _ accepted => exact together_requestStop both called ran accepted
    | call permitted _ accepted =>
      obtain ⟨frame,stop⟩ := call_frame permitted accepted
      exact both.forks frame stop

/-! ### Every handler can go on -/

theorem repeat_exec (p : Repeat.Party) (i : Repeat.Instr Error) (s : Operation Error) :
    ∃ out, out ∈ Repeat.exec exception p i s := by
  cases i <;> exact ⟨_,List.mem_cons_self⟩

theorem fork_exec {q : Fork.Party} {j : Fork.Instr Error} {after : List (Fork.Instr Error)} (inv : Fork.Invariant d)
    (left : d.threads q = j :: after) : ∃ out, out ∈ Fork.exec q j d.shared := by
  have shape := inv.counted.party q
  rw [left] at shape
  cases j with
  | compareExchangeError e =>
    simp only [Fork.exec]
    split <;> exact ⟨_,List.mem_singleton_self _⟩
  | startItem | startDelete =>
    rcases Fork.party_cases shape with ⟨light,-⟩ | ⟨other,-⟩ | ⟨x,rfl,-,-⟩ | ⟨finishing,-⟩
    · exact light.elim
    · cases other
    · exact ⟨_,List.mem_singleton_self _⟩
    · rcases finishing with same | same | ⟨_,same⟩ <;> simp [Fork.complete] at same
  | _ => exact ⟨_,List.mem_singleton_self _⟩

/-- `fork` accepts what `repeat` calls. -/
theorem called_accepted (inv : Repeat.Invariant exception c) (forks : Fork.Invariant d)
    (both : Together c.shared d.shared) (left : c.threads p = i :: rest) {f : Fork.Event Error} (called : calls p i c.shared = some f) :
    ∃ d', d' ∈ (Fork.machine Error).next d (.call f) := by
  have active : i ≠ .starting := by
    rintro rfl
    cases p <;> cases called
  obtain ⟨k,rfl,-,-,doing,silent,-⟩ := Repeat.handling_of_left inv.stage left active
  have running := both.upstream.mpr silent
  have idle : d.threads .upstream = [] := by
    have shape := forks.counted.upstream
    rw [running] at shape
    generalize d.threads .upstream = prog at shape
    cases shape
    rfl
  have completes (prog : List (Fork.Instr Error)) : ∃ out, Fork.completeUpstream d.shared prog = some out :=
    ⟨_,if_pos running⟩
  cases doing with
  | testStop | emplace => cases called
  | start constructed count _ _ =>
    obtain rfl := Option.some.inj called
    have fresh : d.shared.phase k = .fresh := (both.fresh k).mpr (by simp [Operation.started,constructed,count])
    have idle : d.threads (.item k) = [] := by
      have shape := forks.counted.items k
      rw [fresh] at shape
      generalize d.threads (.item k) = prog at shape
      cases shape
      rfl
    refine next_of_accept _ idle ?_
    simp only [Fork.machine,Fork.accept,if_pos (And.intro running fresh)]
    split <;> exact ⟨_,rfl⟩
  | setStopped =>
    obtain rfl := Option.some.inj called
    split <;> exact next_of_accept _ idle (completes _)
  | setValue | setError =>
    obtain rfl := Option.some.inj called
    exact next_of_accept _ idle (completes _)

/-- `repeat` has not been asked to stop when `fork` requests its stop source. -/
theorem requested_accepted {q : Fork.Party} {j : Fork.Instr Error} {after : List (Fork.Instr Error)}
    (asks : Asking d) (both : Together c.shared d.shared) (idle : c.threads .stop = [])
    (left : d.threads q = j :: after) {e : Repeat.Event Error} (called : callsBack q j d.shared = some e) :
    ∃ c', c' ∈ (Repeat.machine exception).next c (.call e) := by
  cases j with
  | requestStop =>
    obtain rfl := Option.some.inj called
    have going := both.stop.symm.trans (asks.first q (by simp [left])).2
    exact next_of_accept _ idle ⟨_,if_neg (by simp [going])⟩
  | _ => cases called

/-! ### What `accept` does -/

/-- One accept is in progress at a time, and they begin in order; none is refused, and only one more
    begins once the stop source was requested. No handler waits for another one. The receiver is
    completed at most once, and then `repeat` has completed and every connection is gone; and it is
    completed when `repeat` waits for no child and nothing else is left to happen. -/
structure Accepting (exception : Option Error) (c : Repeating Error) (d : Forking Error) : Prop where
  single : ∀ x y, InProgress (d.shared.phase x) → InProgress (d.shared.phase y) → x = y
  ordered : ∀ x y, x < y → d.shared.phase y ≠ .fresh → d.shared.phase x ≠ .fresh ∧ ¬ InProgress (d.shared.phase x)
  refused : ∀ x, d.shared.phase x ≠ .refused
  stopped : ∀ n, c.shared.startedAtStop = some n → ∀ x, n < x → d.shared.phase x = .fresh
  repeats : ∀ p, c.threads p ≠ [] →
    ∃ later, later ∈ (link Error).next (Repeat.machine exception) (Fork.machine Error) (c,d) (.inl (.run p))
  forks : ∀ q, d.threads q ≠ [] →
    ∃ later, later ∈ (link Error).next (Repeat.machine exception) (Fork.machine Error) (c,d) (.inr (.run q))
  once : d.shared.completions.length ≤ 1
  finished : d.shared.completions ≠ [] → c.shared.completions.length = 1 ∧ ∀ x, ¬ Holding (d.shared.phase x)
  ends : c.shared.begun = true → c.shared.child ≠ .started → (∀ p, c.threads p = []) → (∀ q, d.threads q = []) →
    (∀ x, d.shared.phase x ≠ .setup ∧ d.shared.phase x ≠ .running ∧ d.shared.phase x ≠ .deleting) →
    d.shared.completions.length = 1

/-- Nothing is left to happen: the receiver of `fork` has been completed. -/
theorem completed_of_settled (inv : Fork.Invariant d) (ended : d.shared.upstream ≠ .running)
    (idle : ∀ q, d.threads q = [])
    (settled : ∀ x, d.shared.phase x ≠ .setup ∧ d.shared.phase x ≠ .running ∧ d.shared.phase x ≠ .deleting) :
    d.shared.completions ≠ [] := by
  have released : d.shared.upstream = .released := by
    have shape := inv.counted.upstream
    rw [idle] at shape
    generalize d.shared.upstream = upstream at shape ended
    cases shape with
    | running => exact absurd rfl ended
    | completing whole => obtain ⟨l,_,same⟩ := whole; simp at same
    | finishing | released => rfl
  have none : d.shared.holders = [] := by
    refine List.eq_nil_iff_forall_not_mem.mpr fun x member => ?_
    rw [inv.counted.holding x] at member
    have here := settled x
    have shape := inv.counted.items x
    rw [idle] at shape
    generalize d.shared.phase x = phase at shape member here
    cases shape with
    | setup | running | deleting => simp at here
    | failed whole | completed whole => obtain ⟨l,_,same⟩ := whole; simp at same
    | fresh | finishing _ | released => exact member
  intro silent
  obtain ⟨p,finishing⟩ := inv.finish.unfinished silent (by rw [inv.counted.counter,released,none]; rfl)
  simp [idle,Fork.Finishing,Fork.complete] at finishing

/-- In every run of the two, as long as the callback on the outer stop token does not fire. -/
theorem accept_one_at_a_time (accepts : Accepts exception c d) : Accepting exception c d := by
  have inv := Repeat.reach_invariant accepts.repeats
  have forks := Fork.reach_invariant accepts.forks
  have both := together accepts
  have asks := asking accepts.forks
  have completed : d.shared.upstream ≠ .running → c.shared.completions.length = 1 := by
    intro ended
    have some : c.shared.completions ≠ [] := fun silent => ended (both.upstream.mpr silent)
    have := inv.stage.once
    have := List.length_pos_iff.mpr some
    omega
  refine ⟨fun x y here there => ?_,fun x y before begun => ?_,fun x refused => ?_,fun n stopped x more => ?_,
    fun p busy => ?_,fun q busy => ?_,forks.finish.once,fun sent => ?_,fun begun waits idle idle' settled => ?_⟩
  · have := (both.current x here).2
    have := (both.current y there).2
    omega
  · have started : y < c.shared.started := by
      by_contra least
      exact begun ((both.fresh y).mpr (Nat.le_of_not_lt least))
    refine ⟨fun fresh => ?_,fun progress => ?_⟩
    · have := (both.fresh x).mp fresh
      omega
    · obtain ⟨child,count⟩ := both.current x progress
      simp only [Operation.started,child,reduceCtorEq,if_false] at started
      omega
  · have shape := forks.counted.items x
    rw [refused] at shape
    cases shape
  · have := (inv.bounded.2 n stopped).2
    exact (both.fresh x).mpr (by omega)
  · obtain ⟨i,rest,left⟩ := List.exists_cons_of_ne_nil busy
    exact next_of_run left (repeat_exec p i _) fun f called => called_accepted inv forks both left called
  · obtain ⟨j,after,left⟩ := List.exists_cons_of_ne_nil busy
    have idle := Repeat.stop_idle accepts.repeats
    obtain ⟨later,moved⟩ := next_of_run (L := (link Error).swap) (M := Fork.machine Error) (N := Repeat.machine exception)
      left (fork_exec forks left) fun e called => requested_accepted asks both idle left called
    exact ⟨later.swap,List.mem_map.mpr ⟨later,moved,rfl⟩⟩
  · obtain ⟨released,gone⟩ := ForkOutcome.released_of_completed forks sent
    exact ⟨completed (by simp [released]),gone⟩
  · have ended : d.shared.upstream ≠ .running := by
      intro running
      have := inv.stage.ends begun waits fun p => .inl (idle p)
      simp [both.upstream.mp running] at this
    have := List.length_pos_iff.mpr (completed_of_settled forks ended idle' settled)
    have := forks.finish.once
    omega

/-- A connection is accepted, the next accept fails while the operation of the connection runs, and
    the receiver gets the error when that operation is gone. -/
theorem accept_one_at_a_time_failing : ∃ c d, Accepts none c d ∧ Accepting none c d ∧
    d.shared.completions = [.error 7] := by
  obtain ⟨now,joint,computed⟩ := exists_of_follow (link Nat) (Repeat.machine none) (Fork.machine Nat)
    (Repeat.initial Nat,Fork.initial Nat)
    [(.inl (.call .start),0),(.inl (.run (.round 0)),0),(.inl (.run (.round 0)),0),(.inl (.run (.round 0)),0),
      (.inr (.call (.newValue 0)),0),(.inr (.run (.item 0)),0),(.inl (.call (.childValue 0)),0),
      (.inl (.run (.round 1)),0),(.inl (.run (.round 1)),0),(.inl (.run (.round 1)),0),
      (.inr (.call (.newError 1 7)),0),(.inr (.run (.item 1)),0),(.inr (.run (.item 1)),0),(.inr (.run (.item 1)),0),
      (.inr (.run (.item 1)),0),(.inr (.run (.item 1)),0),(.inr (.run (.item 1)),0),(.inl (.call (.childValue 1)),0),
      (.inl (.run (.round 2)),0),(.inl (.run (.round 2)),0),(.inr (.run .upstream),0),
      (.inr (.call (.nextValue 0)),0),(.inr (.run (.item 0)),0),(.inr (.call (.deleteValue 0)),0),
      (.inr (.run (.item 0)),0),(.inr (.run (.item 0)),0),(.inr (.run (.item 0)),0),(.inr (.run (.item 0)),0)]
    (fun now => decide (now.2.shared.completions = [.error 7])) (by decide)
  exact ⟨now.1,now.2,joint,accept_one_at_a_time joint,of_decide_eq_true computed⟩

end SendersIo.Accept
