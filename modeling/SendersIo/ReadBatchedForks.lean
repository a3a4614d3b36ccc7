import SendersIo.ReadBatchedItems

/-!
The `fork` of the tuples and the reads that its items start. Nothing fails and nothing
stops it, so that every item goes through its phases in order. The read of a tuple is
started with the buffer and the offset of the tuple, and only after the tuple before it
was handed on: the reads are started in the order of the tuples.
-/
namespace SendersIo.ReadBatchedForks
open SendersIo.Interleaving SendersIo.Signals SendersIo.Buffers SendersIo.FileHandle SendersIo.ReadBatched
open SendersIo.ReadBatchedItems
open SendersIo.Zip (Item)
open SendersIo.Fork (Phase)

variable {Error : Type}

/-- A configuration of the `fork` of the tuples. -/
abbrev Forking (Error : Type) := Config Fork.Party (Fork.OperationBase Error) (Fork.Instr Error)

/-- What `fork` executes when nothing fails and nothing is stopped. -/
def Plain : Fork.Instr Error → Prop
  | .decreaseRef | .resetCallback | .loadCompletionType | .startItem | .startDelete => True
  | .complete ctype => ctype = 0
  | _ => False

/-- Nothing has failed, and nothing was stopped. -/
structure Calm (d : Forking Error) : Prop where
  type : d.shared.completionType = 0
  stop : d.shared.stopRequested = false
  outer : d.shared.outerStopRequested = false
  plain : ∀ p, ∀ i ∈ d.threads p, Plain i
  fine : ∀ k, d.shared.phase k ≠ .failed ∧ d.shared.phase k ≠ .refused
  begun : d.shared.upstream ≠ .unstarted
  sent : ∀ signal ∈ d.shared.completions, signal = .value ()

/-- The steps of `fork` then. -/
inductive Works (f : Fork.OperationBase Error) :
    Fork.Party → Fork.Instr Error → Fork.OperationBase Error → List (Fork.Instr Error) → Prop
  | releaseUpstream : f.upstream = .completing → Works f .upstream .decreaseRef
      { f with refCounter := f.refCounter - 1, upstream := .released } (if f.refCounter = 1 then Fork.complete else [])
  | releaseItem (k : Nat) : f.phase k = .deleted → k ∈ f.holders → Works f (.item k) .decreaseRef
      { f with
        refCounter := f.refCounter - 1
        holders := f.holders.erase k
        phase := Function.update f.phase k .released } (if f.refCounter = 1 then Fork.complete else [])
  | startItem (k : Nat) : f.phase k = .allocated → Works f (.item k) .startItem
      { f with phase := Function.update f.phase k .running } []
  | startDelete (k : Nat) : f.phase k = .completed → Works f (.item k) .startDelete
      { f with phase := Function.update f.phase k .deleting } []
  | resetCallback (p : Fork.Party) : Works f p .resetCallback { f with stopCallback := false } []
  | loadCompletionType (p : Fork.Party) : Works f p .loadCompletionType f [.complete 0]
  | complete (p : Fork.Party) : Works f p (.complete 0) { f with completions := f.completions ++ [.value ()] } []

/-- The events of `fork` that `zip` and the reads raise. -/
inductive Called (s : Batch Error) :
    Fork.Event Error → Fork.OperationBase Error → List (Fork.Instr Error) → Prop
  | setNext (k : Nat) : s.fork.upstream = .running → s.fork.phase k = .fresh → k < s.zip.emitted.length →
      Called s (.setNext k)
        { s.fork with
          refCounter := s.fork.refCounter + 1
          phase := Function.update s.fork.phase k .setup
          holders := k :: s.fork.holders } []
  | newValue (k : Nat) : s.fork.phase k = .setup → Called s (.newValue k)
      { s.fork with phase := Function.update s.fork.phase k .allocated } [.startItem]
  | nextValue (k : Nat) (r : Read Error) : s.fork.phase k = .running → s.reads k = some r →
      r.stream.completions.any Completion.isValue = true → Called s (.nextValue k)
      { s.fork with phase := Function.update s.fork.phase k .completed } [.startDelete]
  | deleteValue (k : Nat) : s.fork.phase k = .deleting → Called s (.deleteValue k)
      { s.fork with phase := Function.update s.fork.phase k .deleted } [.decreaseRef]
  | upstreamValue : s.fork.upstream = .running → s.zip.completions ≠ [] → Called s .upstreamValue
      { s.fork with upstream := .completing } [.decreaseRef]

variable {c : Config Party (Batch Error) (Instr Error)} {d : Forking Error} {s : Batch Error} {stack : List Party}
  {buffers : List Buffer} {offsets : List (BitVec 64)} {w : World} {f f' : Fork.OperationBase Error}
  {p : Fork.Party} {i : Fork.Instr Error} {new rest : List (Fork.Instr Error)}

/-! ### What `fork` can do -/

theorem finishing_cases (finishing : Fork.Finishing (i :: rest)) (plain : Plain i) :
    i = .resetCallback ∨ i = .loadCompletionType ∨ i = .complete 0 := by
  rcases finishing with whole | whole | ⟨ctype,whole⟩
  · exact .inl (List.cons.inj whole).1
  · exact .inr (.inl (List.cons.inj whole).1)
  · obtain ⟨rfl,-⟩ := List.cons.inj whole
    obtain rfl : ctype = 0 := plain
    exact .inr (.inr rfl)

theorem works_of_exec (inv : Fork.Invariant d) (calm : Calm d) (left : d.threads p = i :: rest)
    (ran : (f,new) ∈ Fork.exec p i d.shared) : Works d.shared p i f new := by
  have plain := calm.plain p i (by simp [left])
  have shape := inv.counted.party p
  rw [left] at shape
  rcases Fork.party_cases shape with ⟨light,-⟩ | ⟨rfl,-,at_p⟩ | ⟨k,rfl,-,at_k⟩ | ⟨finishing,-⟩
  · cases i <;> first | exact light.elim | exact plain.elim
  · obtain ⟨rfl,rfl⟩ := Prod.mk.inj (List.mem_singleton.mp ran)
    rcases at_p with ⟨rfl,completing⟩ | ⟨k,rfl,failed | deleted⟩
    · exact .releaseUpstream completing
    · exact absurd failed (calm.fine k).1
    · have member : k ∈ d.shared.holders := by
        rw [inv.counted.holding k,deleted]
        trivial
      simp only [Fork.release,if_pos member]
      exact .releaseItem k deleted member
  · rcases at_k with ⟨rfl,allocated⟩ | ⟨rfl,completed⟩
    · obtain ⟨rfl,rfl⟩ := Prod.mk.inj (List.mem_singleton.mp ran)
      rw [if_neg (show ¬ d.shared.stopRequested = true by simp [calm.stop])]
      exact .startItem k allocated
    · obtain ⟨rfl,rfl⟩ := Prod.mk.inj (List.mem_singleton.mp ran)
      exact .startDelete k completed
  · rcases finishing_cases finishing plain with rfl | rfl | rfl
    · obtain ⟨rfl,rfl⟩ := Prod.mk.inj (List.mem_singleton.mp ran)
      exact .resetCallback p
    · obtain ⟨rfl,rfl⟩ := Prod.mk.inj (List.mem_singleton.mp ran)
      rw [calm.type]
      exact .loadCompletionType p
    · obtain ⟨rfl,rfl⟩ := Prod.mk.inj (List.mem_singleton.mp ran)
      rw [show Fork.send d.shared 0 = [.value ()] by simp [Fork.send,calm.outer]]
      exact .complete p

theorem move_eq {k : Nat} {before after : Phase} {prog : List (Fork.Instr Error)}
    (moved : Fork.move f k before after prog = some (f',new)) :
    f.phase k = before ∧ f' = { f with phase := Function.update f.phase k after } ∧ new = prog := by
  unfold Fork.move at moved
  split at moved
  · rename_i here
    cases moved
    exact ⟨here,rfl,rfl⟩
  · cases moved

theorem called_of_accept {e : Fork.Event Error} (inv : Fork.Invariant d) (same : d.shared = s.fork)
    (values : ∀ delivery ∈ s.zip.completions, delivery.signal = .value ()) (permitted : s.permitsFork e = true)
    (accepted : Fork.accept e s.fork = some (f,new)) : Called s e f new := by
  cases e with
  | setNext k =>
    simp only [Fork.accept] at accepted
    split at accepted
    · rename_i open_
      have counter := inv.counted.counter
      rw [same,open_.1] at counter
      have held : s.fork.refCounter ≠ 0 := by
        simp only [reduceCtorEq,if_false] at counter
        omega
      simp only [Fork.increaseRef,if_neg held] at accepted
      cases accepted
      exact .setNext k open_.1 open_.2 (by simpa [Batch.permitsFork] using permitted)
    · cases accepted
  | newValue k =>
    obtain ⟨here,rfl,rfl⟩ := move_eq accepted
    exact .newValue k here
  | nextValue k =>
    obtain ⟨here,rfl,rfl⟩ := move_eq accepted
    obtain ⟨r,at_k,value⟩ := (Option.any_eq_true _ _).mp permitted
    exact .nextValue k r here at_k value
  | deleteValue k =>
    obtain ⟨here,rfl,rfl⟩ := move_eq accepted
    exact .deleteValue k here
  | upstreamValue =>
    simp only [Fork.accept,Fork.completeUpstream] at accepted
    split at accepted
    · rename_i running
      cases accepted
      obtain ⟨delivery,member,_⟩ := List.any_eq_true.mp permitted
      exact .upstreamValue running (List.ne_nil_of_mem member)
    · cases accepted
  | upstreamStopped =>
    obtain ⟨delivery,member,stopped⟩ := List.any_eq_true.mp permitted
    rw [values delivery member] at stopped
    cases stopped
  | newError k e => cases permitted
  | newStopped k => cases permitted
  | nextStopped k => cases permitted
  | upstreamError e => cases permitted
  | outerStop => cases permitted

theorem reads_fork (reads : Reads buffers offsets w c stack) : Fork.Invariant (forkOf c) :=
  Fork.reach_invariant (nested_parts reads).2.2

/-- The rule of `Reads.invariant` for what is about `fork`. -/
theorem Reads.fork_invariant {J : Forking Error → Prop} (start : J (Fork.initial Error))
    (run : ∀ now stack p i rest f new, Reads buffers offsets w now (.fork p :: stack) → J (forkOf now) →
      (forkOf now).threads p = i :: rest → (f,new) ∈ Fork.exec p i now.shared.fork →
      J ((forkOf now).put p f (new ++ rest)))
    (event : ∀ now stack e f new, Reads buffers offsets w now stack → J (forkOf now) → Called now.shared e f new →
      J ((forkOf now).put ((Fork.machine Error).party e) f new))
    (reads : Reads buffers offsets w c stack) : J (forkOf c) := by
  refine Reads.invariant (I := fun c _ => J (forkOf c)) start ?_ ?_ ?_ (fun _ _ _ _ ih _ => ih) ?_ ?_ ?_ reads
  · intro c p below i rest z new _ ih _ _ _
    rw [forkOf_put_other c (by simp)]
    · exact ih
    · rfl
  · intro c p below i rest f new before ih left ran _ _
    rw [forkOf_put_fork,List.filterMap_append,filterMap_fork]
    exact run c below p i (rest.filterMap Instr.fork?) f new before ih (by simp [forkOf,left,Instr.fork?]) ran
  · intro c p below i rest k f new before ih left ran _ _
    rw [forkOf_put_fork,List.filterMap_append,filterMap_fork,startRead_fork]
    exact run c below p i (rest.filterMap Instr.fork?) f new before ih (by simp [forkOf,left,Instr.fork?]) ran
  · intro c stack e z new s _ ih _ _ _ changed _ _
    rw [forkOf_put_other c (by simp [machine]) (by rw [changed])]
    exact ih
  · intro c stack e f new before ih _ permitted accepted _ _
    have called := called_of_accept (reads_fork before) rfl (reads_ending before).delivered permitted accepted
    rw [show (machine Error).party (.fork e) = .fork ((Fork.machine Error).party e) from rfl,forkOf_put_fork,filterMap_fork]
    exact event c stack e f new before ih called
  · intro c stack k n r sqe _ ih _ _ _ _ _
    rw [forkOf_put_other c (s := c.shared.reply k r n) (by simp) rfl]
    exact ih

theorem fine_update {phase : Nat → Phase} (fine : ∀ k, phase k ≠ .failed ∧ phase k ≠ .refused) (k : Nat) {after : Phase}
    (other : after ≠ .failed ∧ after ≠ .refused) (l : Nat) :
    Function.update phase k after l ≠ .failed ∧ Function.update phase k after l ≠ .refused := by
  by_cases same : l = k
  · subst same
    simpa using other
  · simpa [same] using fine l

theorem calm_run (calm : Calm d) (left : d.threads p = i :: rest) (works : Works d.shared p i f new) :
    Calm (d.put p f (new ++ rest)) := by
  have plain : (∀ j ∈ new, Plain j) → ∀ q, ∀ j ∈ (d.put p f (new ++ rest)).threads q, Plain j := by
    intro fresh q j member
    exact (mem_of_mem_put left member).elim (fresh j) (calm.plain q j)
  have finishing : ∀ j ∈ (if d.shared.refCounter = 1 then Fork.complete else [] : List (Fork.Instr Error)), Plain j := by
    intro j member
    split at member
    · simp only [Fork.complete,List.mem_cons,List.not_mem_nil,or_false] at member
      rcases member with rfl | rfl <;> trivial
    · cases member
  cases works with
  | releaseUpstream completing =>
    exact ⟨calm.type,calm.stop,calm.outer,plain finishing,calm.fine,by simp,calm.sent⟩
  | releaseItem k deleted member =>
    exact ⟨calm.type,calm.stop,calm.outer,plain finishing,fine_update calm.fine k (by simp),calm.begun,calm.sent⟩
  | startItem k allocated =>
    exact ⟨calm.type,calm.stop,calm.outer,plain (by simp),fine_update calm.fine k (by simp),calm.begun,calm.sent⟩
  | startDelete k completed =>
    exact ⟨calm.type,calm.stop,calm.outer,plain (by simp),fine_update calm.fine k (by simp),calm.begun,calm.sent⟩
  | resetCallback => exact ⟨calm.type,calm.stop,calm.outer,plain (by simp),calm.fine,calm.begun,calm.sent⟩
  | loadCompletionType =>
    exact ⟨calm.type,calm.stop,calm.outer,plain (by simp [Plain]),calm.fine,calm.begun,calm.sent⟩
  | complete =>
    refine ⟨calm.type,calm.stop,calm.outer,plain (by simp),calm.fine,calm.begun,fun signal member => ?_⟩
    exact (List.mem_append.mp member).elim (calm.sent signal) fun now => List.mem_singleton.mp now

theorem calm_event {e : Fork.Event Error} (calm : Calm d) (same : d.shared = s.fork) (called : Called s e f new) :
    Calm (d.put p f new) := by
  obtain ⟨shared,threads⟩ := d
  simp only at same
  subst same
  have plain : (∀ j ∈ new, Plain j) → ∀ q, ∀ j ∈ ((Config.mk s.fork threads).put p f new).threads q, Plain j := by
    intro fresh q j member
    rw [put_threads] at member
    split at member
    · exact fresh j member
    · exact calm.plain q j member
  cases called with
  | setNext k => exact ⟨calm.type,calm.stop,calm.outer,plain (by simp),fine_update calm.fine k (by simp),calm.begun,calm.sent⟩
  | newValue k =>
    exact ⟨calm.type,calm.stop,calm.outer,plain (by simp [Plain]),fine_update calm.fine k (by simp),calm.begun,calm.sent⟩
  | nextValue k r =>
    exact ⟨calm.type,calm.stop,calm.outer,plain (by simp [Plain]),fine_update calm.fine k (by simp),calm.begun,calm.sent⟩
  | deleteValue k =>
    exact ⟨calm.type,calm.stop,calm.outer,plain (by simp [Plain]),fine_update calm.fine k (by simp),calm.begun,calm.sent⟩
  | upstreamValue =>
    exact ⟨calm.type,calm.stop,calm.outer,plain (by simp [Plain]),calm.fine,by simp,calm.sent⟩

theorem reads_calm (reads : Reads buffers offsets w c stack) : Calm (forkOf c) := by
  refine Reads.fork_invariant ?_ ?_ ?_ reads
  · constructor <;> simp [Fork.initial,Fork.start,Fork.constructed]
  · intro now stack p i rest f new before calm left ran
    exact calm_run calm left (works_of_exec (reads_fork before) calm left ran)
  · intro now stack e f new before calm called
    exact calm_event calm rfl called

/-! ### The phases of an item -/

/-- How far an item is, when nothing fails. -/
def rank : Phase → Nat
  | .setup => 1
  | .allocated => 2
  | .running => 3
  | .completed => 4
  | .deleting => 5
  | .deleted => 6
  | .released => 7
  | _ => 0

/-- The item operation was started when it runs, or later. -/
theorem setNextDone_iff (phase : Phase) : setNextDone phase = true ↔ 3 ≤ rank phase := by
  cases phase <;> simp [setNextDone,rank]

theorem rank_update {phase : Nat → Phase} {k : Nat} {after : Phase} (further : rank (phase k) ≤ rank after) (l : Nat) :
    rank (phase l) ≤ rank (Function.update phase k after l) := by
  by_cases same : l = k
  · subst same
    simpa using further
  · simp [same]

/-- A step leaves an item that no tuple belongs to where it is. -/
theorem works_fresh (works : Works f p i f' new) {k : Nat} (fresh : f.phase k = .fresh) : f'.phase k = .fresh := by
  have other : ∀ {l : Nat} {before after : Phase}, f.phase l = before → before ≠ .fresh →
      Function.update f.phase l after k = .fresh := by
    rintro l before after here some
    rw [Function.update_of_ne]
    · exact fresh
    · rintro rfl
      exact some (here.symm.trans fresh)
  cases works with
  | releaseItem l here => exact other here (by simp)
  | startItem l here => exact other here (by simp)
  | startDelete l here => exact other here (by simp)
  | _ => exact fresh

theorem works_startItem {k : Nat} (works : Works f p i f' new) (starts : startsItem p i f' = some k) :
    f.phase k = .allocated ∧ p = .item k ∧ i = .startItem ∧
      f' = { f with phase := Function.update f.phase k .running } ∧ new = [] := by
  cases works with
  | startItem l allocated =>
    obtain rfl : l = k := by simpa [startsItem] using starts
    exact ⟨allocated,rfl,rfl,rfl,rfl⟩
  | _ => simp [startsItem] at starts

theorem works_quiet (works : Works f p i f' new) (quiet : startsItem p i f' = none) : i ≠ .startItem := by
  rintro rfl
  cases works with
  | startItem l allocated => simp [startsItem] at quiet

theorem reads_works {i : Instr Error} {tail : List (Instr Error)} {j : Fork.Instr Error}
    (reads : Reads buffers offsets w c stack) (left : c.threads (.fork p) = i :: tail) (same : i = .fork j)
    (ran : (f,new) ∈ Fork.exec p j c.shared.fork) : Works c.shared.fork p j f new := by
  subst same
  have here : (forkOf c).threads p = j :: tail.filterMap Instr.fork? := by simp [forkOf,left,Instr.fork?]
  exact works_of_exec (reads_fork reads) (reads_calm reads) here ran

/-- The items of `fork` are tuples. -/
theorem reads_inside (reads : Reads buffers offsets w c stack) :
    ∀ k, c.shared.fork.phase k ≠ .fresh → k < c.shared.zip.emitted.length := by
  refine Reads.invariant (I := fun c _ => ∀ k, c.shared.fork.phase k ≠ .fresh → k < c.shared.zip.emitted.length)
    ?_ ?_ ?_ ?_ (fun _ _ _ _ ih _ => ih) ?_ ?_ (fun _ _ _ _ _ _ _ ih _ _ _ _ _ => ih) reads
  · intro k some
    exact absurd rfl some
  · intro c p below i rest z new _ ih _ ran _ k some
    exact (ih k some).trans_le (ran_frame (ran_of_zipExec ran)).emitted.length_le
  · intro c p below i rest f new before ih left ran _ _ k some
    exact ih k fun fresh => some (works_fresh (reads_works before left rfl ran) fresh)
  · intro c p below i rest l f new before ih left ran starts _ k some
    have works := reads_works before left rfl ran
    obtain ⟨_,_,same⟩ := startRead_keeps { c.shared with fork := f } l
    rw [put_shared,same] at some ⊢
    exact ih k fun fresh => some (works_fresh works fresh)
  · rintro c stack e z new s before ih _ permitted raised rfl _ _ k some
    have supplied := supplied_of_raised permitted raised
    cases supplied <;> exact ih k some
  · intro c stack e f new before ih _ permitted accepted _ _ k some
    have called := called_of_accept (reads_fork before) rfl (reads_ending before).delivered permitted accepted
    have later : ∀ {l : Nat} {here after : Phase}, c.shared.fork.phase l = here → here ≠ .fresh →
        Function.update c.shared.fork.phase l after k ≠ .fresh → k < c.shared.zip.emitted.length := by
      intro l here after at_l other some
      by_cases same : k = l
      · subst same
        exact ih k (by rw [at_l]; exact other)
      · exact ih k (by simpa [same] using some)
    cases called with
    | setNext l _ _ inside =>
      by_cases same : k = l
      · subst same
        exact inside
      · exact ih k (by simpa [same] using some)
    | newValue l here => exact later here (by simp) some
    | nextValue l r here => exact later here (by simp) some
    | deleteValue l here => exact later here (by simp) some
    | upstreamValue => exact ih k some

/-- The arguments of a tuple. -/
theorem reads_arguments {k : Nat} {e : Zip.Emitted 2 Value} (reads : Reads buffers offsets w c stack)
    (at_k : c.shared.zip.emitted[k]? = some e) :
    ∃ b o, buffers[k]? = some b ∧ offsets[k]? = some o ∧ e.values 0 = .buffer b ∧ e.values 1 = .offset o := by
  have first := (reads_tuple reads at_k 0).2
  have second := (reads_tuple reads at_k 1).2
  rw [itemsOf,if_pos rfl,List.getElem?_map] at first
  rw [itemsOf,if_neg (by decide),List.getElem?_map] at second
  obtain ⟨b,at_b,buffer⟩ := Option.map_eq_some_iff.mp first
  obtain ⟨o,at_o,offset⟩ := Option.map_eq_some_iff.mp second
  exact ⟨b,o,at_b,at_o,buffer.symm,offset.symm⟩

/-- A tuple's read with its arguments is started. -/
def Batch.withRead (s : Batch Error) (k : Nat) (b : Buffer) (o : BitVec 64) : Batch Error :=
  { s with
    reads := Function.update s.reads k (some ⟨b,o,ByteStream.start Error .read b o s.world⟩)
    started := s.started ++ [k] }

theorem startRead_eq {k : Nat} {e : Zip.Emitted 2 Value} {b : Buffer} {o : BitVec 64}
    (at_k : s.zip.emitted[k]? = some e) (buffer : e.values 0 = .buffer b) (offset : e.values 1 = .offset o) :
    s.startRead k = Batch.withRead s k b o := by
  simp only [Batch.startRead,at_k,buffer,offset,Batch.withRead]

/-- The rule of `Reads.invariant` for a property of the state of the operation. -/
theorem Reads.shared_invariant {I : Batch Error → Prop} (start : I (initial Error buffers offsets w).shared)
    (zip : ∀ now later stack p i z new, Reads buffers offsets w now (.zip p :: stack) →
      Reads buffers offsets w later (.zip p :: stack) → later.shared = { now.shared with zip := z } → I now.shared →
      Zip.Ran none now.shared.zip i z new → I { now.shared with zip := z })
    (fork : ∀ now stack p i f new, Reads buffers offsets w now (.fork p :: stack) → I now.shared →
      Works now.shared.fork p i f new → i ≠ .startItem → I { now.shared with fork := f })
    (startRead : ∀ now stack k b o, Reads buffers offsets w now (.fork (.item k) :: stack) → I now.shared →
      now.shared.fork.phase k = .allocated → buffers[k]? = some b → offsets[k]? = some o →
      I (Batch.withRead { now.shared with
        fork := { now.shared.fork with phase := Function.update now.shared.fork.phase k .running } } k b o))
    (zipEvent : ∀ now stack e z new position, Reads buffers offsets w now stack → I now.shared →
      Supplied now.shared e z new position → I { now.shared with zip := z, position })
    (forkEvent : ∀ now stack e f new, Reads buffers offsets w now stack → I now.shared → Called now.shared e f new →
      I { now.shared with fork := f })
    (reply : ∀ now stack k n r sqe, Reads buffers offsets w now stack → I now.shared → now.shared.reads k = some r →
      r.stream.op.nextOp = some sqe → kernelAnswers now.shared.world sqe n = true → I (now.shared.reply k r n))
    (reads : Reads buffers offsets w c stack) : I c.shared := by
  refine Reads.invariant (I := fun c _ => I c.shared) start ?_ ?_ ?_ (fun _ _ _ _ ih _ => ih) ?_ ?_ ?_ reads
  · intro c p below i rest z new before ih _ ran after
    exact zip c _ below p i z new before after rfl ih (ran_of_zipExec ran)
  · intro c p below i rest f new before ih left ran quiet _
    have works := reads_works before left rfl ran
    exact fork c below p i f new before ih works (works_quiet works quiet)
  · intro c p below i rest k f new before ih left ran starts _
    obtain ⟨allocated,rfl,rfl,rfl,rfl⟩ := works_startItem (reads_works before left rfl ran) starts
    have inside := reads_inside before k (by simp [allocated])
    have at_k := List.getElem?_eq_getElem inside
    obtain ⟨b,o,at_b,at_o,buffer,offset⟩ := reads_arguments before at_k
    have same := startRead_eq (s := { c.shared with
      fork := { c.shared.fork with phase := Function.update c.shared.fork.phase k .running } }) at_k buffer offset
    rw [put_shared,same]
    exact startRead c below k b o before ih allocated at_b at_o
  · rintro c stack e z new s before ih _ permitted raised rfl _ _
    exact zipEvent c stack e z new _ before ih (supplied_of_raised permitted raised)
  · intro c stack e f new before ih _ permitted accepted _ _
    exact forkEvent c stack e f new before ih
      (called_of_accept (reads_fork before) rfl (reads_ending before).delivered permitted accepted)
  · intro c stack k n r sqe before ih _ at_k next answers _
    exact reply c stack k n r sqe before ih at_k next answers

/-! ### The order of the reads -/

/-- An item of a tuple is completed only after the zipped operation has. -/
theorem zipped_of_done {k : Nat} {j : Fin 2} {e : Zip.Emitted 2 Value} (reads : Reads buffers offsets w c stack)
    (at_k : c.shared.zip.emitted[k]? = some e) (done : (⟨j,k⟩ : Item 2) ∈ c.shared.zip.itemCompletions.map (·.1)) :
    e.trigger ∈ c.shared.zip.completedZipped := by
  by_contra open_
  have placed := (reads_zip reads).placed ⟨j,k⟩
  have once : 0 < ((zipOf c).shared.itemCompletions.map (·.1)).count (⟨j,k⟩ : Item 2) := List.count_pos_iff.mpr done
  have running : 0 < ZipPairing.runningWith (zipOf c).shared (⟨j,k⟩ : Item 2) :=
    List.countP_pos_iff.mpr ⟨e,List.mem_of_getElem? at_k,by simpa [(reads_tuple reads at_k j).1] using open_⟩
  rw [ZipPairing.places,ZipPairing.kept] at placed
  split at placed <;> omega

/-- Before the next tuple there is, the zipped operation of a tuple has completed. -/
theorem earlier_zipped {k : Nat} {e : Zip.Emitted 2 Value} (reads : Reads buffers offsets w c stack)
    (at_k : c.shared.zip.emitted[k]? = some e) (later : k + 1 < c.shared.zip.emitted.length) :
    e.trigger ∈ c.shared.zip.completedZipped := by
  have handed := reads_handed reads
  have arrived := emitted_le_arrived reads 0
  have behind := (handed.behind 0).1
  rw [zipOf_shared] at behind
  exact zipped_of_done reads at_k (List.mem_map_of_mem (f := Prod.fst) (handed.done ⟨0,k⟩ (by simp only; omega)))

/-- The reads are those of the items whose operations run or have run, and they were
    started in the order of the tuples, each with the arguments of its tuple. -/
structure Joined (buffers : List Buffer) (offsets : List (BitVec 64)) (s : Batch Error) : Prop where
  reading : ∀ k, (s.reads k).isSome = setNextDone (s.fork.phase k)
  arguments : ∀ k r, s.reads k = some r → buffers[k]? = some r.buffer ∧ offsets[k]? = some r.offset
  zipped : ∀ k e, s.zip.emitted[k]? = some e → e.trigger ∈ s.zip.completedZipped → setNextDone (s.fork.phase k) = true
  order : s.started = List.range s.started.length
  counted : ∀ k, (s.reads k).isSome = true ↔ k < s.started.length
  upstream : s.fork.upstream ≠ .running → s.zip.completions ≠ []

theorem setNextDone_mono {before after : Phase} (further : rank before ≤ rank after) (done : setNextDone before = true) :
    setNextDone after = true :=
  (setNextDone_iff after).mpr (((setNextDone_iff before).mp done).trans further)

theorem setNextDone_update {phase : Nat → Phase} {l : Nat} {before : Phase} (after : Phase) (here : phase l = before)
    (same : setNextDone before = setNextDone after) (k : Nat) :
    setNextDone (Function.update phase l after k) = setNextDone (phase k) := by
  by_cases at_k : k = l
  · subst at_k
    rw [Function.update_self,here,same]
  · rw [Function.update_of_ne at_k]

/-- A step of `fork` that starts no item. -/
theorem works_setNextDone (works : Works f p i f' new) (quiet : i ≠ .startItem) (k : Nat) :
    setNextDone (f'.phase k) = setNextDone (f.phase k) := by
  cases works with
  | releaseItem l here => exact setNextDone_update .released here rfl k
  | startItem l here => exact absurd rfl quiet
  | startDelete l here => exact setNextDone_update .deleting here rfl k
  | _ => rfl

theorem called_setNextDone {e : Fork.Event Error} (called : Called s e f new) (k : Nat) :
    setNextDone (f.phase k) = setNextDone (s.fork.phase k) := by
  cases called with
  | setNext l _ here => exact setNextDone_update .setup here rfl k
  | newValue l here => exact setNextDone_update .allocated here rfl k
  | nextValue l r here => exact setNextDone_update .completed here rfl k
  | deleteValue l here => exact setNextDone_update .deleted here rfl k
  | upstreamValue => rfl

/-- A step of `zip` or of `fork` that starts no read. -/
theorem Joined.congr {s' : Batch Error} (joined : Joined buffers offsets s) (reads : s'.reads = s.reads)
    (started : s'.started = s.started)
    (phases : ∀ k, setNextDone (s'.fork.phase k) = setNextDone (s.fork.phase k))
    (zipped : ∀ k e, s'.zip.emitted[k]? = some e → e.trigger ∈ s'.zip.completedZipped →
      setNextDone (s.fork.phase k) = true)
    (upstream : s'.fork.upstream ≠ .running → s'.zip.completions ≠ []) : Joined buffers offsets s' where
  reading k := by rw [reads,phases]; exact joined.reading k
  arguments := by rw [reads]; exact joined.arguments
  zipped k e at_k done := by rw [phases]; exact zipped k e at_k done
  order := by rw [started]; exact joined.order
  counted := by rw [started,reads]; exact joined.counted
  upstream := upstream

/-- The next read is started. -/
theorem Joined.startRead {k : Nat} {b : Buffer} {o : BitVec 64} (joined : Joined buffers offsets s)
    (allocated : s.fork.phase k = .allocated) (at_b : buffers[k]? = some b) (at_o : offsets[k]? = some o)
    (earlier : ∀ j, j < k → setNextDone (s.fork.phase j) = true) :
    Joined buffers offsets (Batch.withRead { s with
      fork := { s.fork with phase := Function.update s.fork.phase k .running } } k b o) := by
  have fresh : (s.reads k).isSome = false := by rw [joined.reading,allocated]; rfl
  have next : k = s.started.length := by
    have here : ¬ k < s.started.length := fun before => by simp [(joined.counted k).mpr before] at fresh
    have there : ¬ s.started.length < k := fun before => by
      have some := earlier _ before
      rw [← joined.reading,joined.counted] at some
      omega
    omega
  refine ⟨fun l => ?_,fun l r at_l => ?_,fun l e at_l done => ?_,?_,fun l => ?_,joined.upstream⟩
  · by_cases same : l = k
    · subst same
      simp [Batch.withRead,setNextDone]
    · simpa [Batch.withRead,same] using joined.reading l
  · by_cases same : l = k
    · subst same
      obtain rfl : _ = r := by simpa [Batch.withRead] using at_l
      exact ⟨at_b,at_o⟩
    · exact joined.arguments l r (by simpa [Batch.withRead,same] using at_l)
  · exact setNextDone_mono (rank_update (by simp [allocated,rank]) l) (joined.zipped l e at_l done)
  · simp only [Batch.withRead,List.length_append,List.length_singleton]
    rw [List.range_succ,← joined.order,← next]
  · simp only [Batch.withRead,List.length_append,List.length_singleton]
    by_cases same : l = k
    · subst same
      simp [next]
    · rw [Function.update_of_ne same,joined.counted]
      omega

/-- A reply leaves the arguments of a read as they are. -/
theorem Joined.reply {k n : Nat} {r : Read Error} (joined : Joined buffers offsets s) (at_k : s.reads k = some r) :
    Joined buffers offsets (s.reply k r n) := by
  have some : ∀ l, ((s.reply k r n).reads l).isSome = (s.reads l).isSome := by
    intro l
    by_cases same : l = k
    · subst same
      simp [Batch.reply,at_k]
    · simp [Batch.reply,same]
  refine ⟨fun l => ?_,fun l r' at_l => ?_,joined.zipped,joined.order,fun l => ?_,joined.upstream⟩
  · rw [some]
    exact joined.reading l
  · by_cases same : l = k
    · subst same
      obtain rfl : _ = r' := by simpa [Batch.reply] using at_l
      exact joined.arguments l r at_k
    · exact joined.arguments l r' (by simpa [Batch.reply,same] using at_l)
  · rw [some]
    exact joined.counted l

theorem reads_joined (reads : Reads buffers offsets w c stack) : Joined buffers offsets c.shared := by
  refine Reads.shared_invariant ?_ ?_ ?_ ?_ ?_ ?_ ?_ reads
  · constructor <;> simp [initial,Zip.initial,Fork.start,Fork.constructed,setNextDone]
  · intro now later stack p i z new before after same joined ran
    have frame := ran_frame ran
    refine joined.congr rfl rfl (fun _ => rfl) (fun k e at_k done => ?_) fun ended => ?_
    · rw [frame.completedZipped] at done
      obtain ⟨more,whole⟩ := frame.emitted
      by_cases inside : k < now.shared.zip.emitted.length
      · refine joined.zipped k e ?_ done
        rwa [← whole,List.getElem?_append_left inside] at at_k
      · obtain ⟨d,member,trigger⟩ := List.mem_map.mp ((reads_zip before).known.running _ done)
        obtain ⟨l,bound,at_l⟩ := List.getElem_of_mem member
        have first := trigger_seq before (List.getElem?_eq_some_iff.mpr ⟨bound,at_l⟩)
        have second := trigger_seq after (k := k) (e := e) (by rw [same]; exact at_k)
        rw [zipOf_shared] at bound
        rw [trigger] at first
        omega
    · obtain ⟨delivery,member⟩ := List.exists_mem_of_ne_nil _ (joined.upstream ended)
      cases ran <;> first | exact List.ne_nil_of_mem member | simp
  · intro now stack p i f new before joined works quiet
    refine joined.congr rfl rfl (works_setNextDone works quiet) joined.zipped fun ended => joined.upstream ?_
    cases works with
    | releaseUpstream completing => simp [completing]
    | _ => exact ended
  · intro now stack k b o before joined allocated at_b at_o
    refine joined.startRead allocated at_b at_o fun j earlier => ?_
    have inside := reads_inside before k (by simp [allocated])
    have at_j := List.getElem?_eq_getElem (earlier.trans inside)
    exact joined.zipped j _ at_j (earlier_zipped before at_j (by omega))
  · intro now stack e z new position before joined supplied
    cases supplied with
    | zippedValue k e at_k done open_ =>
      refine joined.congr rfl rfl (fun _ => rfl) (fun l e' at_l zipped => ?_) joined.upstream
      rcases List.mem_append.mp zipped with earlier | now
      · exact joined.zipped l e' at_l earlier
      · have first := trigger_seq before at_l
        have second := trigger_seq before at_k
        rw [List.mem_singleton.mp now] at first
        obtain rfl : k = l := second.symm.trans first
        exact done
    | _ => exact joined.congr rfl rfl (fun _ => rfl) joined.zipped joined.upstream
  · intro now stack e f new before joined called
    refine joined.congr rfl rfl (called_setNextDone called) joined.zipped ?_
    cases called with
    | upstreamValue _ completed => exact fun _ => completed
    | _ => exact joined.upstream
  · intro now stack k n r sqe before joined at_k next answers
    exact joined.reply at_k

end SendersIo.ReadBatchedForks
