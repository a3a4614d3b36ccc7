import SendersIo.ReadBatchedBytes
import SendersIo.ZipTrigger

/-!
A run of the reads that has not completed goes on. A handler is never stuck at an
instruction: who collects the results finds an item in every queue. When no handler is
active, every read has completed and every item with it, unless the kernel answers; and
then a sequence hands out its next item, or completes, until the zip and the fork have
completed.
-/
namespace SendersIo.ReadBatchedProgress
open SendersIo.Interleaving SendersIo.Signals SendersIo.Buffers SendersIo.FileHandle SendersIo.ReadBatched
open SendersIo.ReadBatchedItems SendersIo.ReadBatchedForks SendersIo.ReadBatchedBytes
open SendersIo.Zip (Item OperationBase)

/-! ### A single thread guards the queues -/

section
variable {n : Nat} {Value Error : Type}
  {c : Config (Zip.Party n) (OperationBase n Value Error) (Zip.Instr n Value Error)} {stack : List (Zip.Party n)}
  {p q : Zip.Party n} {i j : Zip.Instr n Value Error} {rest : List (Zip.Instr n Value Error)}

/-- Nobody is in the handler of a value while another handler is the innermost one. -/
theorem quiet_of_other (inv : ZipPairing.Invariant c (p :: stack)) (other : q ≠ p) (member : j ∈ c.threads q) :
    j.ofItem = false := by
  by_cases active : q ∈ stack
  · exact (inv.below q active).2 j member
  · rw [inv.off q (by simp [other,active])] at member
    cases member

/-- The innermost handler is in the handler of a value only with its last instruction. -/
theorem quiet_of_rest (inv : ZipPairing.Invariant c (p :: stack)) (left : c.threads p = i :: rest) (member : j ∈ rest) :
    j.ofItem = false := by
  rcases inv.top with ⟨_,calm⟩ | ⟨q,top,k,only,_⟩
  · exact calm p rfl j (by simp [left,member])
  · obtain rfl : p = q := by simpa using top
    obtain ⟨rfl,rfl⟩ := List.cons.inj (left.symm.trans only)
    cases member

theorem doing_of_left (inv : ZipPairing.Invariant c (p :: stack)) (left : c.threads p = i :: rest)
    (steps : i.ofItem = true) : ZipPairing.Doing c.shared i := by
  rcases inv.top with ⟨_,calm⟩ | ⟨q,top,j,only,doing⟩
  · have quiet := calm p rfl i (by simp [left])
    simp [steps] at quiet
  · obtain rfl : p = q := by simpa using top
    obtain ⟨rfl,_⟩ := List.cons.inj (left.symm.trans only)
    exact doing

/-- The runs of a single thread are runs that guard the queues. -/
theorem nested_guarded (positive : 0 < n)
    (nested : Nested (Zip.machine n Value (none : Option Error)) Zip.isCallout Any (Zip.initial n Value Error) c stack) :
    Reach (Zip.machine n Value none) ZipTrigger.Guarded (Zip.initial n Value Error) c := by
  induction nested with
  | start => exact .start
  | @run c c' p below before _ moved ih =>
    refine .step ih ?_ moved
    have inv := ZipPairing.nested_invariant positive before
    obtain ⟨i,rest,_,_,left,_,_⟩ := (mem_next_run _).mp moved
    have others : ∀ q, ∀ j ∈ c.threads q, j.ofItem = false ∨ q = p ∧ j = i := by
      intro q j member
      by_cases other : q = p
      · subst other
        rw [left] at member
        exact (List.mem_cons.mp member).symm.imp (quiet_of_rest inv left) fun same => ⟨rfl,same⟩
      · exact .inl (quiet_of_other inv other member)
    simp only [ZipTrigger.Guarded,left]
    cases i with
    | clearQueues =>
      intro q j member
      by_contra phase
      rcases others q j member with quiet | ⟨_,rfl⟩
      · simp [ZipTrigger.ofItem_of_phase phase] at quiet
      · exact phase rfl
    | recount x result =>
      intro k y _ q member
      rcases others q _ member with quiet | ⟨_,same⟩ <;> contradiction
    | _ => trivial
  | finish _ _ ih => exact ih
  | call _ _ _ moved ih =>
    refine .step ih ?_ moved
    trivial

end
variable {Error : Type} {c : Config Party (Batch Error) (Instr Error)} {s : Batch Error} {stack below : List Party}
  {buffers : List Buffer} {offsets : List (BitVec 64)} {w : World} {z : OperationBase 2 Value Error}
  {p : Zip.Party 2} {i : Zip.Instr 2 Value Error} {new rest : List (Zip.Instr 2 Value Error)}

/-! ### A handler goes on -/

/-- Who collects the results finds an item in every queue. -/
theorem collecting_nonempty (reads : Reads buffers offsets w c stack) (member : i ∈ (zipOf c).threads p)
    (collecting : i.phase = some .collecting) (k : Fin 2) : c.shared.zip.queues k ≠ [] := by
  have guarded := ZipTrigger.reach_invariant (nested_guarded (by decide) (nested_parts reads).2.1)
  obtain ⟨counted,phase,owner,ready⟩ := guarded.ready
  have here := (ZipTrigger.mem_stage (ZipTrigger.ofItem_of_phase (by simp [collecting]))).mpr member
  obtain ⟨rfl,_⟩ := ready.busy p i here _ collecting
  exact ready.front k (ready.full trivial ▸ Finset.mem_univ k)

theorem allSome_isSome {n : Nat} {α : Type} {f : Fin n → Option α} (present : ∀ k, (f k).isSome = true) :
    (Zip.allSome f).isSome = true := by
  rw [Zip.allSome,dif_pos present]
  rfl

/-- The result of an item that waits is there. -/
theorem result_of_waiting {x : Item 2} {k : Fin 2} {popped : Fin 2 → List (Item 2 × Value)}
    (paired : ZipPairing.Paired z popped) (member : x ∈ z.queues k) : (z.result x).isSome = true := by
  have here : (x,z.result x) ∈ (z.arrived k).map ZipPairing.stored := by
    rw [paired k]
    exact List.mem_append_right _ (List.mem_map_of_mem (f := fun x => (x,z.result x)) member)
  obtain ⟨a,_,same⟩ := List.mem_map.mp here
  rw [← (Prod.mk.inj same).2]
  rfl

/-- No handler of `zip` is stuck. -/
theorem zip_goes_on (reads : Reads buffers offsets w c (.zip p :: below)) (left : (zipOf c).threads p = i :: rest) :
    zipExec i c.shared.zip ≠ [] := by
  have inv := reads_zip reads
  have here : i ∈ (zipOf c).threads p := by simp [left]
  have doing := doing_of_left inv left
  cases i with
  | collectResults x =>
    have full := collecting_nonempty reads here rfl
    cases doing rfl with
    | collectResults _ _ paired =>
      have present : (Zip.frontResults c.shared.zip).isSome = true := by
        refine allSome_isSome fun k => ?_
        obtain ⟨y,later,queue⟩ := List.exists_cons_of_ne_nil (full k)
        rw [queue]
        exact result_of_waiting paired (show y ∈ c.shared.zip.queues k by simp [queue])
      obtain ⟨result,some⟩ := Option.isSome_iff_exists.mp present
      simp [zipExec,Zip.exec,Zip.notify,some]
  | popFronts x result =>
    have full := collecting_nonempty reads here rfl
    have present : (Zip.fronts c.shared.zip).isSome = true := by
      refine allSome_isSome fun k => ?_
      obtain ⟨y,later,queue⟩ := List.exists_cons_of_ne_nil (full k)
      simp [queue]
    obtain ⟨ops,some⟩ := Option.isSome_iff_exists.mp present
    simp [zipExec,Zip.exec,Zip.notify,some]
  | startZipped x result next =>
    cases doing rfl with
    | startZipped _ _ ops _ _ held =>
      rw [zipOf_shared] at held
      simp [zipExec,Zip.exec,Zip.notify,held]
  | startNext x => cases doing rfl
  | completeAllItemOps x =>
    obtain ⟨e,member,rfl⟩ := List.mem_map.mp (inv.completing p x here)
    have held := (inv.known.held e member).1
    rw [zipOf_shared] at held
    simp [zipExec,Zip.exec,held]
  | notifyResultCompletion x =>
    simp only [zipExec,Zip.exec,Zip.notify]
    split <;> simp
  | recount x result =>
    simp only [zipExec,Zip.exec,Zip.notify]
    split <;> simp
  | _ => simp [zipExec,Zip.exec,Zip.notify]

/-- No handler of `fork` is stuck. -/
theorem fork_goes_on {p : Fork.Party} {i : Fork.Instr Error} {rest : List (Fork.Instr Error)}
    (reads : Reads buffers offsets w c stack) (left : (forkOf c).threads p = i :: rest) :
    Fork.exec p i c.shared.fork ≠ [] := by
  have shape := (reads_fork reads).counted.party p
  rw [left] at shape
  rcases Fork.party_cases shape with ⟨light,-⟩ | ⟨rfl,-⟩ | ⟨k,rfl,-,⟨rfl,-⟩ | ⟨rfl,-⟩⟩ | ⟨finishing,-⟩
  · cases i <;> first | exact light.elim | simp [Fork.exec]
    split <;> simp
  · simp [Fork.exec]
  · simp [Fork.exec]
  · simp [Fork.exec]
  · rcases finishing_cases finishing ((reads_calm reads).plain p i (by simp [left])) with rfl | rfl | rfl <;> simp [Fork.exec]

/-- An active handler takes its next step, or returns. -/
theorem handler_goes_on {p : Party} (reads : Reads buffers offsets w c (p :: below)) :
    ∃ later, Advance (machine Error) isCallout Any (c,p :: below) later := by
  have kinds := (nested_parts reads).1
  cases left : c.threads p with
  | nil => exact ⟨_,.finish left⟩
  | cons i rest =>
    have some : (machine Error).exec p i c.shared ≠ [] := by
      cases p with
      | kernel => simp [kinds.kernel] at left
      | zip q =>
        cases i with
        | fork j => simpa [Instr.zip?] using kinds.zip q (.fork j) (by simp [left])
        | zip j =>
          have here : (zipOf c).threads q = j :: rest.filterMap Instr.zip? := by simp [zipOf,left,Instr.zip?]
          have goes := zip_goes_on reads here
          simpa [machine,exec] using goes
      | fork q =>
        cases i with
        | zip j => simpa [Instr.fork?] using kinds.fork q (.zip j) (by simp [left])
        | fork j =>
          have here : (forkOf c).threads q = j :: rest.filterMap Instr.fork? := by simp [forkOf,left,Instr.fork?]
          have goes := fork_goes_on reads here
          simpa [machine,exec,forkExec] using goes
    obtain ⟨⟨s,new⟩,ran⟩ := List.exists_mem_of_ne_nil _ some
    exact ⟨_,.run trivial ((mem_next_run _).mpr ⟨i,rest,s,new,left,ran,rfl⟩)⟩

/-! ### The handlers of a stop -/

/-- What the handlers of a sequence that has completed look like, and that a stop clears
    the queues. -/
structure Steady (d : Zipping Error) : Prop where
  alone : ∀ p k signal, .fetchSub k signal ∈ d.threads p → d.threads p = [.fetchSub k signal]
  asks : ∀ p, .requestStop ∈ d.threads p → d.threads p = [.requestStop,.clearQueues]
  cleared : d.shared.stopRequested = true → (∀ k, d.shared.queues k = []) ∨ ∃ p, .clearQueues ∈ d.threads p

/-- A stop is requested by a sequence that is not the last one to complete, and only a
    new handler decrements the counter. -/
theorem stop_fresh {z' : OperationBase 2 Value Error} {j : Zip.Instr 2 Value Error} (calm : z.outerStopRequested = false)
    (sound : Sound z i) (ran : Zip.Ran none z i z' new) (member : j ∈ new)
    (stops : j = .requestStop ∨ ∃ k signal, j = .fetchSub k signal) :
    j = .requestStop ∧ (∃ k signal, i = .fetchSub k signal) ∧ new = [.requestStop,.clearQueues] := by
  cases ran with
  | emplaceThrows _ _ e throws => cases throws
  | zippedThrows _ _ _ e throws => cases throws
  | completeAllItemOps x ops held =>
    obtain ⟨l,rfl⟩ := Zip.mem_completeAll.mp member
    simp at stops
  | clearQueues =>
    obtain ⟨l,x,_,rfl⟩ := Zip.mem_completeQueues.mp member
    simp at stops
  | fetchSub l signal =>
    split at member
    · have new : (if z.nPendingOperations > 1 then Zip.notLast signal else [.resetStopCallback signal]) =
          [.requestStop,.clearQueues] := (if_pos ‹_›).trans (notLast_of_value sound.2)
      rw [notLast_of_value sound.2] at member
      refine ⟨?_,⟨l,signal,rfl⟩,new⟩
      rcases List.mem_cons.mp member with same | later
      · exact same
      · obtain rfl := List.mem_singleton.mp later
        simp at stops
    · obtain rfl := List.mem_singleton.mp member
      simp at stops
  | emplaceStopCallback => simp [calm] at member
  | announced =>
    split at member
    · obtain rfl := List.mem_singleton.mp member
      simp at stops
    · cases member
  | testStop | checkStop => split at member <;> obtain rfl := List.mem_singleton.mp member <;> simp at stops
  | startZipped _ _ next =>
    rcases List.mem_cons.mp member with rfl | later
    · simp at stops
    · cases next
      · cases later
      · obtain rfl := List.mem_singleton.mp later
        simp at stops
  | _ =>
    first
      | cases member; done
      | obtain rfl := List.mem_singleton.mp member; simp at stops

/-- The queues that are empty stay so once a stop is requested. -/
theorem ran_queues {z' : OperationBase 2 Value Error} (doing : i.ofItem = true → ZipPairing.Doing z i)
    (stop : z.stopRequested = true) (empty : ∀ k, z.queues k = []) (ran : Zip.Ran none z i z' new) (k : Fin 2) :
    z'.queues k = [] := by
  cases ran with
  | pushBack x =>
    cases doing rfl with
    | pushBack _ _ goes => simp [goes] at stop
  | popFronts x result ops => simp [empty]
  | clearQueues => rfl
  | _ => exact empty k

/-- A step of the innermost handler. -/
theorem steady_run {d : Zipping Error} {top : List (Zip.Party 2)} (steady : Steady d)
    (inv : ZipPairing.Invariant d (p :: top)) (calm : d.shared.outerStopRequested = false) (sound : Sound d.shared i)
    (left : d.threads p = i :: rest) (ran : Zip.Ran none d.shared i z new) : Steady (d.put p z (new ++ rest)) := by
  refine ⟨fun q k signal member => ?_,fun q member => ?_,fun stop => ?_⟩
  · rw [put_threads] at member ⊢
    split at member
    · rename_i here
      subst here
      have later := (List.mem_append.mp member).resolve_left fun fresh => by
        cases (stop_fresh calm sound ran fresh (.inr ⟨k,signal,rfl⟩)).1
      have only := steady.alone q k signal (by simp [left,later])
      rw [left] at only
      obtain ⟨_,rfl⟩ := List.cons.inj only
      cases later
    · rename_i other
      rw [if_neg other]
      exact steady.alone q k signal member
  · rw [put_threads] at member ⊢
    split at member
    · rename_i here
      subst here
      rw [if_pos rfl]
      rcases List.mem_append.mp member with fresh | later
      · obtain ⟨_,⟨k,signal,rfl⟩,rfl⟩ := stop_fresh calm sound ran fresh (.inl rfl)
        have only := steady.alone q k signal (by simp [left])
        rw [left] at only
        obtain ⟨_,rfl⟩ := List.cons.inj only
        rfl
      · have both := steady.asks q (by simp [left,later])
        rw [left] at both
        obtain ⟨_,rfl⟩ := List.cons.inj both
        simp at later
    · rename_i other
      rw [if_neg other]
      exact steady.asks q member
  · have doing := doing_of_left inv left
    by_cases clears : i = .clearQueues
    · subst clears
      cases ran
      exact .inl fun _ => rfl
    · by_cases requests : i = .requestStop
      · subst requests
        have both := steady.asks p (by simp [left])
        rw [left] at both
        obtain ⟨_,rfl⟩ := List.cons.inj both
        exact .inr ⟨p,by simp⟩
      · have before : d.shared.stopRequested = true := (ran_stop ran).resolve_right requests ▸ stop
        rcases steady.cleared before with empty | ⟨q,member⟩
        · exact .inl (ran_queues doing before empty ran)
        · exact .inr ⟨q,mem_put_of_ne left member (Ne.symm clears)⟩

theorem steady_event {d : Zipping Error} {e : Zip.Event 2 Value Error} {position : Fin 2 → Nat} (steady : Steady d)
    (same : d.shared = s.zip) (idle : d.threads p = []) (supplied : Supplied s e z new position) :
    Steady (d.put p z new) := by
  obtain ⟨shared,threads⟩ := d
  simp only at same
  subst same
  have stays : ∀ {q : Zip.Party 2} {j : Zip.Instr 2 Value Error}, j ∈ threads q →
      j ∈ ((Config.mk s.zip threads).put p z new).threads q := by
    intro q j member
    rw [put_threads]
    split
    · rename_i here
      subst here
      rw [show threads q = [] from idle] at member
      cases member
    · exact member
  have alone : (∀ k signal, .fetchSub k signal ∈ new → new = [.fetchSub k signal]) → ∀ q k signal,
      .fetchSub k signal ∈ ((Config.mk s.zip threads).put p z new).threads q →
      ((Config.mk s.zip threads).put p z new).threads q = [.fetchSub k signal] := by
    intro fresh q k signal member
    rw [put_threads] at member ⊢
    split at member
    · rw [if_pos ‹_›]
      exact fresh k signal member
    · rw [if_neg ‹_›]
      exact steady.alone q k signal member
  have asks : .requestStop ∉ new → ∀ q, .requestStop ∈ ((Config.mk s.zip threads).put p z new).threads q →
      ((Config.mk s.zip threads).put p z new).threads q = [.requestStop,.clearQueues] := by
    intro fresh q member
    rw [put_threads] at member ⊢
    split at member
    · exact absurd member fresh
    · rw [if_neg ‹_›]
      exact steady.asks q member
  cases supplied with
  | start | setNext | itemValue | zippedValue =>
    exact ⟨alone (by simp [Zip.itemSetValue,Zip.zippedSetValue]),asks (by simp [Zip.itemSetValue,Zip.zippedSetValue]),
      fun stop => (steady.cleared stop).imp_right fun ⟨q,member⟩ => ⟨q,stays member⟩⟩
  | childCompletes k signal =>
    exact ⟨alone (by simp [Zip.childComplete]),asks (by simp [Zip.childComplete]),
      fun stop => (steady.cleared stop).imp_right fun ⟨q,member⟩ => ⟨q,stays member⟩⟩

theorem reads_steady (reads : Reads buffers offsets w c stack) : Steady (zipOf c) := by
  refine Reads.zip_invariant (J := fun d _ => Steady d) ⟨by simp [Zip.initial],by simp [Zip.initial],
    by simp [Zip.initial]⟩ ?_ ?_ reads
  · intro now later stack p i rest z new before _ steady left ran _ _
    have ending := reads_ending before
    exact steady_run steady (reads_zip before) ending.calm (ending.sound p i (by simp [left])) left (ran_of_zipExec ran)
  · intro now later stack p e z new position _ _ steady _ supplied _ idle _ _
    exact steady_event steady rfl idle supplied

/-! ### The environment goes on -/

/-- No event can be raised. -/
def Stuck (s : Batch Error) : Prop := ∀ e, accept e s = none

theorem Stuck.zip {e : Zip.Event 2 Value Error} (stuck : Stuck s) (permitted : s.permitsZip e = true) :
    Zip.accept e s.zip = none := by
  have nothing := stuck (.zip e)
  rw [accept,if_pos permitted] at nothing
  exact Option.map_eq_none_iff.mp nothing

theorem Stuck.fork {e : Fork.Event Error} (stuck : Stuck s) (permitted : s.permitsFork e = true) :
    Fork.accept e s.fork = none := by
  have nothing := stuck (.fork e)
  rw [accept,if_pos permitted] at nothing
  exact Option.map_eq_none_iff.mp nothing

theorem move_none {f : Fork.OperationBase Error} {k : Nat} {before after : Fork.Phase} {prog : List (Fork.Instr Error)}
    (nothing : Fork.move f k before after prog = none) : f.phase k ≠ before := by
  intro here
  simp [Fork.move,here] at nothing

section
variable (within : Within buffers offsets w.file) (reads : Reads buffers offsets w c []) (stuck : Stuck c.shared)
include reads

theorem all_idle (p : Party) : c.threads p = [] := reads.idle (fun _ => rfl) p (by simp)

theorem fork_idle (p : Fork.Party) : (forkOf c).threads p = [] := by simp [forkOf,all_idle reads]

theorem zip_idle (p : Zip.Party 2) : (zipOf c).threads p = [] := by simp [zipOf,all_idle reads]

include stuck

theorem stuck_started (i : Fin 2) : i ∈ c.shared.zip.startedChildren := by
  have begun : c.shared.zip.begun = true := by
    have nothing := stuck.zip (e := .start) rfl
    by_contra fresh
    simp [Zip.accept,fresh] at nothing
  refine ((ZipOutcome.reach_orderly (nested_parts reads).2.1.reach).children begun i).resolve_right ?_
  simp [zip_idle reads]

include within in
/-- Every read that was started has completed: the kernel can answer a request. -/
theorem stuck_reads {k : Nat} {r : Read Error} (at_k : c.shared.reads k = some r) :
    r.stream.completions = [.value r.buffer.size] := by
  rcases served_cases ((reads_filled within reads).served k r at_k) with ⟨more,_⟩ | ⟨_,completed,_⟩
  · exfalso
    obtain ⟨sqe,next⟩ := Option.isSome_iff_exists.mp more
    have some : ∃ n, kernelAnswers c.shared.world sqe n = true := by
      unfold kernelAnswers
      by_cases none : sqe.length = 0 ∨ c.shared.world.file.size ≤ c.shared.world.place sqe
      · exact ⟨0,by simp [none]⟩
      · exact ⟨1,by simp [none]; omega⟩
    obtain ⟨n,answers⟩ := some
    have nothing := stuck (.reply k n)
    simp [accept,at_k,next,answers] at nothing
  · exact completed

include within in
/-- Every item is done that was started. -/
theorem stuck_phase (k : Nat) : c.shared.fork.phase k = .fresh ∨ c.shared.fork.phase k = .released := by
  have shape := (reads_fork reads).counted.items k
  have fine := (reads_calm reads).fine k
  rw [fork_idle reads] at shape
  simp only [forkOf_shared] at shape fine
  have setup := move_none (stuck.fork (e := .newValue k) rfl)
  have deleting := move_none (stuck.fork (e := .deleteValue k) rfl)
  have running : c.shared.fork.phase k ≠ .running := by
    intro here
    have read := (reads_joined reads).reading k
    rw [here] at read
    obtain ⟨r,at_k⟩ := Option.isSome_iff_exists.mp read
    refine move_none (stuck.fork (e := .nextValue k) ?_) here
    simp [Batch.permitsFork,at_k,stuck_reads within reads stuck at_k,Completion.isValue]
  generalize c.shared.fork.phase k = phase at *
  cases shape with
  | fresh => exact .inl rfl
  | released | finishing => exact .inr rfl
  | failed => exact absurd rfl fine.1
  | completed whole => obtain ⟨l,_,same⟩ := whole; simp at same
  | _ => contradiction

include within in
/-- The upstream sequence of an operation that has not completed is still running. -/
theorem stuck_upstream (open_ : c.shared.fork.completions = []) : c.shared.fork.upstream = .running := by
  have inv := reads_fork reads
  have shape := inv.counted.upstream
  have begun := (reads_calm reads).begun
  have holders : c.shared.fork.holders = [] := by
    refine List.eq_nil_iff_forall_not_mem.mpr fun k member => ?_
    have holding : Fork.Holding (c.shared.fork.phase k) := (inv.counted.holding k).mp member
    rcases stuck_phase within reads stuck k with here | here <;> rw [here] at holding <;> exact holding
  rw [fork_idle reads] at shape
  simp only [forkOf_shared] at shape begun
  cases at_u : c.shared.fork.upstream with
  | running => rfl
  | unstarted => exact absurd at_u begun
  | completing =>
    rw [at_u] at shape
    cases shape with
    | completing whole => obtain ⟨l,_,same⟩ := whole; simp at same
  | released =>
    have none : c.shared.fork.refCounter = 0 := by simpa [at_u,holders] using inv.counted.counter
    obtain ⟨p,finishing⟩ := inv.finish.unfinished open_ none
    rw [fork_idle reads] at finishing
    rcases finishing with same | same | ⟨_,same⟩ <;> cases same

include within in
/-- The zipped operation of every tuple has completed. -/
theorem stuck_zipped (running : c.shared.fork.upstream = .running) :
    ∀ e ∈ c.shared.zip.emitted, e.trigger ∈ c.shared.zip.completedZipped := by
  intro e member
  obtain ⟨k,inside,at_k⟩ := List.getElem_of_mem member
  have some : c.shared.zip.emitted[k]? = some e := List.getElem?_eq_some_iff.mpr ⟨inside,at_k⟩
  have released : c.shared.fork.phase k = .released := by
    refine (stuck_phase within reads stuck k).resolve_left fun fresh => ?_
    have nothing := stuck.fork (e := .setNext k) (by simpa [Batch.permitsFork] using inside)
    simp only [Fork.accept,running,fresh,and_self,if_true] at nothing
    split at nothing <;> cases nothing
  have permitted : c.shared.permitsZip (.zippedValue e.trigger) = true := by
    refine List.any_eq_true.mpr ⟨(e,k),List.mem_zipIdx_iff_getElem?.mpr some,?_⟩
    simp [released,setNextDone]
  have nothing := stuck.zip permitted
  by_contra open_
  simp [Zip.accept,open_] at nothing
  exact nothing e member rfl

/-- The sender of every item has completed. -/
theorem stuck_completed (x : Item 2) (started : x ∈ c.shared.zip.startedItems) : x ∈ c.shared.zip.completedItems := by
  have handed := reads_handed reads
  have inside : x.seq < (c.shared.items x.index).length := by
    rw [reads_items reads]
    exact ((handed.started x).mp started).trans_le (handed.inside x.index)
  have nothing := stuck.zip (e := .itemValue x ((c.shared.items x.index)[x.seq])) (by simp [Batch.permitsZip])
  by_contra open_
  simp [Zip.accept,started,open_] at nothing

include within in
/-- An item that does not wait in a queue is completed. -/
theorem stuck_done (running : c.shared.fork.upstream = .running) {x : Item 2} (empty : c.shared.zip.queues x.index = [])
    (started : x ∈ c.shared.zip.startedItems) : x ∈ c.shared.zip.itemCompletions.map (·.1) := by
  have placed := (reads_zip reads).placed x
  rw [if_pos (show x ∈ (zipOf c).shared.completedItems from stuck_completed reads stuck x started)] at placed
  have none : ZipPairing.runningWith c.shared.zip x = 0 :=
    List.countP_eq_zero.mpr fun e member => by simp [stuck_zipped within reads stuck running e member]
  simp only [ZipPairing.places,ZipPairing.kept,zipOf_shared,zipStack,List.filterMap_nil,List.map_nil,List.sum_nil,none,empty,
    List.count_nil,Nat.add_zero] at placed
  exact List.count_pos_iff.mp (by omega)

include within in
/-- A sequence none of whose items wait has completed. -/
theorem stuck_child (running : c.shared.fork.upstream = .running) {i : Fin 2} (empty : c.shared.zip.queues i = []) :
    i ∈ c.shared.zip.completedChildren := by
  by_contra open_
  have handed := reads_handed reads
  have done : ∀ x ∈ c.shared.zip.startedItems, x.index = i → x ∈ c.shared.zip.itemCompletions.map (·.1) := by
    rintro x started rfl
    exact stuck_done within reads stuck running empty started
  have closed : ¬ Zip.ItemsOpen c.shared.zip i := fun ⟨x,started,index,pending⟩ => pending (done x started index)
  have completes : ¬ ((c.shared.goesOn i = true ∧ c.shared.position i = (c.shared.items i).length) ∨
      c.shared.itemDone i Completion.isStopped = true) := by
    intro ended
    have nothing := stuck.zip (e := .childCompletes i (.value ())) (by
      simpa [Batch.permitsZip,Completion.error?] using ended)
    simp [Zip.accept,stuck_started reads stuck i,open_,closed] at nothing
  have hands : ¬ (c.shared.goesOn i = true ∧ c.shared.position i < (c.shared.items i).length) := by
    rintro ⟨goes,more⟩
    have nothing := stuck.zip (e := .setNext ⟨i,c.shared.position i⟩) (by simp [Batch.permitsZip,goes,more])
    have fresh : (⟨i,c.shared.position i⟩ : Item 2) ∉ c.shared.zip.startedItems := fun before =>
      absurd ((handed.started _).mp before) (by simp)
    simp [Zip.accept,stuck_started reads stuck i,open_,fresh] at nothing
  have inside : c.shared.position i ≤ (c.shared.items i).length := by
    rw [reads_items reads]
    exact handed.inside i
  have goes : c.shared.goesOn i ≠ true := fun goes =>
    (Nat.lt_or_eq_of_le inside).elim (fun more => hands ⟨goes,more⟩) fun all => completes (.inl ⟨goes,all⟩)
  have some : c.shared.position i ≠ 0 := fun none => goes (by simp [Batch.goesOn,none])
  have last : (⟨i,c.shared.position i - 1⟩ : Item 2) ∈ c.shared.zip.startedItems :=
    (handed.started _).mpr (by simp only; omega)
  obtain ⟨⟨x,signal⟩,member,rfl⟩ := List.mem_map.mp (done _ last rfl)
  have itemDone : ∀ {such : Signal Error → Bool}, such signal = true → c.shared.itemDone i such = true := fun holds =>
    List.any_eq_true.mpr ⟨_,member,by simpa using holds⟩
  cases signal with
  | value => exact goes (Bool.or_eq_true_iff.mpr (.inr (itemDone rfl)))
  | stopped => exact completes (.inr (itemDone rfl))
  | error e => exact (ZipOutcome.reach_orderly (nested_parts reads).2.1.reach).fine _ member e rfl

include within in
/-- The zip has completed. -/
theorem stuck_zip (running : c.shared.fork.upstream = .running) : c.shared.zip.completions ≠ [] := by
  intro none
  have counted := ZipOutcome.reach_counted (nested_parts reads).2.1.reach
  have ending := reads_ending reads
  have steady := reads_steady reads
  have stages : ∀ p, ZipOutcome.stage (zipOf c) p = [] := fun p => by simp [ZipOutcome.stage,zip_idle reads]
  have undecremented : ∀ i ∈ c.shared.zip.completedChildren, i ∈ c.shared.zip.decremented := by
    intro i member
    by_contra open_
    obtain ⟨signal,here⟩ := counted.waiting i member open_
    simp [stages] at here
  cases stop : c.shared.zip.stopRequested with
  | true =>
    have empty : ∀ i, c.shared.zip.queues i = [] := (steady.cleared stop).resolve_right (by simp [zip_idle reads])
    have all : c.shared.zip.decremented.length = 2 :=
      length_of_mem counted.distinct fun i => undecremented i (stuck_child within reads stuck running (empty i))
    obtain ⟨p,i,member,_⟩ := counted.unfinished none all (by decide)
    simp [stages] at member
  | false =>
    have first : c.shared.zip.decremented = [] := by
      by_contra some
      rcases ending.wants some with requested | ⟨p,rest,here⟩
      · simp [stop] at requested
      · simp [zip_idle reads] at here
    have few := ((reads_zip reads).outside trivial).1.few
    obtain ⟨i,empty⟩ : ∃ i, c.shared.zip.queues i = [] := by
      by_contra full
      rw [not_exists] at full
      simp [Zip.nonEmpty,full] at few
    have member := undecremented i (stuck_child within reads stuck running empty)
    simp [first] at member

end

/-- An operation that has not completed goes on. -/
theorem reads_go_on (within : Within buffers offsets w.file) (reads : Reads buffers offsets w c stack)
    (open_ : c.shared.fork.completions = []) : ∃ later, Advance (machine Error) isCallout Any (c,stack) later := by
  cases stack with
  | cons p below => exact handler_goes_on reads
  | nil =>
    by_contra ended
    have stuck : Stuck c.shared := by
      intro e
      by_contra some
      obtain ⟨⟨s,prog⟩,accepted⟩ := Option.ne_none_iff_exists'.mp some
      exact ended ⟨_,.call trivial trivial ((mem_next_call _).mpr ⟨s,prog,all_idle reads _,accepted,rfl⟩)⟩
    have running := stuck_upstream within reads stuck open_
    have completed := stuck_zip within reads stuck running
    have permitted : c.shared.permitsFork .upstreamValue = true := by
      obtain ⟨d,member⟩ := List.exists_mem_of_ne_nil _ completed
      exact List.any_eq_true.mpr ⟨d,member,by rw [(reads_ending reads).delivered d member]; rfl⟩
    have nothing := stuck.fork permitted
    simp [Fork.accept,Fork.completeUpstream,running] at nothing

end SendersIo.ReadBatchedProgress
