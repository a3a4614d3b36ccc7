import SendersIo.PoolWaiters
import SendersIo.Sequences

/-!
The discipline of the operations that wait, in runs that handle one event at a time:
nobody waits while a block is free, a block that is given back goes to whoever has
waited longest, and stopping keeps the order of the others.
-/
namespace SendersIo.PoolDiscipline
open SendersIo.Interleaving SendersIo.IntrusiveLists SendersIo.SizeClasses SendersIo.Sequences SendersIo.PoolWaiters

/-- What becomes of a block that is given back: the operation of its class that has waited
    longest gets it, or its free list if none waits. -/
structure Deallocated (s s' : Pool) (ptr : Nat) : Prop where
  served : ∀ op rest, s.waiting (s.headers (ptr - headerBytes)) = op :: rest →
    (s'.ops op).completions = [some ptr] ∧ (∀ x, x ≠ op → s'.ops x = s.ops x) ∧ s'.blockLists = s.blockLists ∧
    ∀ j, s'.waiting j = if j = s.headers (ptr - headerBytes) then rest else s.waiting j
  freed : s.waiting (s.headers (ptr - headerBytes)) = [] →
    s'.ops = s.ops ∧ s'.waiting = s.waiting ∧
    s'.blockLists = Function.update s.blockLists (s.headers (ptr - headerBytes))
      ((ptr - headerBytes) :: s.blockLists (s.headers (ptr - headerBytes)))

/-- What a stop request does: the operation is completed with stopped if it waits, and the
    others wait as before. -/
structure Stopped (s s' : Pool) (op : Nat) : Prop where
  order : ∀ i, s'.waiting i = (s.waiting i).erase op
  others : ∀ x, x ≠ op → s'.ops x = s.ops x
  blocks : s'.blockLists = s.blockLists
  erased : (s'.ops op).erased = ((s.ops op).erased || decide (op ∈ s.waiting (s.ops op).index))

/-- What a start does: the operation gets a block, or it waits behind the others of its
    class, which has no block then. -/
structure Started (s s' : Pool) (op : Nat) (i : Fin 32) : Prop where
  others : ∀ x, x ≠ op → s'.ops x = s.ops x
  kept : (s'.ops op).erased = false
  queue : (∃ ptr, (s'.ops op).completions = [some ptr]) ∧ s'.waiting = s.waiting ∧
      (∀ j, ∃ used, s.blockLists j = used ++ s'.blockLists j) ∨
    s.blockLists i = [] ∧ s'.blockLists = s.blockLists ∧ ∀ j, s'.waiting j = if j = i then s.waiting j ++ [op] else s.waiting j

variable {upstream : Nat → Option Nat} {s s' s₀ : Pool} {op k ptr : Nat} {i : Fin 32} {e : Event} {es : List Event}
  {c : Config Party Pool Instr}

/-! ### The invariant between the events -/

/-- Nothing is executing when nothing is left to do. -/
theorem quiet_of_idle (inv : Invariant (idle s)) (op : Nat) : (s.ops op).executing = false := by
  have stop := (inv.sound op).stop
  generalize threads : (idle s : Config Party Pool Instr).threads (.stopper op) = prog at stop
  cases stop with
  | quiet quiet => exact quiet
  | erasing => cases threads
  | resetting => cases threads
  | stopping => cases threads
  | returning => cases threads
  | stopped _ quiet => exact quiet

theorem untaken_of_registered (inv : Invariant (idle s)) (held : (s.ops op).registered = true) : (s.ops op).taker = none := by
  cases taken : (s.ops op).taker with
  | none => rfl
  | some k =>
    obtain ⟨_,_,_,_,served⟩ := (inv.sound op).taken k taken
    rcases served with ⟨_,unset⟩ | member
    · exact absurd (held.symm.trans unset) (by decide)
    · cases member

/-- A thread that gives back a block executes no callback. -/
theorem reclaimer_quiet {j : Instr} {rest new : List Instr} (inv : Invariant c)
    (left : c.threads (.reclaimer k) = j :: rest) (ran : (s,new) ∈ exec upstream (.reclaimer k) j c.shared)
    (quiet : ∀ op, (c.shared.ops op).executing = false) (op : Nat) : (s.ops op).executing = false := by
  have updated : ∀ (x : Nat) (o : AllocateOperation), o.executing = (c.shared.ops x).executing →
      (Function.update c.shared.ops x o op).executing = false := fun x o same => by
    by_cases this : op = x
    · subst this
      rw [Function.update_self,same,quiet]
    · rw [Function.update_of_ne this,quiet]
  have take := inv.take k
  rw [left] at take
  cases take with
  | reclaiming =>
    simp only [exec,reclaim] at ran
    split at ran
    · cases List.mem_singleton.mp ran
      exact quiet op
    · cases List.mem_singleton.mp ran
      exact updated _ _ rfl
  | resetting x =>
    simp only [exec] at ran
    split at ran
    · cases ran
    · cases List.mem_singleton.mp ran
      exact updated _ _ rfl
  | completing x =>
    simp only [exec] at ran
    split at ran
    · cases List.mem_singleton.mp ran
      exact updated _ _ rfl
    · cases List.mem_singleton.mp ran
      exact updated _ _ rfl

/-- Between the events handing over and stopping never overlap. -/
theorem invariant_handles (inv : Invariant (idle s)) (handles : Handles (machine upstream) s e s') : Invariant (idle s') := by
  obtain ⟨s₁,prog,accepted,completes⟩ := handles
  have quiet := quiet_of_idle inv
  have called : Invariant ((idle s).put ((machine upstream).party e) s₁ prog) := by
    refine call_keeps inv ?_ rfl accepted
    cases e with
    | requestStop op => exact untaken_of_registered inv
    | start => trivial
    | deallocate => trivial
  have still : ∀ k, (machine upstream).party e = .reclaimer k → ∀ op, (s₁.ops op).executing = false := by
    intro k same op
    cases e with
    | deallocate k ptr =>
      simp only [machine,accept] at accepted
      split at accepted
      · cases accepted
        exact quiet op
      · cases accepted
    | start => cases same
    | requestStop => cases same
  have done := completes.keeps
    (I := fun c => Invariant c ∧ ∀ k, (machine upstream).party e = .reclaimer k → ∀ op, (c.shared.ops op).executing = false)
    (c := (idle s).put ((machine upstream).party e) s₁ prog) ?_ (put_shared _ _ _ _) (put_threads_self _ _ _ _)
    ⟨called,still⟩
  · simpa using done.1
  · rintro c j rest s new ⟨inv,quiet⟩ left ran
    have separate : Separate c (.run ((machine upstream).party e)) := by
      intro ptr rest left
      cases party : (machine upstream).party e with
      | reclaimer k => exact quiet k party _
      | starter x =>
        have start := (inv.sound x).start
        rw [← party,left] at start
        cases start
      | stopper x =>
        have stop := (inv.sound x).stop
        rw [← party,left] at stop
        cases stop
    refine ⟨run_keeps inv separate left ran,fun k party op => ?_⟩
    rw [party] at left ran
    exact reclaimer_quiet inv left ran (quiet k party) op

/-! ### What the events do -/

/-- The operations that wait, after one of them has left, or some of what does not matter
    to them has changed. -/
theorem waiting_without (inv : Invariant (idle s)) (pushed : s'.pushed = s.pushed)
    (others : ∀ x, x ≠ op → s'.ops x = s.ops x) (gone : (s'.ops op).waits = false) (i : Fin 32) :
    s'.waiting i = (s.waiting i).erase op :=
  waiting_erase inv.once pushed (fun x _ other => by rw [others x other]; exact ⟨rfl,rfl⟩) gone i

theorem waiting_of_same (pushed : s'.pushed = s.pushed) (ops : s'.ops = s.ops) : s'.waiting = s.waiting :=
  funext fun i => waiting_congr pushed (fun x _ => by rw [ops]; exact ⟨rfl,rfl⟩) i

/-- Nobody waits where the list is empty, and otherwise its head has waited longest. -/
theorem pendingOf_head (inv : Invariant (idle s)) (ptr : Nat) :
    if (s.pendingOf ptr).head = 0 then s.waiting (s.headers (ptr - headerBytes)) = []
    else ∃ rest, s.waiting (s.headers (ptr - headerBytes)) = (s.pendingOf ptr).head :: rest := by
  have list : Represents s.links (s.pendingOf ptr) (s.waiting (s.headers (ptr - headerBytes))) := inv.lists _
  split
  · exact list.head_eq_zero.mp ‹_›
  · rename_i somebody
    cases queue : s.waiting (s.headers (ptr - headerBytes)) with
    | nil => exact absurd (list.head_eq_zero.mpr queue) somebody
    | cons op rest =>
      rw [queue] at list
      exact ⟨rest,by rw [(popFront_represents list).1]⟩

/-- The operation that was taken off its list is completed with the block. -/
theorem completes_taken {p : Party} {s₂ : Pool} (quiet : (s₂.ops op).executing = false) (real : (s₂.ops op).result ≠ 0)
    (completes : Completes (machine upstream) p s₂ [.resetCallback op,.complete op] s') :
    s'.pushed = s₂.pushed ∧ s'.blockLists = s₂.blockLists ∧ (∀ x, x ≠ op → s'.ops x = s₂.ops x) ∧
    (s'.ops op).taker = (s₂.ops op).taker ∧
    (s'.ops op).completions = (s₂.ops op).completions ++ [some (s₂.ops op).result] := by
  obtain ⟨⟨s₃,new⟩,ran,completes⟩ := completes_cons.mp completes
  change (s₃,new) ∈ exec upstream p (.resetCallback op) s₂ at ran
  simp only [exec,quiet] at ran
  rw [if_neg (by simp)] at ran
  cases List.mem_singleton.mp ran
  obtain ⟨⟨s₄,new⟩,ran,completes⟩ := completes_cons.mp completes
  change (s₄,new) ∈ exec upstream p (.complete op) _ at ran
  simp only [exec,Pool.modify,Function.update_self] at ran
  rw [if_neg real] at ran
  cases List.mem_singleton.mp ran
  obtain rfl := completes_nil.mp completes
  refine ⟨rfl,rfl,fun x other => ?_,?_,?_⟩
  · simp [Function.update_of_ne other]
  · simp
  · simp

/-- A block that is given back, step by step. -/
theorem completes_reclaim (inv : Invariant (idle s)) (real : ptr ≠ 0) {s₁ : Pool}
    (same : s₁ = { s with received := s.received.erase ptr })
    (completes : Completes (machine upstream) (.reclaimer k) s₁ [.reclaim ptr] s') : Deallocated s s' ptr := by
  have head := pendingOf_head inv ptr
  have quiet := quiet_of_idle inv (s.pendingOf ptr).head
  have list : s₁.pendingOf ptr = s.pendingOf ptr := by rw [same]; rfl
  have headers : s₁.headers = s.headers := by rw [same]
  have ops : s₁.ops = s.ops := by rw [same]
  have pushed : s₁.pushed = s.pushed := by rw [same]
  have blocks : s₁.blockLists = s.blockLists := by rw [same]
  obtain ⟨⟨s₂,new⟩,ran,completes⟩ := completes_cons.mp completes
  change (s₂,new) ∈ reclaim s₁ k ptr at ran
  simp only [reclaim] at ran
  rw [list,headers,ops,blocks] at ran
  split at ran
  · rename_i nobody
    rw [if_pos nobody] at head
    cases List.mem_singleton.mp ran
    obtain rfl := completes_nil.mp completes
    refine ⟨fun op rest queue => ?_,fun _ => ⟨rfl,?_,rfl⟩⟩
    · rw [head] at queue
      cases queue
    · exact waiting_of_same pushed rfl
  · rename_i somebody
    rw [if_neg somebody] at head
    obtain ⟨rest,queue⟩ := head
    cases List.mem_singleton.mp ran
    generalize (s.pendingOf ptr).head = op at queue quiet completes
    have member : op ∈ s.waiting (s.headers (ptr - headerBytes)) := by simp [queue]
    obtain ⟨known,_,untaken,kept,empty,held⟩ := inv.of_waiting member
    obtain ⟨pushed',blocks',others,taken,completions⟩ := completes_taken (by simpa using quiet) (by simpa using real) completes
    have left : ∀ x, x ≠ op → s'.ops x = s.ops x := fun x other => by simpa [Function.update_of_ne other] using others x other
    have gone : (s'.ops op).waits = false := by
      have : (s'.ops op).taker = some k := by simpa using taken
      simp [AllocateOperation.waits,this]
    refine ⟨fun op' rest' queue' => ?_,fun none => ?_⟩
    · obtain ⟨rfl,rfl⟩ := List.cons.inj (queue.symm.trans queue')
      refine ⟨?_,left,by simpa [blocks] using blocks',fun j => ?_⟩
      · rw [completions]
        simpa using empty
      · rw [waiting_without inv (by simpa [pushed] using pushed') left gone]
        split
        · rename_i here
          rw [here,queue,List.erase_cons_head]
        · rename_i other
          exact List.erase_of_not_mem fun inside => waiting_disjoint other inside (by simp [queue])
    · rw [queue] at none
      cases none

theorem deallocated (inv : Invariant (idle s)) (handles : Handles (machine upstream) s (.deallocate k ptr) s') :
    Deallocated s s' ptr := by
  obtain ⟨s₁,prog,accepted,completes⟩ := handles
  simp only [machine,accept] at accepted
  split at accepted
  · rename_i member
    cases accepted
    exact completes_reclaim inv (inv.received ptr member) rfl completes
  · cases accepted

/-- An operation waits, between the events, if its stop callback is registered. -/
theorem waiting_iff_registered (inv : Invariant (idle s)) (op : Nat) :
    op ∈ s.waiting (s.ops op).index ↔ (s.ops op).registered = true := by
  have sound := inv.sound op
  constructor
  · exact fun member => (inv.of_waiting member).2.2.2.2.2
  · intro held
    refine mem_waiting.mpr ⟨sound.registered held,rfl,waits_iff.mpr ⟨untaken_of_registered inv held,?_⟩⟩
    have stop := sound.stop
    generalize threads : (idle s : Config Party Pool Instr).threads (.stopper op) = prog at stop
    cases stop with
    | quiet _ kept => exact kept
    | erasing => cases threads
    | resetting => cases threads
    | stopping => cases threads
    | returning => cases threads
    | stopped unset => exact absurd (held.symm.trans unset) (by decide)

/-- The stop callback, step by step. -/
theorem completes_stop {p : Party} {s₁ : Pool} (completes : Completes (machine upstream) p s₁ (onReceiverStop op) s') :
    s'.pushed = s₁.pushed ∧ s'.blockLists = s₁.blockLists ∧ (∀ x, x ≠ op → s'.ops x = s₁.ops x) ∧
    (s'.ops op).erased = true := by
  obtain ⟨⟨s₂,new⟩,ran,completes⟩ := completes_cons.mp completes
  change (s₂,new) ∈ exec upstream p (.erase op) s₁ at ran
  simp only [exec] at ran
  cases List.mem_singleton.mp ran
  obtain ⟨⟨s₃,new⟩,ran,completes⟩ := completes_cons.mp completes
  change (s₃,new) ∈ exec upstream p (.resetOwnCallback op) _ at ran
  simp only [exec] at ran
  cases List.mem_singleton.mp ran
  obtain ⟨⟨s₄,new⟩,ran,completes⟩ := completes_cons.mp completes
  change (s₄,new) ∈ exec upstream p (.setStopped op) _ at ran
  simp only [exec] at ran
  cases List.mem_singleton.mp ran
  obtain ⟨⟨s₅,new⟩,ran,completes⟩ := completes_cons.mp completes
  change (s₅,new) ∈ exec upstream p (.returnFromCallback op) _ at ran
  simp only [exec] at ran
  cases List.mem_singleton.mp ran
  obtain rfl := completes_nil.mp completes
  refine ⟨rfl,rfl,fun x other => ?_,?_⟩
  · simp [Pool.modify,stopErase,Function.update_of_ne other]
  · simp [Pool.modify,stopErase]

theorem stopped (inv : Invariant (idle s)) (handles : Handles (machine upstream) s (.requestStop op) s') :
    Stopped s s' op := by
  obtain ⟨s₁,prog,accepted,completes⟩ := handles
  have waits := waiting_iff_registered inv op
  simp only [machine,accept] at accepted
  split at accepted
  · cases accepted
  · split at accepted
    · rename_i held
      cases accepted
      obtain ⟨pushed,blocks,others,gone⟩ := completes_stop completes
      have left : ∀ x, x ≠ op → s'.ops x = s.ops x := fun x other => by
        rw [others x other]
        simp [Pool.modify,Function.update_of_ne other]
      refine ⟨waiting_without inv pushed left (by simp [AllocateOperation.waits,gone]),left,blocks,?_⟩
      rw [gone,decide_eq_true (waits.mpr held),Bool.or_true]
    · rename_i unset
      cases accepted
      obtain rfl := completes_nil.mp completes
      have left : ∀ x, x ≠ op →
          (s.modify op { s.ops op with stopRequested := true }).ops x = s.ops x := fun x other => by
        simp [Pool.modify,Function.update_of_ne other]
      refine ⟨fun i => ?_,left,rfl,?_⟩
      · have absent : op ∉ s.waiting i := fun member => unset (inv.of_waiting member).2.2.2.2.2
        rw [List.erase_of_not_mem absent]
        have pushed : (s.modify op { s.ops op with stopRequested := true }).pushed = s.pushed := rfl
        refine waiting_congr pushed (fun x _ => ?_) i
        by_cases this : x = op
        · subst this
          simp [Pool.modify,AllocateOperation.waits]
        · rw [left x this]
          exact ⟨rfl,rfl⟩
      · rw [decide_eq_false (fun member => unset (waits.mp member)),Bool.or_false]
        simp [Pool.modify]

/-- An operation that has not waited does not matter to those that do. -/
theorem waiting_of_others (absent : op ∉ s.pushed) (pushed : s'.pushed = s.pushed)
    (others : ∀ x, x ≠ op → s'.ops x = s.ops x) : s'.waiting = s.waiting := by
  funext i
  refine waiting_congr pushed (fun x member => ?_) i
  rw [others x (by rintro rfl; exact absent member)]
  exact ⟨rfl,rfl⟩

/-- The operation gets a block, and nobody else notices. -/
theorem completes_setValue {p : Party} {s₁ s₂ : Pool} {base : Nat}
    (completes : Completes (machine upstream) p s₂ [.setValue op base] s') (fresh : op ∉ s₁.pushed)
    (empty : (s₁.ops op).completions = []) (kept : (s₁.ops op).erased = false) (ops : s₂.ops = s₁.ops)
    (pushed : s₂.pushed = s₁.pushed) (used : ∀ j, ∃ used, s₁.blockLists j = used ++ s₂.blockLists j) :
    Started s₁ s' op i := by
  obtain ⟨⟨s₃,new⟩,ran,completes⟩ := completes_cons.mp completes
  change (s₃,new) ∈ exec upstream p (.setValue op base) s₂ at ran
  simp only [exec] at ran
  cases List.mem_singleton.mp ran
  obtain rfl := completes_nil.mp completes
  have others : ∀ x, x ≠ op → (s₂.modify op { s₂.ops op with
      completions := (s₂.ops op).completions ++ [some (base + headerBytes)] }).ops x = s₁.ops x := fun x other => by
    simp [Pool.modify,Function.update_of_ne other,ops]
  exact ⟨others,by simpa [Pool.modify,ops] using kept,
    .inl ⟨⟨base + headerBytes,by simp [Pool.modify,ops,empty]⟩,waiting_of_others fresh pushed others,used⟩⟩

/-- The critical section of a start, step by step, and what follows it. -/
theorem completes_start {p : Party} {s₁ : Pool} (completes : Completes (machine upstream) p s₁ [.start op] s')
    (fresh : op ∉ s₁.pushed) (empty : (s₁.ops op).completions = []) (untaken : (s₁.ops op).taker = none)
    (kept : (s₁.ops op).erased = false) : Started s₁ s' op (s₁.ops op).index := by
  obtain ⟨⟨s₂,new⟩,ran,completes⟩ := completes_cons.mp completes
  change (s₂,new) ∈ start upstream s₁ op at ran
  simp only [start] at ran
  cases blocks : s₁.blockLists (s₁.ops op).index with
  | cons base free =>
    simp only [blocks] at ran
    cases List.mem_singleton.mp ran
    refine completes_setValue completes fresh empty kept rfl rfl fun j => ?_
    by_cases here : j = (s₁.ops op).index
    · subst here
      exact ⟨[base],by simp [blocks]⟩
    · exact ⟨[],by simp [Function.update_of_ne here]⟩
  | nil =>
    cases got : upstream op with
    | some base =>
      simp only [blocks,got] at ran
      cases List.mem_singleton.mp ran
      exact completes_setValue completes fresh empty kept rfl rfl fun j => ⟨[],rfl⟩
    | none =>
      simp only [blocks,got] at ran
      split at ran
      · cases ran
      · cases List.mem_singleton.mp ran
        obtain rfl := completes_nil.mp completes
        refine ⟨fun x other => by simp [Function.update_of_ne other],by simpa using kept,.inr ⟨blocks,rfl,fun j => ?_⟩⟩
        exact waiting_push (o := { s₁.ops op with registered := true }) fresh rfl rfl
          (waits_iff.mpr ⟨untaken,kept⟩) j

theorem started (inv : Invariant (idle s)) (handles : Handles (machine upstream) s (.start op i) s') :
    Started s s' op i := by
  obtain ⟨s₁,prog,accepted,completes⟩ := handles
  simp only [machine,accept] at accepted
  split at accepted
  · rename_i fresh
    cases accepted
    have absent : op ∉ s.pushed := fun known => by simpa [fresh.2] using ((inv.sound op).begun known).1
    obtain ⟨untaken,kept,_⟩ := inv.unknown absent
    have empty : (s.ops op).completions = [] := by
      have start := (inv.sound op).start
      cases start with
      | fresh _ _ empty => exact empty
      | served _ begun => simp [fresh.2] at begun
      | waited begun => simp [fresh.2] at begun
    have others : ∀ x, x ≠ op → (s.modify op { s.ops op with index := i, started := true }).ops x = s.ops x :=
      fun x other => by simp [Pool.modify,Function.update_of_ne other]
    have same : (s.modify op { s.ops op with index := i, started := true }).waiting = s.waiting := by
      have pushed : (s.modify op { s.ops op with index := i, started := true }).pushed = s.pushed := rfl
      exact waiting_of_others absent pushed others
    obtain ⟨other,gone,queue⟩ := completes_start completes absent (by simpa [Pool.modify] using empty)
      (by simpa [Pool.modify] using untaken) (by simpa [Pool.modify] using kept)
    rw [same] at queue
    have index : ((s.modify op { s.ops op with index := i, started := true }).ops op).index = i := by simp [Pool.modify]
    rw [index] at queue
    exact ⟨fun x differ => by rw [other x differ,others x differ],gone,queue⟩
  · cases accepted

/-! ### Which events are handled -/

/-- A start of a new operation that does not construct its callback, with the lock held, when
    its stop was requested; a block that somebody has; and a stop that was not requested. -/
def Handled (upstream : Nat → Option Nat) (s : Pool) : Event → Prop
  | .start op i => (op ≠ 0 ∧ (s.ops op).started = false) ∧
      ((s.ops op).stopRequested = true → s.blockLists i ≠ [] ∨ upstream op ≠ none)
  | .deallocate _ ptr => ptr ∈ s.received
  | .requestStop op => (s.ops op).stopRequested = false

theorem exists_start (free : (s.ops op).stopRequested = true → s.blockLists (s.ops op).index ≠ [] ∨ upstream op ≠ none) :
    ∃ s₁, (s₁,[]) ∈ start upstream s op ∨ ∃ base, (s₁,[.setValue op base]) ∈ start upstream s op := by
  simp only [start]
  cases blocks : s.blockLists (s.ops op).index with
  | cons base rest => exact ⟨_,.inr ⟨base,List.mem_singleton_self _⟩⟩
  | nil =>
    cases got : upstream op with
    | some base => exact ⟨_,.inr ⟨base,List.mem_singleton_self _⟩⟩
    | none =>
      have calm : (s.ops op).stopRequested ≠ true := fun stop => by simpa [blocks,got] using free stop
      rw [if_neg calm]
      exact ⟨_,.inl (List.mem_singleton_self _)⟩

theorem start_handles (i : Fin 32) : (∃ s', Handles (machine upstream) s (.start op i) s') ↔
    Handled upstream s (.start op i) := by
  constructor
  · rintro ⟨s',s₁,prog,accepted,completes⟩
    simp only [machine,accept] at accepted
    split at accepted
    · rename_i fresh
      cases accepted
      refine ⟨fresh,fun stop => not_and_or.mp ?_⟩
      rintro ⟨empty,none⟩
      -- the callback of the operation waits for the lock that its start holds
      obtain ⟨out,ran,_⟩ := completes_cons.mp completes
      change out ∈ start upstream _ op at ran
      simp [start,Pool.modify,empty,none,stop] at ran
    · cases accepted
  · rintro ⟨fresh,stop⟩
    have accepted : (machine upstream).accept (.start op i) s =
        some (s.modify op { s.ops op with index := i, started := true },[.start op]) := if_pos fresh
    suffices later : ∃ s', Completes (machine upstream) (.starter op)
        (s.modify op { s.ops op with index := i, started := true }) [.start op] s' from
      later.imp fun _ completes => ⟨_,_,accepted,completes⟩
    generalize placed : s.modify op { s.ops op with index := i, started := true } = s₀
    have free : (s₀.ops op).stopRequested = true → s₀.blockLists (s₀.ops op).index ≠ [] ∨ upstream op ≠ none := by
      rw [← placed]
      simpa [Pool.modify] using stop
    obtain ⟨s₁,ran | ⟨base,ran⟩⟩ := exists_start free
    · exact exists_completes_cons ran exists_completes_nil
    · refine exists_completes_cons ran ?_
      exact exists_completes_cons (List.mem_singleton_self _) exists_completes_nil

/-- Whoever gives back a block does not wait for a callback. -/
theorem exists_completes_reclaim (quiet : (s.ops (s.pendingOf ptr).head).executing = false) :
    ∃ s', Completes (machine upstream) (.reclaimer k) s [.reclaim ptr] s' := by
  by_cases nobody : (s.pendingOf ptr).head = 0
  · have ran : ∃ s₁, (s₁,[]) ∈ reclaim s k ptr := by
      simp only [reclaim]
      rw [if_pos nobody]
      exact ⟨_,List.mem_singleton_self _⟩
    exact ran.elim fun _ ran => exists_completes_cons ran exists_completes_nil
  · generalize head : (s.pendingOf ptr).head = op at quiet nobody
    have ran : ∃ s₁, (s₁,[.resetCallback op,.complete op]) ∈ reclaim s k ptr ∧ (s₁.ops op).executing = false := by
      simp only [reclaim,head]
      rw [if_neg nobody]
      exact ⟨_,List.mem_singleton_self _,by simpa using quiet⟩
    obtain ⟨s₁,ran,quiet⟩ := ran
    refine exists_completes_cons ran ?_
    have reset : (s₁.modify op { s₁.ops op with registered := false },[]) ∈
        (machine upstream).exec (.reclaimer k) (.resetCallback op) s₁ := by simp [machine,exec,quiet]
    refine exists_completes_cons reset ?_
    generalize s₁.modify op { s₁.ops op with registered := false } = s₂
    have completed : ∃ s₃, (s₃,[]) ∈ (machine upstream).exec (.reclaimer k) (.complete op) s₂ := by
      simp only [machine,exec]
      split
      · exact ⟨_,List.mem_singleton_self _⟩
      · exact ⟨_,List.mem_singleton_self _⟩
    exact completed.elim fun _ ran => exists_completes_cons ran exists_completes_nil

theorem deallocate_handles (inv : Invariant (idle s)) : (∃ s', Handles (machine upstream) s (.deallocate k ptr) s') ↔
    Handled upstream s (.deallocate k ptr) := by
  constructor
  · rintro ⟨s',s₁,prog,accepted,_⟩
    simp only [machine,accept] at accepted
    split at accepted
    · rename_i member
      exact member
    · cases accepted
  · intro member
    have accepted : (machine upstream).accept (.deallocate k ptr) s =
        some ({ s with received := s.received.erase ptr },[.reclaim ptr]) := if_pos member
    have quiet := quiet_of_idle inv (s.pendingOf ptr).head
    have later : ∃ s', Completes (machine upstream) (.reclaimer k) { s with received := s.received.erase ptr }
        [.reclaim ptr] s' := exists_completes_reclaim quiet
    exact later.imp fun _ completes => ⟨_,_,accepted,completes⟩

theorem stop_handles : (∃ s', Handles (machine upstream) s (.requestStop op) s') ↔
    Handled upstream s (.requestStop op) := by
  constructor
  · rintro ⟨s',s₁,prog,accepted,_⟩
    simp only [machine,accept] at accepted
    split at accepted
    · cases accepted
    · rename_i fresh
      exact Bool.eq_false_iff.mpr fresh
  · intro fresh
    have fresh : (s.ops op).stopRequested = false := fresh
    cases held : (s.ops op).registered with
    | true =>
      have accepted : (machine upstream).accept (.requestStop op) s =
          some (s.modify op { s.ops op with stopRequested := true, executing := true },onReceiverStop op) := by
        simp [machine,accept,fresh,held]
      have later : ∃ s', Completes (machine upstream) (.stopper op)
          (s.modify op { s.ops op with stopRequested := true, executing := true }) (onReceiverStop op) s' := by
        refine exists_completes_cons (List.mem_singleton_self _) ?_
        refine exists_completes_cons (List.mem_singleton_self _) ?_
        refine exists_completes_cons (List.mem_singleton_self _) ?_
        exact exists_completes_cons (List.mem_singleton_self _) exists_completes_nil
      exact later.imp fun _ completes => ⟨_,_,accepted,completes⟩
    | false =>
      have accepted : (machine upstream).accept (.requestStop op) s =
          some (s.modify op { s.ops op with stopRequested := true },[]) := by
        simp [machine,accept,fresh,held]
      exact ⟨_,_,_,accepted,.done⟩

/-- The events that callers may raise are handled, but for a start that waits for its own lock. -/
theorem handles_iff (inv : Invariant (idle s)) : (∃ s', Handles (machine upstream) s e s') ↔ Handled upstream s e := by
  cases e with
  | start op i => exact start_handles i
  | deallocate k ptr => exact deallocate_handles inv
  | requestStop op => exact stop_handles

/-! ### The discipline -/

/-- Nobody waits for a block of a class that has a free one. -/
def Exclusive (s : Pool) : Prop := ∀ i, s.blockLists i = [] ∨ s.waiting i = []

theorem exclusive_handles (inv : Invariant (idle s)) (exclusive : Exclusive s)
    (handles : Handles (machine upstream) s e s') : Exclusive s' := by
  intro j
  cases e with
  | start op i =>
    rcases (started inv handles).queue with ⟨_,same,used⟩ | ⟨none,blocks,queue⟩
    · obtain ⟨used,split⟩ := used j
      rw [same]
      exact (exclusive j).imp_left fun empty => (List.append_eq_nil_iff.mp (split ▸ empty)).2
    · rw [blocks,queue]
      split
      · rename_i here
        rw [here]
        exact .inl none
      · exact exclusive j
  | deallocate k ptr =>
    have gave := deallocated inv handles
    cases queue : s.waiting (s.headers (ptr - headerBytes)) with
    | cons op rest =>
      obtain ⟨_,_,blocks,left⟩ := gave.served op rest queue
      rw [blocks,left]
      split
      · rename_i here
        rw [here]
        exact .inl ((exclusive _).resolve_right (by simp [queue]))
      · exact exclusive j
    | nil =>
      obtain ⟨_,same,blocks⟩ := gave.freed queue
      rw [same,blocks]
      by_cases here : j = s.headers (ptr - headerBytes)
      · rw [here]
        exact .inr queue
      · rw [Function.update_of_ne here]
        exact exclusive j
  | requestStop op =>
    have stop := stopped inv handles
    rw [stop.blocks,stop.order]
    exact (exclusive j).imp_right fun none => by simp [none]

theorem sequence_invariant (sequence : Sequence (machine upstream) initial.shared es s) :
    Invariant (idle s) ∧ Exclusive s :=
  sequence.invariant (J := fun s => Invariant (idle s) ∧ Exclusive s)
    ⟨invariant_initial,fun _ => .inl rfl⟩
    fun _ _ _ before handles => ⟨invariant_handles before.1 handles,exclusive_handles before.1 before.2 handles⟩

/-- An operation that its stop callback took out stays out. -/
theorem erased_handles (inv : Invariant (idle s)) (handles : Handles (machine upstream) s e s') (op : Nat)
    (gone : (s.ops op).erased = true) : (s'.ops op).erased = true := by
  have known := ((inv.sound op).erased gone).1
  cases e with
  | start x i =>
    by_cases this : op = x
    · subst this
      obtain ⟨s₁,prog,accepted,_⟩ := handles
      simp only [machine,accept] at accepted
      split at accepted
      · rename_i fresh
        exact absurd ((inv.sound op).begun known).1 (by simp [fresh.2])
      · cases accepted
    · rwa [(started inv handles).others op this]
  | deallocate k ptr =>
    have gave := deallocated inv handles
    cases queue : s.waiting (s.headers (ptr - headerBytes)) with
    | cons x rest =>
      have differ : op ≠ x := by
        rintro rfl
        have member : op ∈ s.waiting (s.headers (ptr - headerBytes)) := by simp [queue]
        have kept := (inv.of_waiting member).2.2.2.1
        exact absurd (gone.symm.trans kept) (by decide)
      rwa [(gave.served x rest queue).2.1 op differ]
    | nil => rwa [(gave.freed queue).1]
  | requestStop x =>
    have stop := stopped inv handles
    by_cases this : op = x
    · subst this
      rw [stop.erased,gone,Bool.true_or]
    · rwa [stop.others op this]

/-- After any number of starts, deallocations and stop requests, each handled to completion
    before the next: the pending lists hold the operations that wait, in the order in
    which they began to; no class has both a free block and a pending operation; a block
    that is given back goes to the operation that has waited longest, or onto the free
    list; a stop request takes out its operation and keeps the order of the others; an
    operation that was taken out so stays completed with stopped, without a block; and
    each of these events is handled, unless an operation whose stop was requested starts
    where it would have to wait. -/
theorem waiting_discipline (sequence : Sequence (machine upstream) initial.shared es s) :
    (∀ i, Represents s.links (s.pending i) (s.waiting i)) ∧
    (∀ i, s.blockLists i = [] ∨ (s.pending i).head = 0) ∧
    (∀ k ptr s', Handles (machine upstream) s (.deallocate k ptr) s' → Deallocated s s' ptr) ∧
    (∀ op s', Handles (machine upstream) s (.requestStop op) s' → Stopped s s' op) ∧
    (∀ op, (s.ops op).erased = true → (s.ops op).completions = [none] ∧
      ∀ e s', Handles (machine upstream) s e s' → (s'.ops op).erased = true) ∧
    ∀ e, (∃ s', Handles (machine upstream) s e s') ↔ Handled upstream s e := by
  obtain ⟨inv,exclusive⟩ := sequence_invariant sequence
  refine ⟨inv.lists,fun i => (exclusive i).imp_right (inv.lists i).head_eq_zero.mpr,fun _ _ _ => deallocated inv,
    fun _ _ => stopped inv,fun op gone => ⟨?_,fun _ _ handles => erased_handles inv handles op gone⟩,
    fun _ => handles_iff inv⟩
  exact (inv.of_erased gone).resolve_right fun left => left.2 rfl

/-- Upstream has one block. -/
def oneBlock (op : Nat) : Option Nat := if op = 2 then some 100 else none

/-- Operation 2 gets the only block; operations 1, 3 and 4 wait; operation 3 is stopped,
    and the block goes to operation 1 when it is given back, and then to operation 4. -/
theorem waiting_discipline_four : ∃ s : Pool, Sequence (machine oneBlock) initial.shared
      [.start 2 0,.start 1 0,.start 3 0,.start 4 0,.requestStop 3,.deallocate 0 116] s ∧
    ((s.ops 1).completions = [some 116] ∧ (s.ops 3).completions = [none] ∧ s.waiting 0 = [4]) ∧
    Represents s.links (s.pending 0) (s.waiting 0) ∧
    ∃ s', Handles (machine oneBlock) s (.deallocate 1 116) s' ∧ (s'.ops 4).completions = [some 116] := by
  obtain ⟨s,sequence,computed⟩ := exists_of_handle (machine oneBlock) 4 initial.shared
    [.start 2 0,.start 1 0,.start 3 0,.start 4 0,.requestStop 3,.deallocate 0 116]
    (fun s => (s.ops 1).completions = [some 116] ∧ (s.ops 3).completions = [none] ∧ s.waiting 0 = [4] ∧
      s.received = [116] ∧ s.headers 100 = 0) (by decide)
  obtain ⟨first,third,queue,member,header⟩ := of_decide_eq_true computed
  obtain ⟨lists,_,gives,_,_,handled⟩ := waiting_discipline sequence
  have received : Handled oneBlock s (.deallocate 1 116) := by simp [Handled,member]
  obtain ⟨s',handles⟩ := (handled (.deallocate 1 116)).mpr received
  have next : s.waiting (s.headers (116 - headerBytes)) = [4] := header.symm ▸ queue
  exact ⟨s,sequence,⟨first,third,queue⟩,lists 0,s',handles,((gives 1 116 s' handles).served 4 [] next).1⟩

end SendersIo.PoolDiscipline
