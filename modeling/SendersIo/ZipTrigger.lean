import SendersIo.Zip

/-!
Who may collect the results. An item is pushed and announced in two critical
sections, so the counter does not count the queues that hold an item, but the
queues whose front item has been announced. The invariant keeps the set of these
queues, and that the counter is its size, or one less while a thread that has
popped the front items has not yet counted them anew.
-/
namespace SendersIo.Zip
variable {n : Nat} {Value Error : Type}

/-! ### Where a party is in the handler of a value -/

/-- The item that a party has not pushed yet. -/
def Instr.unpushed : Instr n Value Error → Option (Item n)
  | .emplaceResult x _ | .testStop x | .pushBack x => some x
  | _ => none

/-- How the counter relates to the queues: open to announcements; collecting,
    before the front items are popped; popped and not counted anew; chained, when
    the next tuple is ready and will be started by the same thread. -/
inductive Phase where
  | opened
  | collecting
  | popped
  | chained

/-- By how much the counter is below the number of queues that count. -/
def Phase.offset : Phase → Int
  | .opened | .collecting => 0
  | .popped | .chained => 1

/-- Every queue counts. -/
def Phase.full : Phase → Prop
  | .opened | .popped => False
  | .collecting | .chained => True

/-- The phase that a party enforces at an instruction, from the observation of
    `n - 1` to step 6. -/
def Instr.phase : Instr n Value Error → Option Phase
  | .collectResults _ | .popFronts _ _ => some .collecting
  | .checkStop _ _ | .recount _ _ => some .popped
  | .startZipped _ _ true | .startNext _ => some .chained
  | _ => none

/-- Between the observation of `n - 1` and the end of step 4. -/
def Instr.collects : Instr n Value Error → Prop
  | .collectResults _ | .popFronts _ _ | .checkStop _ _ | .recount _ _ => True
  | _ => False

end SendersIo.Zip

namespace SendersIo.ZipTrigger
open SendersIo.Interleaving SendersIo.Zip
set_option linter.unusedSimpArgs false

variable {n : Nat} {Value Error : Type}

/-- The steps of `item_receiver::set_value` that a party has left. -/
def stage (c : Config (Party n) (OperationBase n Value Error) (Instr n Value Error)) (p : Party n) :
    List (Instr n Value Error) :=
  (c.threads p).filter Instr.ofItem

/-- What the handlers of the items rely on: `notify_stop` clears the queues only
    while nobody is between the observation of `n - 1` and step 6, and the queues
    are counted anew only while the front items that are there have been announced. -/
def Guarded (c : Config (Party n) (OperationBase n Value Error) (Instr n Value Error)) :
    Label (Party n) (Event n Value Error) → Prop
  | .run p =>
    match c.threads p with
    | .clearQueues :: _ => ∀ q, ∀ i ∈ c.threads q, i.phase = none
    | .recount _ _ :: _ => ∀ i x, (c.shared.queues i).head? = some x → ∀ q, .notifyResultCompletion x ∉ c.threads q
    | _ => True
  | .call _ => True

/-! ### The invariant -/

section
variable (s : OperationBase n Value Error) (stages : Party n → List (Instr n Value Error))

/-- Every item is pushed and announced once. -/
structure Queued : Prop where
  single : ∀ p, (stages p).length ≤ 1
  unpushed : ∀ p, ∀ i ∈ stages p, ∀ x, i.unpushed = some x → p = .item x ∧ x ∈ s.completedItems ∧ x ∉ s.pushed
  completed : ∀ x ∈ s.pushed, x ∈ s.completedItems
  queued : ∀ i, ∀ x ∈ s.queues i, x.index = i ∧ x ∈ s.pushed
  notifying : ∀ p x, .notifyResultCompletion x ∈ stages p → x ∈ s.pushed
  once : ∀ p q x, .notifyResultCompletion x ∈ stages p → .notifyResultCompletion x ∈ stages q → p = q

/-- The counter counts the queues whose front item has been announced, and only
    the owner of the phase is at an instruction that enforces one. -/
structure Ready (counted : Finset (Fin n)) (phase : Phase) (owner : Option (Party n)) : Prop where
  counter : s.nReadyNextItems = counted.card - phase.offset
  full : phase.full → counted = Finset.univ
  front : ∀ i ∈ counted, s.queues i ≠ []
  announced : ∀ i ∈ counted, ∀ x, (s.queues i).head? = some x → ∀ p, .notifyResultCompletion x ∉ stages p
  busy : ∀ p, ∀ i ∈ stages p, ∀ other, i.phase = some other → other = phase ∧ owner = some p

end

structure Invariant (c : Config (Party n) (OperationBase n Value Error) (Instr n Value Error)) : Prop where
  queued : Queued c.shared (stage c)
  ready : ∃ counted phase owner, Ready c.shared (stage c) counted phase owner

theorem stage_put (c : Config (Party n) (OperationBase n Value Error) (Instr n Value Error)) (p : Party n)
    (s : OperationBase n Value Error) (prog : List (Instr n Value Error)) :
    stage (c.put p s prog) = Function.update (stage c) p (prog.filter Instr.ofItem) := by
  funext q
  by_cases same : q = p
  · subst same; simp [stage]
  · simp [stage,put_threads_ne c same,same]

theorem mem_stage {c : Config (Party n) (OperationBase n Value Error) (Instr n Value Error)} {p : Party n}
    {i : Instr n Value Error} (steps : i.ofItem = true) : i ∈ stage c p ↔ i ∈ c.threads p := by
  simp [stage,steps]

theorem ofItem_of_phase {i : Instr n Value Error} (phase : i.phase ≠ none) : i.ofItem = true := by
  cases i <;> first | rfl | simp [Instr.phase] at phase

/-! ### What a step keeps -/

variable {s s' : OperationBase n Value Error} {stages : Party n → List (Instr n Value Error)}
  {counted : Finset (Fin n)} {phase : Phase} {owner : Option (Party n)} {p : Party n} {new : List (Instr n Value Error)}

/-- A party goes on to `new` without pushing. -/
theorem Queued.move (queued : Queued s stages) (pushed : s'.pushed = s.pushed)
    (completed : ∀ x ∈ s.completedItems, x ∈ s'.completedItems) (queues : ∀ i, ∀ x ∈ s'.queues i, x ∈ s.queues i)
    (single : new.length ≤ 1)
    (unpushed : ∀ i ∈ new, ∀ x, i.unpushed = some x → p = .item x ∧ x ∈ s'.completedItems ∧ x ∉ s.pushed)
    (notifying : ∀ x, .notifyResultCompletion x ∈ new →
      x ∈ s.pushed ∧ ∀ q, q ≠ p → .notifyResultCompletion x ∉ stages q) :
    Queued s' (Function.update stages p new) where
  single q := by
    by_cases same : q = p
    · simpa [same] using single
    · simpa [same] using queued.single q
  unpushed q i member x fresh := by
    by_cases same : q = p
    · subst same
      simpa [pushed] using unpushed i (by simpa using member) x fresh
    · obtain ⟨party,done,out⟩ := queued.unpushed q i (by simpa [same] using member) x fresh
      exact ⟨party,completed x done,pushed ▸ out⟩
  completed x member := completed x (queued.completed x (pushed ▸ member))
  queued i x member := pushed ▸ queued.queued i x (queues i x member)
  notifying q x member := by
    rw [pushed]
    by_cases same : q = p
    · subst same; exact (notifying x (by simpa using member)).1
    · exact queued.notifying q x (by simpa [same] using member)
  once q r x first second := by
    by_cases here : q = p <;> by_cases there : r = p
    · rw [here,there]
    · subst here
      exact absurd (by simpa [there] using second) ((notifying x (by simpa using first)).2 r there)
    · subst there
      exact absurd (by simpa [here] using first) ((notifying x (by simpa using second)).2 q here)
    · exact queued.once q r x (by simpa [here] using first) (by simpa [there] using second)

/-- A party goes on to `new` while the queues and the counter stay as they are. -/
theorem Ready.move (ready : Ready s stages counted phase owner) (queues : s'.queues = s.queues)
    (counter : s'.nReadyNextItems = s.nReadyNextItems)
    (announced : ∀ i ∈ counted, ∀ x, (s.queues i).head? = some x → .notifyResultCompletion x ∉ new)
    (busy : ∀ i ∈ new, ∀ other, i.phase = some other → other = phase ∧ owner = some p) :
    Ready s' (Function.update stages p new) counted phase owner where
  counter := counter ▸ ready.counter
  full := ready.full
  front := queues ▸ ready.front
  announced i member x head q := by
    rw [queues] at head
    by_cases same : q = p
    · subst same; simpa using announced i member x head
    · simpa [same] using ready.announced i member x head q
  busy q i member other is := by
    by_cases same : q = p
    · subst same; exact busy i (by simpa using member) other is
    · exact ready.busy q i (by simpa [same] using member) other is

variable {c : Config (Party n) (OperationBase n Value Error) (Instr n Value Error)} {i : Instr n Value Error}
  {rest : List (Instr n Value Error)} {x : Item n} {exception : Option Error}

/-- A party has nothing else to do for its item. -/
theorem Invariant.only (inv : Invariant c) (left : c.threads p = i :: rest) (steps : i.ofItem = true) :
    stage c p = [i] ∧ rest.filter Instr.ofItem = [] := by
  have single := inv.queued.single p
  have here : stage c p = i :: rest.filter Instr.ofItem := by simp [stage,left,steps]
  rw [here] at single
  have none_left : rest.filter Instr.ofItem = [] := List.length_eq_zero_iff.mp (by simpa using single)
  exact ⟨by rw [here,none_left],none_left⟩

theorem Invariant.put (none_left : rest.filter Instr.ofItem = [])
    (queued : Queued s (Function.update (stage c) p (new.filter Instr.ofItem)))
    (ready : ∃ counted phase owner, Ready s (Function.update (stage c) p (new.filter Instr.ofItem)) counted phase owner) :
    Invariant (c.put p s (new ++ rest)) := by
  have same : stage (c.put p s (new ++ rest)) = Function.update (stage c) p (new.filter Instr.ofItem) := by
    rw [stage_put,List.filter_append,none_left,List.append_nil]
  constructor
  · rw [same]; exact queued
  · rw [same]; exact ready

/-- A party that has not pushed its item yet. -/
theorem unpushed_keeps (inv : Invariant c) (left : c.threads p = i :: rest) (fresh : i.unpushed = some x)
    (queues : s.queues = c.shared.queues) (counter : s.nReadyNextItems = c.shared.nReadyNextItems)
    (pushed : s.pushed = c.shared.pushed) (completed : s.completedItems = c.shared.completedItems)
    (next : new.filter Instr.ofItem = [] ∨ ∃ j, new.filter Instr.ofItem = [j] ∧ j.unpushed = some x) :
    Invariant (c.put p s (new ++ rest)) := by
  have steps : i.ofItem = true := by
    cases i <;> first | rfl | simp [Instr.unpushed] at fresh
  obtain ⟨here,none_left⟩ := inv.only left steps
  obtain ⟨counted,phase,owner,ready⟩ := inv.ready
  obtain ⟨party,done,out⟩ := inv.queued.unpushed p i (by simp [here]) x fresh
  rcases next with none | ⟨j,one,still⟩
  · refine .put none_left ?_ ⟨counted,phase,owner,?_⟩
    · rw [none]
      exact inv.queued.move pushed (by simp [completed]) (by simp [queues]) (by simp) (by simp) (by simp)
    · rw [none]; exact ready.move queues counter (by simp) (by simp)
  · have no_phase : j.phase = none ∧ ∀ y, .notifyResultCompletion y ≠ j := by
      cases j <;> simp [Instr.unpushed,Instr.phase] at still ⊢
    refine .put none_left ?_ ⟨counted,phase,owner,?_⟩
    · rw [one]
      refine inv.queued.move pushed (by simp [completed]) (by simp [queues]) (by simp) ?_ (by simp [no_phase.2])
      intro k member y is
      obtain rfl : k = j := by simpa using member
      obtain rfl : x = y := Option.some.inj (still.symm.trans is)
      exact ⟨party,completed ▸ done,out⟩
    · rw [one]
      exact ready.move queues counter (by simp [no_phase.2]) (by simp [no_phase.1])

theorem Queued.push (queued : Queued s stages) (out : x ∉ s.pushed) (party : p = .item x) (done : x ∈ s.completedItems)
    (queues : s'.queues = Function.update s.queues x.index (s.queues x.index ++ [x]))
    (pushed : s'.pushed = s.pushed ++ [x]) (completed : s'.completedItems = s.completedItems) :
    Queued s' (Function.update stages p [.notifyResultCompletion x]) where
  single q := by
    by_cases same : q = p
    · simp [same]
    · simpa [same] using queued.single q
  unpushed q j member y fresh := by
    by_cases same : q = p
    · simp [same] at member; subst member; simp [Instr.unpushed] at fresh
    · obtain ⟨party',done',out'⟩ := queued.unpushed q j (by simpa [same] using member) y fresh
      refine ⟨party',completed ▸ done',?_⟩
      rw [pushed,List.mem_append,List.mem_singleton]
      rintro (before | rfl)
      · exact out' before
      · exact same (party'.trans party.symm)
  completed y member := by
    rw [pushed,List.mem_append,List.mem_singleton] at member
    rw [completed]
    rcases member with before | rfl
    · exact queued.completed y before
    · exact done
  queued i y member := by
    rw [pushed]
    rw [queues] at member
    by_cases same : i = x.index
    · subst same
      rw [Function.update_self,List.mem_append,List.mem_singleton] at member
      rcases member with before | rfl
      · exact ⟨(queued.queued _ y before).1,List.mem_append_left _ (queued.queued _ y before).2⟩
      · exact ⟨rfl,by simp⟩
    · rw [Function.update_of_ne same] at member
      exact ⟨(queued.queued i y member).1,List.mem_append_left _ (queued.queued i y member).2⟩
  notifying q y member := by
    rw [pushed]
    by_cases same : q = p
    · simp [same] at member; subst member; simp
    · exact List.mem_append_left _ (queued.notifying q y (by simpa [same] using member))
  once q r y first second := by
    by_cases same : q = p <;> by_cases other : r = p
    · rw [same,other]
    · simp [same] at first; subst first; simp [other] at second; exact absurd (queued.notifying r _ second) out
    · simp [other] at second; subst second; simp [same] at first; exact absurd (queued.notifying q _ first) out
    · simp [same] at first; simp [other] at second; exact queued.once q r y first second

/-- The front item of a queue that counts stays the front item. -/
theorem Ready.push (ready : Ready s stages counted phase owner) (queued : Queued s stages) (out : x ∉ s.pushed)
    (queues : s'.queues = Function.update s.queues x.index (s.queues x.index ++ [x]))
    (counter : s'.nReadyNextItems = s.nReadyNextItems) :
    Ready s' (Function.update stages p [.notifyResultCompletion x]) counted phase owner := by
  have moved : Ready s (Function.update stages p [.notifyResultCompletion x]) counted phase owner := by
    refine ready.move rfl rfl ?_ (by simp [Instr.phase])
    intro i member y first same
    simp at same
    subst same
    exact out (queued.queued i y (List.mem_of_mem_head? first)).2
  have front : ∀ i ∈ counted, s'.queues i ≠ [] ∧ (s'.queues i).head? = (s.queues i).head? := by
    intro i member
    rw [queues]
    by_cases same : i = x.index
    · subst same
      obtain ⟨z,others,nonempty⟩ := List.exists_cons_of_ne_nil (ready.front _ member)
      simp [nonempty]
    · simpa [same] using ready.front i member
  exact {
    counter := counter ▸ moved.counter
    full := moved.full
    front := fun i member => (front i member).1
    announced := fun i member y first => moved.announced i member y ((front i member).2 ▸ first)
    busy := moved.busy }

theorem pushBack_keeps (inv : Invariant c) (left : c.threads p = .pushBack x :: rest)
    (ran : Ran exception c.shared (.pushBack x) s new) : Invariant (c.put p s (new ++ rest)) := by
  cases ran
  obtain ⟨here,none_left⟩ := inv.only left rfl
  obtain ⟨counted,phase,owner,ready⟩ := inv.ready
  obtain ⟨party,done,out⟩ := inv.queued.unpushed p (.pushBack x) (by simp [here]) x rfl
  exact .put none_left (inv.queued.push out party done rfl rfl rfl) ⟨counted,phase,owner,ready.push inv.queued out rfl rfl⟩

/-- A queue that counts has had its front item announced. -/
theorem Ready.uncounted (ready : Ready s stages counted phase owner) (here : .notifyResultCompletion x ∈ stages p)
    (first : (s.queues x.index).head? = some x) : x.index ∉ counted :=
  fun member => ready.announced _ member x first p here

/-- An announcement counts the queue. -/
theorem Ready.announce (ready : Ready s stages counted phase owner) (queued : Queued s stages)
    (here : .notifyResultCompletion x ∈ stages p) (first : (s.queues x.index).head? = some x)
    (queues : s'.queues = s.queues) (counter : s'.nReadyNextItems = s.nReadyNextItems + 1) :
    Ready s' (Function.update stages p []) (insert x.index counted) phase owner where
  counter := by
    rw [counter,ready.counter,Finset.card_insert_of_notMem (ready.uncounted here first)]
    push_cast
    omega
  full full := by rw [ready.full full]; simp
  front i member := by
    rw [queues]
    rcases Finset.mem_insert.mp member with rfl | before
    · intro empty; simp [empty] at first
    · exact ready.front i before
  announced i member y head q := by
    rw [queues] at head
    by_cases same : q = p
    · simp [same]
    rw [Function.update_of_ne same]
    rcases Finset.mem_insert.mp member with rfl | before
    · obtain rfl : x = y := Option.some.inj (first.symm.trans head)
      exact fun pending => same (queued.once q p x pending here)
    · exact ready.announced i before y head q
  busy q i member other is := by
    by_cases same : q = p
    · simp [same] at member
    · exact ready.busy q i (by simpa [same] using member) other is

/-- Whoever announces the last queue that did not count collects the results. -/
theorem Ready.collect (ready : Ready s stages counted phase owner) (missing : x.index ∉ counted)
    (last : s.nReadyNextItems = n - 1) (after : Ready s' (Function.update stages p []) (insert x.index counted) phase owner) :
    Ready s' (Function.update stages p [.collectResults x]) Finset.univ .collecting (some p) := by
  have card : (insert x.index counted).card = counted.card + 1 := Finset.card_insert_of_notMem missing
  have bound : (insert x.index counted).card ≤ n := by simpa using Finset.card_le_univ (insert x.index counted)
  have value := ready.counter
  -- in the other phases the counter is full already, or too low
  have opened : phase = .opened := by
    cases phase with
    | opened => rfl
    | collecting => exact absurd (by rw [ready.full trivial]; simp) missing
    | chained => exact absurd (by rw [ready.full trivial]; simp) missing
    | popped => simp [Phase.offset] at value; omega
  subst opened
  have all : insert x.index counted = Finset.univ := by
    apply Finset.eq_univ_of_card
    simp [Phase.offset] at value
    simp only [Fintype.card_fin]
    omega
  rw [all] at after
  exact {
    counter := by simpa [Phase.offset] using after.counter
    full := fun _ => rfl
    front := after.front
    announced := fun i member y head q => by
      have before := after.announced i member y head q
      by_cases same : q = p
      · simp [same]
      · simpa [same] using before
    busy := fun q i member other is => by
      by_cases same : q = p
      · simp [same] at member; subst member; simpa [Instr.phase,same,eq_comm] using is
      · obtain ⟨rfl,_⟩ := after.busy q i (by simpa [same] using member) other is
        cases i <;> simp [Instr.phase] at is
        rename_i next
        cases next <;> simp [Instr.phase] at is }

theorem notifyResultCompletion_keeps (inv : Invariant c) (left : c.threads p = .notifyResultCompletion x :: rest)
    (ran : Ran exception c.shared (.notifyResultCompletion x) s new) : Invariant (c.put p s (new ++ rest)) := by
  obtain ⟨here,none_left⟩ := inv.only left rfl
  obtain ⟨counted,phase,owner,ready⟩ := inv.ready
  have pending : .notifyResultCompletion x ∈ stage c p := by simp [here]
  cases ran with
  | announced _ first =>
    have after : Ready { c.shared with nReadyNextItems := c.shared.nReadyNextItems + 1 }
        (Function.update (stage c) p []) (insert x.index counted) phase owner :=
      ready.announce inv.queued pending first rfl rfl
    split
    next last =>
      refine .put none_left ?_ ⟨_,_,_,ready.collect (ready.uncounted pending first) last after⟩
      show Queued _ (Function.update (stage c) p [.collectResults x])
      exact inv.queued.move rfl (fun _ done => done) (fun _ _ member => member) (by simp)
        (by simp [Instr.unpushed]) (by simp)
    next =>
      refine .put none_left ?_ ⟨_,_,_,after⟩
      exact inv.queued.move rfl (fun _ done => done) (fun _ _ member => member) (by simp) (by simp) (by simp)
  | notFront =>
    exact .put none_left (inv.queued.move rfl (fun _ done => done) (fun _ _ member => member) (by simp) (by simp)
      (by simp)) ⟨_,_,_,ready.move rfl rfl (by simp) (by simp)⟩

/-- A party that goes on within a phase, or leaves it. -/
theorem phase_keeps {j : Instr n Value Error} {current : Phase} (inv : Invariant c) (left : c.threads p = j :: rest)
    (is : j.phase = some current) (next : new.filter Instr.ofItem = [] ∨
      ∃ k, new.filter Instr.ofItem = [k] ∧ k.phase = some current ∧ k.unpushed = none)
    (queues : s.queues = c.shared.queues) (counter : s.nReadyNextItems = c.shared.nReadyNextItems)
    (pushed : s.pushed = c.shared.pushed) (completed : s.completedItems = c.shared.completedItems) :
    Invariant (c.put p s (new ++ rest)) := by
  obtain ⟨here,none_left⟩ := inv.only left (ofItem_of_phase (by simp [is]))
  obtain ⟨counted,phase,owner,ready⟩ := inv.ready
  obtain ⟨rfl,owns⟩ := ready.busy p j (by simp [here]) current is
  refine .put none_left ?_ ⟨counted,current,owner,?_⟩
  · rcases next with none | ⟨k,one,working,old⟩
    · rw [none]
      exact inv.queued.move pushed (by simp [completed]) (by simp [queues]) (by simp) (by simp) (by simp)
    · rw [one]
      refine inv.queued.move pushed (by simp [completed]) (by simp [queues]) (by simp) (by simp [old]) ?_
      intro y member
      obtain rfl : .notifyResultCompletion y = k := by simpa using member
      cases working
  · rcases next with none | ⟨k,one,working,old⟩
    · rw [none]
      exact ready.move queues counter (by simp) (by simp)
    · rw [one]
      refine ready.move queues counter ?_ ?_
      · intro i _ y _ member
        obtain rfl : .notifyResultCompletion y = k := by simpa using member
        cases working
      · intro i member other is'
        obtain rfl : i = k := by simpa using member
        exact ⟨Option.some.inj (is'.symm.trans working),owns⟩

/-- Without a next tuple that is ready, no phase is left to enforce. -/
theorem startZipped_keeps {result : Fin n → Value} {next : Bool} (inv : Invariant c)
    (left : c.threads p = .startZipped x result next :: rest)
    (ran : Ran exception c.shared (.startZipped x result next) s new) : Invariant (c.put p s (new ++ rest)) := by
  cases next with
  | true =>
    cases ran with
    | startZipped => exact phase_keeps inv left rfl (.inr ⟨.startNext x,rfl,rfl,rfl⟩) rfl rfl rfl rfl
    | zippedThrows => exact phase_keeps inv left rfl (.inl rfl) rfl rfl rfl rfl
  | false =>
    obtain ⟨here,none_left⟩ := inv.only left rfl
    obtain ⟨counted,phase,owner,ready⟩ := inv.ready
    have done : ∀ s' : OperationBase n Value Error, s'.queues = c.shared.queues →
        s'.nReadyNextItems = c.shared.nReadyNextItems → s'.pushed = c.shared.pushed →
        s'.completedItems = c.shared.completedItems → new.filter Instr.ofItem = [] →
        Invariant (c.put p s' (new ++ rest)) := by
      intro s' queues counter pushed completed none_new
      refine .put none_left ?_ ⟨counted,phase,owner,?_⟩
      · rw [none_new]
        exact inv.queued.move pushed (by simp [completed]) (by simp [queues]) (by simp) (by simp) (by simp)
      · rw [none_new]; exact ready.move queues counter (by simp) (by simp)
    cases ran <;> exact done _ rfl rfl rfl rfl rfl

theorem popFronts_keeps {result : Fin n → Value} (inv : Invariant c) (left : c.threads p = .popFronts x result :: rest)
    (ran : Ran exception c.shared (.popFronts x result) s new) : Invariant (c.put p s (new ++ rest)) := by
  obtain ⟨here,none_left⟩ := inv.only left rfl
  obtain ⟨counted,phase,owner,ready⟩ := inv.ready
  obtain ⟨rfl,owns⟩ := ready.busy p (.popFronts x result) (by simp [here]) .collecting rfl
  cases ran
  refine .put none_left ?_ ⟨∅,.popped,some p,?_⟩
  · show Queued _ (Function.update (stage c) p [.checkStop x result])
    exact inv.queued.move rfl (fun _ done => done) (fun i y member => List.mem_of_mem_tail member) (by simp)
      (by simp [Instr.unpushed]) (by simp)
  · show Ready _ (Function.update (stage c) p [.checkStop x result]) _ _ _
    exact {
      counter := by simp [Phase.offset]
      full := fun full => full.elim
      front := by simp
      announced := by simp
      busy := fun q i member other is => by
        by_cases same : q = p
        · simp [same] at member; subst member; simpa [Instr.phase,same,eq_comm] using is
        · obtain ⟨_,owns'⟩ := ready.busy q i (by simpa [same] using member) other is
          exact absurd (Option.some.inj (owns'.symm.trans owns)) same }

/-- The queues are counted anew while every front item has been announced. -/
theorem recount_keeps {result : Fin n → Value} (inv : Invariant c) (left : c.threads p = .recount x result :: rest)
    (settled : ∀ i x, (c.shared.queues i).head? = some x → ∀ q, .notifyResultCompletion x ∉ c.threads q)
    (ran : Ran exception c.shared (.recount x result) s new) : Invariant (c.put p s (new ++ rest)) := by
  obtain ⟨here,none_left⟩ := inv.only left rfl
  obtain ⟨counted,phase,owner,ready⟩ := inv.ready
  obtain ⟨rfl,owns⟩ := ready.busy p (.recount x result) (by simp [here]) .popped rfl
  have quiet : ∀ q, q ≠ p → ∀ i ∈ stage c q, i.phase = none := by
    intro q other i member
    by_contra busy
    obtain ⟨phase,is⟩ := Option.ne_none_iff_exists'.mp busy
    exact other (Option.some.inj ((ready.busy q i member phase is).2.symm.trans owns))
  have announced : ∀ k : Instr n Value Error, (∀ y, k ≠ .notifyResultCompletion y) → ∀ i, ∀ y,
      (c.shared.queues i).head? = some y → ∀ q, .notifyResultCompletion y ∉ Function.update (stage c) p [k] q := by
    intro k step i y head q
    by_cases same : q = p
    · simpa [same] using (step y).symm
    · simpa [same,mem_stage (show (Instr.notifyResultCompletion y).ofItem = true from rfl)] using settled i y head q
  have starts : ∀ count next, Queued { c.shared with nReadyNextItems := count }
      (Function.update (stage c) p [.startZipped x result next]) := fun count next =>
    inv.queued.move rfl (fun _ done => done) (fun _ _ member => member) (by simp) (by simp [Instr.unpushed]) (by simp)
  cases ran with
  | recountAll _ _ full =>
    have all : nonEmpty c.shared = Finset.univ := Finset.eq_univ_of_card _ (by simpa using full)
    refine .put none_left (starts _ true) ⟨nonEmpty c.shared,.chained,owner,?_⟩
    show Ready _ (Function.update (stage c) p [.startZipped x result true]) _ _ _
    exact {
      counter := by simp [Phase.offset]
      full := fun _ => all
      front := by simp [nonEmpty]
      announced := fun i _ y head => announced _ (by simp) i y head
      busy := fun q i member other is => by
        by_cases same : q = p
        · simp [same] at member; subst member; simpa [Instr.phase,same,owns,eq_comm] using is
        · rw [quiet q same i (by simpa [same] using member)] at is; cases is }
  | recount =>
    refine .put none_left (starts _ false) ⟨nonEmpty c.shared,.opened,none,?_⟩
    show Ready _ (Function.update (stage c) p [.startZipped x result false]) _ _ _
    exact {
      counter := by simp [Phase.offset]
      full := fun full => full.elim
      front := by simp [nonEmpty]
      announced := fun i _ y head => announced _ (by simp) i y head
      busy := fun q i member other is => by
        by_cases same : q = p
        · simp [same] at member; subst member; simp [Instr.phase] at is
        · rw [quiet q same i (by simpa [same] using member)] at is; cases is }

/-- The next tuple is ready, and its queue is announced once more. -/
theorem startNext_keeps (inv : Invariant c) (left : c.threads p = .startNext x :: rest)
    (ran : Ran exception c.shared (.startNext x) s new) : Invariant (c.put p s (new ++ rest)) := by
  obtain ⟨here,none_left⟩ := inv.only left rfl
  obtain ⟨counted,phase,owner,ready⟩ := inv.ready
  obtain ⟨rfl,owns⟩ := ready.busy p (.startNext x) (by simp [here]) .chained rfl
  obtain rfl := ready.full trivial
  cases ran
  rename_i y first
  obtain ⟨index,pushed⟩ := inv.queued.queued x.index y (List.mem_of_mem_head? first)
  refine .put none_left ?_ ⟨Finset.univ.erase x.index,.opened,none,?_⟩
  · show Queued _ (Function.update (stage c) p [.notifyResultCompletion y])
    refine inv.queued.move rfl (fun _ done => done) (fun _ _ member => member) (by simp) (by simp [Instr.unpushed]) ?_
    intro z member
    obtain rfl : z = y := by simpa using member
    exact ⟨pushed,fun q _ => ready.announced _ (Finset.mem_univ _) z first q⟩
  · show Ready _ (Function.update (stage c) p [.notifyResultCompletion y]) _ _ _
    exact {
      counter := by
        have value := ready.counter
        have positive : 0 < n := Fin.pos x.index
        rw [Finset.card_erase_of_mem (Finset.mem_univ _)]
        simp [Phase.offset] at value ⊢
        omega
      full := fun full => full.elim
      front := fun i _ => ready.front i (Finset.mem_univ _)
      announced := fun i member z head q => by
        by_cases same : q = p
        · have : z ≠ y := by
            rintro rfl
            have := (inv.queued.queued i z (List.mem_of_mem_head? head)).1
            exact (Finset.mem_erase.mp member).1 (this.symm.trans index)
          simpa [same] using this
        · simpa [same] using ready.announced i (Finset.mem_univ _) z head q
      busy := fun q i member other is => by
        by_cases same : q = p
        · simp [same] at member; subst member; simp [Instr.phase] at is
        · have := (ready.busy q i (by simpa [same] using member) other is).2
          exact absurd (Option.some.inj (this.symm.trans owns)) same }

/-- What the steps outside of `item_receiver::set_value` leave as it is. -/
theorem ran_other (other : i.ofItem = false) (ran : Ran exception s i s' new) :
    (i = .clearQueues ∧ s'.queues = (fun _ => []) ∧ s'.nReadyNextItems = 0 ∨
      s'.queues = s.queues ∧ s'.nReadyNextItems = s.nReadyNextItems) ∧
    s'.pushed = s.pushed ∧ s'.completedItems = s.completedItems ∧ new.filter Instr.ofItem = [] := by
  cases ran <;> simp only [Instr.ofItem,Bool.true_eq_false] at other
  case completeAllItemOps x ops held =>
    refine ⟨.inr ⟨rfl,rfl⟩,rfl,rfl,List.filter_eq_nil_iff.mpr fun j member => ?_⟩
    obtain ⟨k,rfl⟩ := mem_completeAll.mp member
    simp [Instr.ofItem]
  case clearQueues =>
    refine ⟨.inl ⟨rfl,rfl,rfl⟩,rfl,rfl,List.filter_eq_nil_iff.mpr fun j member => ?_⟩
    obtain ⟨k,x,_,rfl⟩ := mem_completeQueues.mp member
    simp [Instr.ofItem]
  case fetchSub k signal =>
    refine ⟨.inr ⟨rfl,rfl⟩,rfl,rfl,?_⟩
    cases signal <;> split <;> rfl
  all_goals first
    | exact ⟨.inr ⟨rfl,rfl⟩,rfl,rfl,rfl⟩
    | exact ⟨.inr ⟨rfl,rfl⟩,rfl,rfl,by split <;> rfl⟩

/-- `notify_stop` clears the queues while nobody collects. -/
theorem ready_of_cleared (idle : ∀ p, ∀ i ∈ stages p, i.phase = none) (counter : s.nReadyNextItems = 0) :
    Ready s stages ∅ .opened none where
  counter := by simp [counter,Phase.offset]
  full full := full.elim
  front := by simp
  announced := by simp
  busy p i member other is := by rw [idle p i member] at is; cases is

theorem Queued.congr (queued : Queued s stages) (pushed : s'.pushed = s.pushed)
    (completed : ∀ x ∈ s.completedItems, x ∈ s'.completedItems) (queues : ∀ i, ∀ x ∈ s'.queues i, x ∈ s.queues i) :
    Queued s' stages where
  single := queued.single
  unpushed q i member x fresh := by
    obtain ⟨party,done,out⟩ := queued.unpushed q i member x fresh
    exact ⟨party,completed x done,pushed ▸ out⟩
  completed x member := completed x (queued.completed x (pushed ▸ member))
  queued i x member := pushed ▸ queued.queued i x (queues i x member)
  notifying q x member := pushed ▸ queued.notifying q x member
  once := queued.once

theorem other_keeps (inv : Invariant c) (ok : Guarded c (.run p)) (left : c.threads p = i :: rest)
    (other : i.ofItem = false) (ran : Ran exception c.shared i s new) : Invariant (c.put p s (new ++ rest)) := by
  obtain ⟨effect,pushed,completed,none_new⟩ := ran_other other ran
  obtain ⟨counted,phase,owner,ready⟩ := inv.ready
  have same : stage (c.put p s (new ++ rest)) = stage c := by
    rw [stage_put,List.filter_append,none_new,List.nil_append]
    apply Function.update_eq_self_iff.mpr
    simp [stage,left,other]
  constructor
  · rw [same]
    refine inv.queued.congr pushed (by simp [completed]) ?_
    rcases effect with ⟨_,queues,_⟩ | ⟨queues,_⟩ <;> simp [queues]
  · rw [same]
    rcases effect with ⟨rfl,_,counter⟩ | ⟨queues,counter⟩
    · simp only [Guarded,left] at ok
      exact ⟨_,_,_,ready_of_cleared (fun q j member => ok q j (List.mem_of_mem_filter member)) counter⟩
    · exact ⟨counted,phase,owner,counter ▸ ready.counter,ready.full,queues ▸ ready.front,
        queues ▸ ready.announced,ready.busy⟩

theorem run_keeps (inv : Invariant c) (ok : Guarded c (.run p)) (left : c.threads p = i :: rest)
    (ran : Ran exception c.shared i s new) : Invariant (c.put p s (new ++ rest)) := by
  cases i with
  | emplaceResult x v =>
    cases ran <;> exact unpushed_keeps inv left rfl rfl rfl rfl rfl (.inr ⟨.testStop x,rfl,rfl⟩)
  | testStop x =>
    cases ran
    by_cases stopped : c.shared.stopRequested <;> simp only [stopped]
    · exact unpushed_keeps inv left rfl rfl rfl rfl rfl (.inl rfl)
    · exact unpushed_keeps inv left rfl rfl rfl rfl rfl (.inr ⟨.pushBack x,rfl,rfl⟩)
  | pushBack x => exact pushBack_keeps inv left ran
  | notifyResultCompletion x => exact notifyResultCompletion_keeps inv left ran
  | collectResults x =>
    cases ran
    rename_i result _
    exact phase_keeps inv left rfl (.inr ⟨.popFronts x result,rfl,rfl,rfl⟩) rfl rfl rfl rfl
  | popFronts x result => exact popFronts_keeps inv left ran
  | checkStop x result =>
    cases ran
    by_cases stopped : c.shared.stopRequested <;> simp only [stopped]
    · exact phase_keeps inv left rfl (.inl rfl) rfl rfl rfl rfl
    · exact phase_keeps inv left rfl (.inr ⟨.recount x result,rfl,rfl,rfl⟩) rfl rfl rfl rfl
  | recount x result =>
    simp only [Guarded,left] at ok
    exact recount_keeps inv left ok ran
  | startZipped x result next => exact startZipped_keeps inv left ran
  | startNext x => exact startNext_keeps inv left ran
  | _ => exact other_keeps inv ok left rfl ran

/-- What the events leave as it is, apart from the item that completes with a value. -/
theorem raised_other {e : Event n Value Error} (raised : Raised s e s' new) :
    s'.queues = s.queues ∧ s'.nReadyNextItems = s.nReadyNextItems ∧ s'.pushed = s.pushed ∧
    (∀ x ∈ s.completedItems, x ∈ s'.completedItems) ∧
    (new.filter Instr.ofItem = [] ∨ ∃ x v, e = .itemValue x v ∧ x ∉ s.completedItems ∧ x ∈ s'.completedItems ∧
      new = [.emplaceResult x v]) := by
  cases raised with
  | itemValue x v _ pending =>
    exact ⟨rfl,rfl,rfl,by simp +contextual,.inr ⟨x,v,rfl,pending,by simp,rfl⟩⟩
  | start => exact ⟨rfl,rfl,rfl,by simp,.inl (by simp [List.filter_eq_nil_iff,Instr.ofItem])⟩
  | childCompletes k signal => cases signal <;> exact ⟨rfl,rfl,rfl,by simp,.inl rfl⟩
  | outerStop => exact ⟨rfl,rfl,rfl,by simp,.inl (by split <;> rfl)⟩
  | _ => exact ⟨rfl,rfl,rfl,by simp +contextual,.inl rfl⟩

theorem call_keeps {e : Event n Value Error} (inv : Invariant c)
    (idle : c.threads ((machine n Value exception).party e) = []) (raised : Raised c.shared e s new) :
    Invariant (c.put ((machine n Value exception).party e) s new) := by
  obtain ⟨queues,counter,pushed,completed,shape⟩ := raised_other raised
  obtain ⟨counted,phase,owner,ready⟩ := inv.ready
  have before : stage c ((machine n Value exception).party e) = [] := by simp [stage,idle]
  rw [← List.append_nil new]
  rcases shape with none | ⟨x,v,rfl,fresh,done,rfl⟩
  · refine .put rfl ?_ ⟨counted,phase,owner,?_⟩
    · rw [none]; exact inv.queued.move pushed completed (by simp [queues]) (by simp) (by simp) (by simp)
    · rw [none]; exact ready.move queues counter (by simp) (by simp)
  · have out : x ∉ c.shared.pushed := fun member => fresh (inv.queued.completed x member)
    refine .put rfl ?_ ⟨counted,phase,owner,?_⟩
    · show Queued s (Function.update (stage c) (.item x) [.emplaceResult x v])
      refine inv.queued.move pushed completed (by simp [queues]) (by simp) ?_ (by simp)
      intro i member y is
      obtain rfl : i = .emplaceResult x v := by simpa using member
      obtain rfl : x = y := by simpa [Instr.unpushed] using is
      exact ⟨rfl,done,out⟩
    · show Ready s (Function.update (stage c) (.item x) [.emplaceResult x v]) counted phase owner
      exact ready.move queues counter (by simp) (by simp [Instr.phase])

theorem initial_invariant : Invariant (initial n Value Error) where
  queued := by constructor <;> simp [stage,initial]
  ready := ⟨∅,.opened,none,ready_of_cleared (by simp [stage,initial]) rfl⟩

theorem reach_invariant (reach : Reach (machine n Value exception) Guarded (initial n Value Error) c) : Invariant c :=
  reach.invariant initial_invariant (fun _ _ _ _ _ _ inv ok left ran => run_keeps inv ok left (ran_of_mem ran))
    (fun _ _ _ _ inv _ idle accepted => call_keeps inv idle (raised_of_accept accepted))

/-- As long as no drain meets a collecting thread and no queue is counted before
    its front item is announced: a thread that is about to collect the results or
    to pop them finds every queue non-empty, at most one thread is between the
    observation of `n - 1` and the end of step 4, and the queue that is announced
    once more in step 6 is not empty. -/
theorem trigger_finds_queues_nonempty (reach : Reach (machine n Value exception) Guarded (initial n Value Error) c) :
    (∀ p x, .collectResults x ∈ c.threads p → ∀ i, c.shared.queues i ≠ []) ∧
    (∀ p x result, .popFronts x result ∈ c.threads p → ∀ i, c.shared.queues i ≠ []) ∧
    (∀ p q, ∀ i ∈ c.threads p, ∀ j ∈ c.threads q, i.collects → j.collects → p = q) ∧
    (∀ p x, .startNext x ∈ c.threads p → c.shared.queues x.index ≠ []) := by
  have inv := reach_invariant reach
  obtain ⟨counted,phase,owner,ready⟩ := inv.ready
  have busy : ∀ p, ∀ i ∈ c.threads p, ∀ current, i.phase = some current → current = phase ∧ owner = some p :=
    fun p i member current is =>
      ready.busy p i ((mem_stage (ofItem_of_phase (by simp [is]))).mpr member) current is
  have nonempty : ∀ p, ∀ i ∈ c.threads p, ∀ current, i.phase = some current → current.full →
      ∀ k, c.shared.queues k ≠ [] := by
    intro p i member current is full k
    obtain ⟨rfl,_⟩ := busy p i member current is
    exact ready.front k (by simp [ready.full full])
  have collecting : ∀ i : Instr n Value Error, i.collects → ∃ current, i.phase = some current := by
    intro i collects
    cases i <;> first | exact ⟨_,rfl⟩ | exact collects.elim
  refine ⟨fun p x member => nonempty p _ member .collecting rfl trivial,
    fun p x result member => nonempty p _ member .collecting rfl trivial,?_,
    fun p x member => nonempty p _ member .chained rfl trivial x.index⟩
  intro p q i first j second collects collects'
  obtain ⟨_,is⟩ := collecting i collects
  obtain ⟨_,is'⟩ := collecting j collects'
  exact Option.some.inj ((busy p i first _ is).2.symm.trans (busy q j second _ is').2)

/-- Accepts only steps that are guarded for certain: the queues are counted anew
    while they are all empty, and nobody calls `notify_stop`. -/
def surelyGuarded (c : Config (Party n) (OperationBase n Value Error) (Instr n Value Error)) :
    Label (Party n) (Event n Value Error) → Bool
  | .run p =>
    match c.threads p with
    | .clearQueues :: _ => false
    | .recount _ _ :: _ => decide (nonEmpty c.shared = ∅)
    | _ => true
  | .call _ => true

theorem guarded_of_surely (c : Config (Party n) (OperationBase n Value Error) (Instr n Value Error))
    (l : Label (Party n) (Event n Value Error)) (sure : surelyGuarded c l = true) : Guarded c l := by
  cases l with
  | call e => trivial
  | run p =>
    simp only [Guarded]
    split
    next left => simp [surelyGuarded,left] at sure
    next left =>
      have empty : nonEmpty c.shared = ∅ := by simpa [surelyGuarded,left] using sure
      intro i x head
      have present : i ∈ nonEmpty c.shared := by
        simp only [nonEmpty,Finset.mem_filter,Finset.mem_univ,true_and]
        intro none
        simp [none] at head
      rw [empty] at present
      exact absurd present (Finset.notMem_empty i)
    next => trivial

/-- All that is left to the thread of the item is to collect the results and what follows. -/
def aboutToCollect (c : Config (Party n) (OperationBase n Value Error) (Instr n Value Error)) (x : Item n) : Bool :=
  match c.threads (.item x) with
  | [.collectResults y] => y = x
  | _ => false

theorem mem_of_aboutToCollect {x : Item n} (about : aboutToCollect c x = true) :
    .collectResults x ∈ c.threads (.item x) := by
  unfold aboutToCollect at about
  split at about
  next left => simp_all
  next => cases about

/-- Both children of a pair deliver an item, the tuple is started, and both
    deliver another one. -/
theorem trigger_finds_queues_nonempty_twice : ∃ c, Reach (machine 2 Nat none) Guarded (initial 2 Nat Nat) c ∧
    .collectResults ⟨1,1⟩ ∈ c.threads (.item ⟨1,1⟩) ∧ ∀ i, c.shared.queues i ≠ [] := by
  obtain ⟨c,reach,ready⟩ := exists_of_follow (machine 2 Nat (none : Option Nat)) Guarded (initial 2 Nat Nat)
    surelyGuarded guarded_of_surely
    (List.flatten [[(.call .start,0)],List.replicate 5 (.run .operation,0),
      [(.call (.setNext ⟨0,0⟩),0),(.call (.itemValue ⟨0,0⟩ 3),0)],List.replicate 4 (.run (.item ⟨0,0⟩),0),
      [(.call (.setNext ⟨1,0⟩),0),(.call (.itemValue ⟨1,0⟩ 4),0)],List.replicate 10 (.run (.item ⟨1,0⟩),0),
      [(.call (.setNext ⟨0,1⟩),0),(.call (.itemValue ⟨0,1⟩ 5),0)],List.replicate 4 (.run (.item ⟨0,1⟩),0),
      [(.call (.setNext ⟨1,1⟩),0),(.call (.itemValue ⟨1,1⟩ 6),0)],List.replicate 4 (.run (.item ⟨1,1⟩),0)])
    (fun c => aboutToCollect c ⟨1,1⟩) (by decide)
  have pending : .collectResults ⟨1,1⟩ ∈ c.threads (.item ⟨1,1⟩) := mem_of_aboutToCollect ready
  exact ⟨c,reach,pending,(trigger_finds_queues_nonempty reach).1 _ _ pending⟩

/-- The first child's second item is pushed before the queues are counted anew
    and announced after that, so that it is counted twice: its thread is about to
    collect the results while the queue of the second child is empty. -/
theorem miscounted_trigger_finds_queue_empty : ∃ c, Reach (machine 2 Nat none) Any (initial 2 Nat Nat) c ∧
    .collectResults ⟨0,1⟩ ∈ c.threads (.item ⟨0,1⟩) ∧ c.shared.queues 1 = [] := by
  obtain ⟨c,reach,found⟩ := exists_of_follow (machine 2 Nat (none : Option Nat)) Any (initial 2 Nat Nat)
    (fun _ _ => true) (fun _ _ _ => trivial)
    (List.flatten [[(.call .start,0)],List.replicate 5 (.run .operation,0),
      [(.call (.setNext ⟨0,0⟩),0),(.call (.itemValue ⟨0,0⟩ 3),0)],List.replicate 4 (.run (.item ⟨0,0⟩),0),
      [(.call (.setNext ⟨0,1⟩),0),(.call (.itemValue ⟨0,1⟩ 5),0)],List.replicate 3 (.run (.item ⟨0,1⟩),0),
      [(.call (.setNext ⟨1,0⟩),0),(.call (.itemValue ⟨1,0⟩ 4),0)],List.replicate 8 (.run (.item ⟨1,0⟩),0),
      [(.run (.item ⟨0,1⟩),0)]])
    (fun c => aboutToCollect c ⟨0,1⟩ && c.shared.queues 1 = []) (by decide)
  obtain ⟨about,empty⟩ := Bool.and_eq_true_iff.mp found
  exact ⟨c,reach,mem_of_aboutToCollect about,of_decide_eq_true empty⟩

end SendersIo.ZipTrigger
