import SendersIo.ZipTuples

/-!
Whether a tuple can be left behind. A queue is announced when its front item is, and while
nobody is between the observation of `n - 1` and the end of step 6, the counter is the number
of announced queues, and that is not all of them. So whoever announces the last one hands the
tuple on, and in the end what waits is no complete tuple.
-/
namespace SendersIo.ZipProgress
open SendersIo.Interleaving SendersIo.Zip SendersIo.ZipItems SendersIo.ZipTuples
attribute [local instance] Classical.propDecidable

variable {n : Nat} {Value Error : Type}

/-- The queue has a front item, and nobody is still about to announce it. -/
def Announced (c : Config (Party n) (OperationBase n Value Error) (Instr n Value Error)) (k : Fin n) : Prop :=
  ∃ x, (c.shared.queues k).head? = some x ∧ ∀ p, .notifyResultCompletion x ∉ c.threads p

noncomputable def announced (c : Config (Party n) (OperationBase n Value Error) (Instr n Value Error)) : Finset (Fin n) :=
  Finset.univ.filter (Announced c)

/-- What holds as long as no stop is requested: how the counter relates to the announced queues, and
    that a tuple that was popped is handed on. -/
structure Watched (c : Config (Party n) (OperationBase n Value Error) (Instr n Value Error)) : Prop where
  opened : (∀ p, ∀ i ∈ c.threads p, i.phase = none) →
    c.shared.nReadyNextItems = (announced c).card ∧ ∃ k, ¬ Announced c k
  full : ∀ p, ∀ i ∈ c.threads p, ∀ phase, i.phase = some phase → phase.full → ∀ k, Announced c k
  chained : ∀ p, ∀ i ∈ c.threads p, i.phase = some .chained → c.shared.nReadyNextItems = n - 1
  handed : ∀ x, c.shared.itemOps x ≠ none →
    x ∈ c.shared.emitted.map (·.trigger) ∨ ∃ p, ∃ i ∈ c.threads p, i.popped = some x

/-- A stop is requested, or about to be. -/
def Stopping (c : Config (Party n) (OperationBase n Value Error) (Instr n Value Error)) : Prop :=
  c.shared.stopRequested = true ∨ ∃ p, .requestStop ∈ c.threads p

variable {s s' : OperationBase n Value Error} {c : Config (Party n) (OperationBase n Value Error) (Instr n Value Error)}
  {p q : Party n} {i j : Instr n Value Error} {new rest : List (Instr n Value Error)} {x y : Item n}
  {exception : Option Error} {steps : List (Step n Value Error)} {k : Fin n}

/-! ### The stop -/

theorem ran_stop (ran : Ran exception s i s' new) (stopped : s.stopRequested = true) : s'.stopRequested = true := by
  cases ran <;> first | exact stopped | rfl

/-- A stop that is requested stays so, and one that is about to be is. -/
theorem stopping_run (stopping : Stopping c) (left : c.threads p = i :: rest) (ran : Ran exception c.shared i s new) :
    Stopping (c.put p s (new ++ rest)) := by
  rcases stopping with stopped | ⟨q,pending⟩
  · exact .inl (ran_stop ran stopped)
  · by_cases this : i = .requestStop
    · subst this
      cases ran
      exact .inl rfl
    · exact .inr ⟨q,mem_put_of_ne left pending (Ne.symm this)⟩

theorem stopping_call (stopping : Stopping c) (idle : c.threads p = []) {e : Event n Value Error}
    (raised : Raised c.shared e s new) : Stopping (c.put p s new) := by
  rcases stopping with stopped | ⟨q,pending⟩
  · refine .inl ?_
    cases raised <;> exact stopped
  · refine .inr ⟨q,?_⟩
    have other : q ≠ p := by
      rintro rfl
      rw [idle] at pending
      cases pending
    rwa [put_threads_ne c other]

/-! ### One thread at a time is in a phase -/

/-- Only one party is at an instruction of a phase. -/
theorem phase_alone (inv : ZipTrigger.Invariant c) (left : c.threads p = i :: rest) {phase : Phase}
    (is : i.phase = some phase) : ∀ q j, Stays c p rest q j → j.phase = none := by
  intro q j stays
  by_contra other
  obtain ⟨phase',is'⟩ := Option.ne_none_iff_exists'.mp other
  have steps := ZipTrigger.ofItem_of_phase (i := i) (by simp [is])
  have steps' := ZipTrigger.ofItem_of_phase (i := j) (by simp [is'])
  obtain ⟨counted,current,owner,ready⟩ := inv.ready
  obtain ⟨here,none_left⟩ := inv.only left steps
  have mine := (ready.busy p i (by simp [here]) phase is).2
  have theirs := (ready.busy q j ((ZipTrigger.mem_stage steps').mpr (stays.mem left)) phase' is').2
  obtain rfl : p = q := Option.some.inj (mine.symm.trans theirs)
  rcases stays with ⟨apart,_⟩ | ⟨_,member⟩
  · exact apart rfl
  · have : j ∈ rest.filter Instr.ofItem := List.mem_filter.mpr ⟨member,steps'⟩
    rw [none_left] at this
    cases this

/-! ### Steps that announce nothing -/

theorem announced_iff : k ∈ announced c ↔ Announced c k := by simp [announced]

theorem announced_congr {c' : Config (Party n) (OperationBase n Value Error) (Instr n Value Error)}
    (same : ∀ k, Announced c' k ↔ Announced c k) : announced c' = announced c := by
  ext k
  rw [announced_iff,announced_iff,same]

/-- A step that leaves the queues, and the announcements that are still to be made. -/
theorem announced_same (new : List (Instr n Value Error)) (left : c.threads p = i :: rest) (queues : s.queues = c.shared.queues)
    (other : ∀ x, i ≠ .notifyResultCompletion x) (plain : ∀ x, .notifyResultCompletion x ∉ new) (k : Fin n) :
    Announced (c.put p s (new ++ rest)) k ↔ Announced c k := by
  have pending : ∀ x, (∀ q, .notifyResultCompletion x ∉ (c.put p s (new ++ rest)).threads q) ↔
      ∀ q, .notifyResultCompletion x ∉ c.threads q := by
    intro x
    constructor
    · exact fun absent q member => absent q (mem_put_of_ne left member (other x).symm)
    · exact fun absent q member => (mem_of_mem_put left member).elim (plain x) (absent q)
  simp only [Announced,put_shared,queues,pending]

/-- A step of a party that goes on within its phase, or is in none. -/
theorem Watched.same (watched : Watched c) (left : c.threads p = i :: rest) (queues : s.queues = c.shared.queues)
    (counter : s.nReadyNextItems = c.shared.nReadyNextItems) (other : ∀ x, i ≠ .notifyResultCompletion x)
    (plain : ∀ x, .notifyResultCompletion x ∉ new) (phases : ∀ j ∈ new, ∀ phase, j.phase = some phase → i.phase = some phase)
    (stays : i.phase ≠ none → ∃ j ∈ new, j.phase ≠ none)
    (handed : ∀ x, s.itemOps x ≠ none → x ∈ s.emitted.map (·.trigger) ∨
      ∃ q, ∃ j ∈ (c.put p s (new ++ rest)).threads q, j.popped = some x) : Watched (c.put p s (new ++ rest)) := by
  have same := announced_same _ left queues other plain
  have back : ∀ q, ∀ j ∈ (c.put p s (new ++ rest)).threads q, ∀ phase, j.phase = some phase →
      ∃ r, ∃ j' ∈ c.threads r, j'.phase = some phase := by
    intro q j member phase is
    rcases mem_of_mem_put left member with here | there
    · exact ⟨p,i,left ▸ List.mem_cons_self,phases j here phase is⟩
    · exact ⟨q,j,there,is⟩
  refine ⟨?_,?_,?_,handed⟩
  · intro quiet
    have before : ∀ q, ∀ j ∈ c.threads q, j.phase = none := by
      intro q j member
      by_cases this : j = i
      · subst this
        by_contra busy
        obtain ⟨j',here,busy'⟩ := stays busy
        refine busy' (quiet p j' ?_)
        rw [put_threads_self]
        exact List.mem_append_left _ here
      · exact quiet q j (mem_put_of_ne left member this)
    obtain ⟨value,k,absent⟩ := watched.opened before
    rw [put_shared,counter,announced_congr same]
    exact ⟨value,k,(same k).not.mpr absent⟩
  · intro q j member phase is full k
    obtain ⟨r,j',there,is'⟩ := back q j member phase is
    exact (same k).mpr (watched.full r j' there phase is' full k)
  · intro q j member is
    obtain ⟨r,j',there,is'⟩ := back q j member .chained is
    rw [put_shared,counter]
    exact watched.chained r j' there is'

/-- Tuples that are handed on, or about to be, after a step that changes nothing about them. -/
theorem Watched.handed_same (watched : Watched c) (left : c.threads p = i :: rest) (ops : s.itemOps = c.shared.itemOps)
    (emitted : ∀ x ∈ c.shared.emitted.map (·.trigger), x ∈ s.emitted.map (·.trigger))
    (goes : ∀ x, i.popped = some x → x ∈ s.emitted.map (·.trigger) ∨ ∃ j ∈ new, j.popped = some x) :
    ∀ x, s.itemOps x ≠ none → x ∈ s.emitted.map (·.trigger) ∨
      ∃ q, ∃ j ∈ (c.put p s (new ++ rest)).threads q, j.popped = some x := by
  intro x popped
  rw [ops] at popped
  rcases watched.handed x popped with before | ⟨q,j,member,is⟩
  · exact .inl (emitted x before)
  · by_cases this : j = i
    · subst this
      refine (goes x is).imp_right fun there => ?_
      obtain ⟨j',here,is'⟩ := there
      exact ⟨p,j',by rw [put_threads_self]; exact List.mem_append_left _ here,is'⟩
    · exact .inr ⟨q,j,mem_put_of_ne left member this,is⟩

/-! ### Steps of the announcements -/

/-- An item is pushed, and is to be announced. -/
theorem pushBack_announced (queued : ZipTrigger.Queued c.shared (ZipTrigger.stage c)) (left : c.threads p = .pushBack x :: rest)
    (fresh : x ∉ c.shared.pushed)
    (queues : s.queues = Function.update c.shared.queues x.index (c.shared.queues x.index ++ [x])) (k : Fin n) :
    Announced (c.put p s ([.notifyResultCompletion x] ++ rest)) k ↔ Announced c k := by
  have pending : ∀ y, y ≠ x → ((∀ q, .notifyResultCompletion y ∉ (c.put p s ([.notifyResultCompletion x] ++ rest)).threads q) ↔
      ∀ q, .notifyResultCompletion y ∉ c.threads q) := by
    intro y other
    constructor
    · exact fun absent q member => absent q (mem_put_of_ne left member (by simp))
    · exact fun absent q member => (mem_of_mem_put left member).elim (by simp [other]) (absent q)
  have different : ∀ y, (c.shared.queues k).head? = some y → y ≠ x := by
    rintro y first rfl
    exact fresh (queued.queued k y (List.mem_of_mem_head? first)).2
  simp only [Announced,put_shared,queues]
  by_cases same : k = x.index
  · subst same
    rw [Function.update_self]
    cases queue : c.shared.queues x.index with
    | nil =>
      refine iff_of_false ?_ (by simp)
      rintro ⟨y,first,absent⟩
      obtain rfl : x = y := by simpa using first
      exact absent p (by rw [put_threads_self]; exact List.mem_cons_self)
    | cons z queue' =>
      simpa using pending z (different z (by rw [queue]; rfl))
  · rw [Function.update_of_ne same]
    exact exists_congr fun y => and_congr_right fun first => pending y (different y first)

theorem pushBack_watched (watched : Watched c) (queued : ZipTrigger.Queued c.shared (ZipTrigger.stage c))
    (left : c.threads p = .pushBack x :: rest) (fresh : x ∉ c.shared.pushed)
    (queues : s.queues = Function.update c.shared.queues x.index (c.shared.queues x.index ++ [x]))
    (counter : s.nReadyNextItems = c.shared.nReadyNextItems) (ops : s.itemOps = c.shared.itemOps)
    (emitted : s.emitted = c.shared.emitted) : Watched (c.put p s ([.notifyResultCompletion x] ++ rest)) := by
  have same := pushBack_announced (s := s) queued left fresh queues
  have back : ∀ q, ∀ j ∈ (c.put p s ([.notifyResultCompletion x] ++ rest)).threads q, ∀ phase, j.phase = some phase →
      j ∈ c.threads q := by
    intro q j member phase is
    rcases mem_of_mem_put left member with here | there
    · rw [List.mem_singleton.mp here] at is
      cases is
    · exact there
  refine ⟨?_,?_,?_,watched.handed_same left ops (by simp [emitted]) (by simp [Instr.popped])⟩
  · intro quiet
    obtain ⟨value,k,absent⟩ := watched.opened fun q j member => by
      by_cases this : j = .pushBack x
      · rw [this]
        rfl
      · exact quiet q j (mem_put_of_ne left member this)
    rw [put_shared,counter,announced_congr same]
    exact ⟨value,k,(same k).not.mpr absent⟩
  · exact fun q j member phase is full k => (same k).mpr (watched.full q j (back q j member phase is) phase is full k)
  · intro q j member is
    rw [put_shared,counter]
    exact watched.chained q j (back q j member _ is) is

/-- Who is not the front item is not announced. -/
theorem notFront_announced (queued : ZipTrigger.Queued c.shared (ZipTrigger.stage c))
    (left : c.threads p = .notifyResultCompletion x :: rest) (other : (c.shared.queues x.index).head? ≠ some x) (k : Fin n) :
    Announced (c.put p c.shared ([] ++ rest)) k ↔ Announced c k := by
  refine exists_congr fun y => and_congr_right fun first => ?_
  have different : y ≠ x := by
    rintro rfl
    obtain ⟨rfl,_⟩ := queued.queued k y (List.mem_of_mem_head? first)
    exact other first
  constructor
  · exact fun absent q member => absent q (mem_put_of_ne left member (by simpa using different))
  · exact fun absent q member => (mem_of_mem_put left member).elim (by simp) (absent q)

/-- The front item is announced, by nobody else. -/
theorem front_announced (queued : ZipTrigger.Queued c.shared (ZipTrigger.stage c))
    (left : c.threads p = .notifyResultCompletion x :: rest) (none_left : rest.filter Instr.ofItem = [])
    (first : (c.shared.queues x.index).head? = some x) (queues : s.queues = c.shared.queues)
    (plain : ∀ y, .notifyResultCompletion y ∉ new) (k : Fin n) :
    Announced (c.put p s (new ++ rest)) k ↔ k = x.index ∨ Announced c k := by
  have gone : ∀ q, .notifyResultCompletion x ∉ (c.put p s (new ++ rest)).threads q := by
    intro q member
    rcases stays_or_new member with (⟨other,there⟩ | ⟨rfl,later⟩) | ⟨_,here⟩
    · refine other (queued.once q p x ((ZipTrigger.mem_stage rfl).mpr there) ((ZipTrigger.mem_stage rfl).mpr ?_))
      exact left ▸ List.mem_cons_self
    · have : (.notifyResultCompletion x : Instr n Value Error) ∈ rest.filter Instr.ofItem := List.mem_filter.mpr ⟨later,rfl⟩
      rw [none_left] at this
      cases this
    · exact plain x here
  constructor
  · rintro ⟨y,head,absent⟩
    rw [put_shared,queues] at head
    by_cases this : y = x
    · subst this
      exact .inl (queued.queued k y (List.mem_of_mem_head? head)).1.symm
    · exact .inr ⟨y,head,fun q member => absent q (mem_put_of_ne left member (by simpa using this))⟩
  · rintro (rfl | ⟨y,head,absent⟩)
    · exact ⟨x,by rw [put_shared,queues,first],gone⟩
    · refine ⟨y,by rw [put_shared,queues,head],fun q member => ?_⟩
      exact (mem_of_mem_put left member).elim (plain y) (absent q)

theorem mem_put_of_phase (left : c.threads p = .notifyResultCompletion x :: rest) (member : j ∈ c.threads q)
    {phase : Phase} (is : j.phase = some phase) : j ∈ (c.put p s (new ++ rest)).threads q := by
  refine mem_put_of_ne left member ?_
  rintro rfl
  cases is

/-- Nobody was in a phase if nobody is after an item was counted. -/
theorem quiet_of_put (left : c.threads p = .notifyResultCompletion x :: rest)
    (quiet : ∀ q, ∀ j ∈ (c.put p s (new ++ rest)).threads q, j.phase = none) : ∀ q, ∀ j ∈ c.threads q, j.phase = none := by
  intro q j member
  by_contra busy
  obtain ⟨phase,is⟩ := Option.ne_none_iff_exists'.mp busy
  exact busy (quiet q j (mem_put_of_phase left member is))

theorem notFront_watched (watched : Watched c) (inv : ZipTrigger.Invariant c)
    (left : c.threads p = .notifyResultCompletion x :: rest) (other : (c.shared.queues x.index).head? ≠ some x) :
    Watched (c.put p c.shared ([] ++ rest)) := by
  have same := notFront_announced inv.queued left other
  have back : ∀ q, ∀ j ∈ (c.put p c.shared ([] ++ rest)).threads q, j ∈ c.threads q := fun q j member =>
    (mem_of_mem_put left member).resolve_left (by simp)
  refine ⟨?_,?_,?_,watched.handed_same left rfl (fun _ => id) (by simp [Instr.popped])⟩
  · intro quiet
    obtain ⟨value,k,absent⟩ := watched.opened (quiet_of_put left quiet)
    rw [announced_congr same]
    exact ⟨value,k,(same k).not.mpr absent⟩
  · exact fun q j member phase is full k => (same k).mpr (watched.full q j (back q j member) phase is full k)
  · exact fun q j member is => watched.chained q j (back q j member) is

/-- While an item is about to be counted its queue is not, and whoever is in a phase has not counted
    every queue. -/
theorem not_announced (watched : Watched c) (left : c.threads p = .notifyResultCompletion x :: rest)
    (first : (c.shared.queues x.index).head? = some x) :
    ¬ Announced c x.index ∧ ∀ q, ∀ j ∈ c.threads q, ∀ phase, j.phase = some phase → ¬ phase.full := by
  have missing : ¬ Announced c x.index := by
    rintro ⟨y,head,absent⟩
    obtain rfl : x = y := Option.some.inj (first.symm.trans head)
    exact absent p (left ▸ List.mem_cons_self)
  exact ⟨missing,fun q j member phase is full => missing (watched.full q j member phase is full _)⟩

/-- The front item is counted. -/
theorem front_counted (new : List (Instr n Value Error)) (watched : Watched c) (inv : ZipTrigger.Invariant c)
    (left : c.threads p = .notifyResultCompletion x :: rest) (first : (c.shared.queues x.index).head? = some x)
    (queues : s.queues = c.shared.queues) (plain : ∀ y, .notifyResultCompletion y ∉ new) :
    announced (c.put p s (new ++ rest)) = insert x.index (announced c) ∧
    (insert x.index (announced c)).card = (announced c).card + 1 := by
  constructor
  · ext k
    rw [announced_iff,front_announced inv.queued left (inv.only left rfl).2 first queues plain,Finset.mem_insert,announced_iff]
  · exact Finset.card_insert_of_notMem (announced_iff.not.mpr (not_announced watched left first).1)

/-- Some queue is still to be counted. -/
theorem counted_watched (watched : Watched c) (inv : ZipTrigger.Invariant c)
    (left : c.threads p = .notifyResultCompletion x :: rest) (first : (c.shared.queues x.index).head? = some x)
    (more : c.shared.nReadyNextItems ≠ n - 1) :
    Watched (c.put p { c.shared with nReadyNextItems := c.shared.nReadyNextItems + 1 } ([] ++ rest)) := by
  obtain ⟨counts,card⟩ := front_counted (s := { c.shared with nReadyNextItems := c.shared.nReadyNextItems + 1 })
    [] watched inv left first rfl (by simp)
  have unfull := (not_announced watched left first).2
  have back : ∀ q, ∀ j ∈ (c.put p { c.shared with nReadyNextItems := c.shared.nReadyNextItems + 1 }
      ([] ++ rest)).threads q, j ∈ c.threads q := fun q j member => (mem_of_mem_put left member).resolve_left (by simp)
  refine ⟨?_,?_,?_,watched.handed_same left rfl (fun _ => id) (by simp [Instr.popped])⟩
  · intro quiet
    have value := (watched.opened (quiet_of_put left quiet)).1
    refine ⟨by rw [counts,card,put_shared,value]; push_cast; rfl,?_⟩
    by_contra every
    have full : insert x.index (announced c) = Finset.univ := by
      rw [← counts]
      exact Finset.eq_univ_iff_forall.mpr fun k => announced_iff.mpr (not_not.mp (not_exists.mp every k))
    rw [full,Finset.card_univ,Fintype.card_fin] at card
    omega
  · exact fun q j member phase is full => absurd full (unfull q j (back q j member) phase is)
  · exact fun q j member is => absurd trivial (unfull q j (back q j member) .chained is)

/-- Every queue is counted, and the results are collected. -/
theorem collecting_watched (watched : Watched c) (inv : ZipTrigger.Invariant c)
    (left : c.threads p = .notifyResultCompletion x :: rest) (first : (c.shared.queues x.index).head? = some x)
    (last : c.shared.nReadyNextItems = n - 1)
    (after : ZipTrigger.Invariant (c.put p { c.shared with nReadyNextItems := c.shared.nReadyNextItems + 1 }
      ([.collectResults x] ++ rest))) :
    Watched (c.put p { c.shared with nReadyNextItems := c.shared.nReadyNextItems + 1 } ([.collectResults x] ++ rest)) := by
  have at_x : (c.put p { c.shared with nReadyNextItems := c.shared.nReadyNextItems + 1 }
    ([.collectResults x] ++ rest)).threads p = .collectResults x :: rest := put_threads_self _ _ _ _
  obtain ⟨counts,card⟩ := front_counted (s := { c.shared with nReadyNextItems := c.shared.nReadyNextItems + 1 })
    [.collectResults x] watched inv left first rfl (by simp)
  have unfull := (not_announced watched left first).2
  have alone := phase_alone after at_x rfl
  -- nobody was in a phase before, since there is only one who collects
  have quiet : ∀ q, ∀ j ∈ c.threads q, j.phase = none := by
    intro q j member
    by_contra busy
    obtain ⟨phase,is⟩ := Option.ne_none_iff_exists'.mp busy
    have there : j ∈ (c.put p { c.shared with nReadyNextItems := c.shared.nReadyNextItems + 1 }
      ([.collectResults x] ++ rest)).threads q := mem_put_of_phase left member is
    refine busy (alone q j ?_)
    rcases stays_or_new there with (⟨other,_⟩ | ⟨here,later⟩) | ⟨here,now⟩
    · exact .inl ⟨other,there⟩
    · exact .inr ⟨here,later⟩
    · rw [List.mem_singleton.mp now] at member
      exact absurd trivial (unfull q _ member .collecting rfl)
  have all : ∀ k, Announced (c.put p { c.shared with nReadyNextItems := c.shared.nReadyNextItems + 1 }
      ([.collectResults x] ++ rest)) k := by
    intro k
    have full : insert x.index (announced c) = Finset.univ := by
      apply Finset.eq_univ_of_card
      have value := (watched.opened quiet).1
      rw [card,Fintype.card_fin]
      omega
    rw [← announced_iff,counts,full]
    exact Finset.mem_univ k
  refine ⟨?_,fun _ _ _ _ _ _ => all,?_,watched.handed_same left rfl (fun _ => id) (by simp [Instr.popped])⟩
  · intro none
    have := none p (.collectResults x) (by simp)
    cases this
  · intro q j member is
    rcases mem_of_mem_put left member with here | there
    · rw [List.mem_singleton.mp here] at is
      cases is
    · exact absurd trivial (unfull q j there .chained is)

theorem notifyResultCompletion_watched (watched : Watched c) (inv : ZipTrigger.Invariant c)
    (left : c.threads p = .notifyResultCompletion x :: rest)
    (ran : Ran exception c.shared (.notifyResultCompletion x) s new)
    (after : ZipTrigger.Invariant (c.put p s (new ++ rest))) : Watched (c.put p s (new ++ rest)) := by
  cases ran with
  | notFront _ other => exact notFront_watched watched inv left other
  | announced _ first =>
    by_cases last : c.shared.nReadyNextItems = n - 1
    · simp only [if_pos last] at after ⊢
      exact collecting_watched watched inv left first last after
    · simp only [if_neg last]
      exact counted_watched watched inv left first last

/-! ### Steps of whoever collects -/

/-- What is in a phase after a step of a party in one is new. -/
theorem new_of_phase (inv : ZipTrigger.Invariant c) (left : c.threads p = i :: rest) {phase phase' : Phase}
    (is : i.phase = some phase) (member : j ∈ (c.put p s (new ++ rest)).threads q) (is' : j.phase = some phase') :
    j ∈ new := by
  rcases stays_or_new member with stays | ⟨_,here⟩
  · rw [phase_alone inv left is q j stays] at is'
    cases is'
  · exact here

theorem popFronts_watched {result : Fin n → Value} (watched : Watched c) (inv : ZipTrigger.Invariant c)
    (left : c.threads p = .popFronts x result :: rest) {ops : Fin n → Item n}
    (popped : s.itemOps = Function.update c.shared.itemOps x (some ops)) (emitted : s.emitted = c.shared.emitted) :
    Watched (c.put p s ([.checkStop x result] ++ rest)) := by
  have only : ∀ q, ∀ j ∈ (c.put p s ([.checkStop x result] ++ rest)).threads q, ∀ phase, j.phase = some phase →
      phase = .popped := by
    intro q j member phase is
    rw [List.mem_singleton.mp (new_of_phase inv left rfl member is)] at is
    exact (Option.some.inj is).symm
  refine ⟨?_,?_,?_,?_⟩
  · intro quiet
    have := quiet p (.checkStop x result) (by simp)
    cases this
  · intro q j member phase is full
    rw [only q j member phase is] at full
    exact full.elim
  · intro q j member is
    cases only q j member .chained is
  · intro y there
    by_cases same : y = x
    · exact .inr ⟨p,.checkStop x result,by simp,by rw [same]; rfl⟩
    · rw [put_shared,popped,Function.update_of_ne same] at there
      rw [put_shared,emitted]
      refine (watched.handed y there).imp_right ?_
      rintro ⟨q,j,member,is⟩
      refine ⟨q,j,mem_put_of_ne left member ?_,is⟩
      rintro rfl
      cases is

/-- The queues are counted anew while every front item has been announced. -/
theorem recount_watched {result : Fin n → Value} (watched : Watched c) (inv : ZipTrigger.Invariant c)
    (left : c.threads p = .recount x result :: rest)
    (settled : ∀ i x, (c.shared.queues i).head? = some x → ∀ q, .notifyResultCompletion x ∉ c.threads q)
    (ran : Ran exception c.shared (.recount x result) s new) : Watched (c.put p s (new ++ rest)) := by
  have counted : ∀ k, Announced c k ↔ k ∈ nonEmpty c.shared := by
    intro k
    simp only [nonEmpty,Finset.mem_filter,Finset.mem_univ,true_and]
    constructor
    · rintro ⟨y,head,_⟩ empty
      rw [empty] at head
      cases head
    · intro some
      obtain ⟨y,queue,is⟩ := List.exists_cons_of_ne_nil some
      have head : (c.shared.queues k).head? = Option.some y := by rw [is]; rfl
      exact ⟨y,head,settled k y head⟩
  cases ran with
  | recountAll _ _ all =>
    have same := announced_same (s := { c.shared with nReadyNextItems := (nonEmpty c.shared).card - 1 })
      [.startZipped x result true] left rfl (by simp) (by simp)
    have every : ∀ k, Announced c k := fun k => by
      rw [counted,Finset.eq_univ_of_card (nonEmpty c.shared) (by simpa using all)]
      exact Finset.mem_univ k
    refine ⟨?_,fun _ _ _ _ _ _ k => (same k).mpr (every k),fun _ _ _ _ => ?_,?_⟩
    · intro quiet
      have := quiet p (.startZipped x result true) (by simp)
      cases this
    · rw [put_shared,all]
    · exact watched.handed_same left rfl (fun _ => id) (by simp [Instr.popped])
  | recount _ _ few =>
    have same := announced_same (s := { c.shared with nReadyNextItems := (nonEmpty c.shared).card })
      [.startZipped x result false] left rfl (by simp) (by simp)
    have quiet : ∀ q, ∀ j ∈ (c.put p { c.shared with nReadyNextItems := (nonEmpty c.shared).card }
        ([.startZipped x result false] ++ rest)).threads q, j.phase = none := by
      intro q j member
      by_contra busy
      obtain ⟨phase,is⟩ := Option.ne_none_iff_exists'.mp busy
      rw [List.mem_singleton.mp (new_of_phase inv left rfl member is)] at is
      cases is
    have announcedEq : announced c = nonEmpty c.shared := by
      ext k
      rw [announced_iff,counted]
    refine ⟨fun _ => ⟨by rw [put_shared,announced_congr same,announcedEq],?_⟩,?_,?_,?_⟩
    · by_contra every
      refine few ?_
      rw [show nonEmpty c.shared = Finset.univ from Finset.eq_univ_iff_forall.mpr fun k =>
        (counted k).mp ((same k).mp (not_not.mp (not_exists.mp every k)))]
      simp
    · intro q j member phase is
      rw [quiet q j member] at is
      cases is
    · intro q j member is
      rw [quiet q j member] at is
      cases is
    · exact watched.handed_same left rfl (fun _ => id) (by simp [Instr.popped])

/-- The next tuple is ready, and one of its queues is announced once more. -/
theorem startNext_watched (watched : Watched c) (inv : ZipTrigger.Invariant c) (left : c.threads p = .startNext x :: rest)
    (first : (c.shared.queues x.index).head? = some y) : Watched (c.put p c.shared ([.notifyResultCompletion y] ++ rest)) := by
  have chained : ∀ k, Announced c k := watched.full p (.startNext x) (left ▸ List.mem_cons_self) .chained rfl trivial
  have value := watched.chained p (.startNext x) (left ▸ List.mem_cons_self) rfl
  have quiet : ∀ q, ∀ j ∈ (c.put p c.shared ([.notifyResultCompletion y] ++ rest)).threads q, j.phase = none := by
    intro q j member
    by_contra busy
    obtain ⟨phase,is⟩ := Option.ne_none_iff_exists'.mp busy
    rw [List.mem_singleton.mp (new_of_phase inv left rfl member is)] at is
    cases is
  have fewer : ∀ k, Announced (c.put p c.shared ([.notifyResultCompletion y] ++ rest)) k ↔ k ≠ x.index := by
    intro k
    constructor
    · rintro ⟨z,head,absent⟩ rfl
      obtain rfl : y = z := Option.some.inj (first.symm.trans head)
      exact absent p (by simp)
    · intro other
      obtain ⟨z,head,absent⟩ := chained k
      refine ⟨z,head,fun q member => (mem_of_mem_put left member).elim (fun here => other ?_) (absent q)⟩
      obtain rfl : z = y := by simpa using here
      exact (inv.queued.queued k z (List.mem_of_mem_head? head)).1.symm.trans
        (inv.queued.queued _ z (List.mem_of_mem_head? first)).1
  have counts : announced (c.put p c.shared ([.notifyResultCompletion y] ++ rest)) = Finset.univ.erase x.index := by
    ext k
    rw [announced_iff,fewer]
    simp
  refine ⟨fun _ => ⟨?_,x.index,fun here => (fewer _).mp here rfl⟩,?_,?_,?_⟩
  · rw [put_shared,counts,value,Finset.card_erase_of_mem (Finset.mem_univ _),Finset.card_univ,Fintype.card_fin]
    have := x.index.pos
    omega
  · intro q j member phase is
    rw [quiet q j member] at is
    cases is
  · intro q j member is
    rw [quiet q j member] at is
    cases is
  · exact watched.handed_same left rfl (fun _ => id) (by simp [Instr.popped])

/-! ### Every step -/

/-- A stop is requested, or about to be. -/
theorem stopping_of_new (pending : .requestStop ∈ new) : Stopping (c.put p s (new ++ rest)) :=
  .inr ⟨p,by rw [put_threads_self]; exact List.mem_append_left _ pending⟩

/-- Steps of a party in no phase that announce nothing and have no tuple to hand on. -/
theorem Watched.plain (watched : Watched c) (left : c.threads p = i :: rest) (queues : s.queues = c.shared.queues)
    (counter : s.nReadyNextItems = c.shared.nReadyNextItems) (ops : s.itemOps = c.shared.itemOps)
    (emitted : s.emitted = c.shared.emitted) (other : ∀ x, i ≠ .notifyResultCompletion x) (phase : i.phase = none)
    (popped : i.popped = none) (plain : ∀ j ∈ new, (∀ x, j ≠ .notifyResultCompletion x) ∧ j.phase = none) :
    Watched (c.put p s (new ++ rest)) := by
  refine watched.same left queues counter other (fun x member => (plain _ member).1 x rfl) ?_ (fun busy => absurd phase busy)
    (watched.handed_same left ops (by simp [emitted]) (by simp [popped]))
  intro j member current is
  rw [(plain j member).2] at is
  cases is

theorem run_watched (tracked : Tracked steps c) (watched : Watched c) (going : c.shared.stopRequested = false)
    (careful : Careful c (.run p)) (left : c.threads p = i :: rest) (ran : Ran exception c.shared i s new) :
    Stopping (c.put p s (new ++ rest)) ∨ Watched (c.put p s (new ++ rest)) := by
  obtain ⟨threw,parties,items⟩ := tracked.items
  have here := items.fits p i (left ▸ List.mem_cons_self)
  have inv : ZipTrigger.Invariant c := by
    refine tracked.opened fun notified => ?_
    rw [(tracked.drained notified).stopped] at going
    cases going
  cases i with
  | pushBack x =>
    cases ran
    exact .inr (pushBack_watched watched inv.queued left here.2.1 rfl rfl rfl rfl)
  | notifyResultCompletion x =>
    exact .inr (notifyResultCompletion_watched watched inv left ran
      (ZipTrigger.run_keeps inv (guarded_of_careful careful left (by simp)) left ran))
  | popFronts x result =>
    cases ran
    exact .inr (popFronts_watched watched inv left rfl rfl)
  | recount x result =>
    simp only [Careful,left] at careful
    exact .inr (recount_watched watched inv left careful ran)
  | startNext x =>
    cases ran
    next first => exact .inr (startNext_watched watched inv left first)
  | clearQueues =>
    -- the stop is requested before the queues are drained
    have first := items.requests p
    rw [left,going] at first
    exact (first.resolve_left (by simp)).elim
  | emplaceResult x v =>
    cases ran with
    | emplaceResult =>
      exact .inr (watched.plain left rfl rfl rfl rfl (by simp) rfl rfl (by simp [Instr.phase]))
    | emplaceThrows => exact .inl (stopping_of_new (by simp [notifyError,notifyStop]))
  | checkStop x result =>
    cases ran
    rw [going]
    refine .inr (watched.same left rfl rfl (by simp) (by simp) (by simp [Instr.phase]) (fun _ => ⟨.recount x result,by simp,by simp [Instr.phase]⟩)
      (watched.handed_same left rfl (fun _ => id) (by simp [Instr.popped])))
  | collectResults x =>
    cases ran
    exact .inr (watched.same left rfl rfl (by simp) (by simp) (by simp [Instr.phase])
      (fun _ => ⟨_,List.mem_singleton_self _,by simp [Instr.phase]⟩)
      (watched.handed_same left rfl (fun _ => id) (by simp [Instr.popped])))
  | startZipped x result next =>
    cases ran with
    | startZipped _ _ _ ops held =>
      refine .inr (watched.same left rfl rfl (by simp) ?_ ?_ ?_ (watched.handed_same left rfl ?_ ?_))
      · cases next <;> simp
      · cases next <;> simp [Instr.phase]
      · cases next <;> simp [Instr.phase]
      · intro y member
        simp [List.mem_map.mp member]
      · intro y is
        obtain rfl : x = y := Option.some.inj is
        exact .inl (by simp)
    | zippedThrows => exact .inl (stopping_of_new (by simp [notifyError,notifyStop]))
  | emplaceStopCallback =>
    cases ran
    by_cases requested : c.shared.outerStopRequested = true
    · exact .inl (stopping_of_new (by simp [requested]))
    · refine .inr (watched.plain left rfl rfl rfl rfl (by simp) rfl rfl ?_)
      simp [requested]
  | requestStop =>
    cases ran
    exact .inl (.inl rfl)
  | fetchSub k signal =>
    cases ran
    by_cases last : c.shared.nPendingOperations > 1
    · refine .inl (stopping_of_new ?_)
      rw [if_pos last]
      cases signal <;> simp [notLast,notifyError,notifyStop]
    · refine .inr (watched.plain left rfl rfl rfl rfl (by simp) rfl rfl ?_)
      simp [last,Instr.phase]
  | testStop x =>
    cases ran
    refine .inr (watched.plain left rfl rfl rfl rfl (by simp) rfl rfl ?_)
    split <;> simp [Instr.phase]
  | completeAllItemOps x =>
    cases ran
    refine .inr (watched.plain left rfl rfl rfl rfl (by simp) rfl rfl fun j member => ?_)
    obtain ⟨_,rfl⟩ := mem_completeAll.mp member
    exact ⟨by simp,rfl⟩
  | _ =>
    cases ran
    exact .inr (watched.plain left rfl rfl rfl rfl (by simp) rfl rfl (by simp [Instr.phase]))

/-- A handler that starts has no announcement to make at once, and is in no phase. -/
theorem Watched.call (watched : Watched c) (idle : c.threads p = []) (queues : s.queues = c.shared.queues)
    (counter : s.nReadyNextItems = c.shared.nReadyNextItems) (ops : s.itemOps = c.shared.itemOps)
    (emitted : s.emitted = c.shared.emitted) (plain : ∀ j ∈ new, (∀ x, j ≠ .notifyResultCompletion x) ∧ j.phase = none) :
    Watched (c.put p s new) := by
  have kept : ∀ q, ∀ j ∈ c.threads q, j ∈ (c.put p s new).threads q := by
    intro q j member
    have other : q ≠ p := by
      rintro rfl
      rw [idle] at member
      cases member
    rwa [put_threads_ne c other]
  have back : ∀ q, ∀ j ∈ (c.put p s new).threads q, j ∈ new ∨ j ∈ c.threads q := by
    intro q j member
    rw [put_threads] at member
    split at member
    · exact .inl member
    · exact .inr member
  have same : ∀ k, Announced (c.put p s new) k ↔ Announced c k := by
    intro k
    simp only [Announced,put_shared,queues]
    refine exists_congr fun x => and_congr_right fun _ => ?_
    constructor
    · exact fun absent q member => absent q (kept q _ member)
    · exact fun absent q member => (back q _ member).elim (fun here => (plain _ here).1 x rfl) (absent q)
  have busy : ∀ q, ∀ j ∈ (c.put p s new).threads q, ∀ phase, j.phase = some phase → j ∈ c.threads q := by
    intro q j member phase is
    refine (back q j member).resolve_left fun here => ?_
    rw [(plain j here).2] at is
    cases is
  refine ⟨?_,?_,?_,?_⟩
  · intro quiet
    obtain ⟨value,k,absent⟩ := watched.opened fun q j member => quiet q j (kept q j member)
    rw [put_shared,counter,announced_congr same]
    exact ⟨value,k,(same k).not.mpr absent⟩
  · exact fun q j member phase is full k => (same k).mpr (watched.full q j (busy q j member phase is) phase is full k)
  · intro q j member is
    rw [put_shared,counter]
    exact watched.chained q j (busy q j member _ is) is
  · intro x there
    rw [put_shared,ops] at there
    rw [put_shared,emitted]
    refine (watched.handed x there).imp_right ?_
    rintro ⟨q,j,member,is⟩
    exact ⟨q,j,kept q j member,is⟩

theorem call_watched {e : Event n Value Error} (watched : Watched c) (idle : c.threads p = [])
    (raised : Raised c.shared e s new) : Stopping (c.put p s new) ∨ Watched (c.put p s new) := by
  have stops : .requestStop ∈ new → Stopping (c.put p s new) := fun pending => .inr ⟨p,by rwa [put_threads_self]⟩
  cases raised with
  | itemError => exact .inl (stops (by simp [itemSetError,notifyError,notifyStop]))
  | itemStopped => exact .inl (stops (by simp [itemSetStopped,notifyStop]))
  | zippedStopped => exact .inl (stops (by simp [zippedSetStopped,notifyStop]))
  | outerStop =>
    by_cases there : c.shared.stopCallback = true
    · exact .inl (stops (by simp [there]))
    · refine .inr (watched.call idle rfl rfl rfl rfl ?_)
      simp [there]
  | start => exact .inr (watched.call idle rfl rfl rfl rfl (by simp [Instr.phase]))
  | _ =>
    exact .inr (watched.call idle rfl rfl rfl rfl
      (by simp [itemSetValue,zippedSetValue,childComplete,Instr.phase]))

theorem initial_watched (positive : 0 < n) : Watched (initial n Value Error) := by
  have nothing : ∀ k, ¬ Announced (initial n Value Error) k := by simp [Announced,initial]
  refine ⟨fun _ => ⟨?_,⟨0,positive⟩,nothing _⟩,by simp [initial],by simp [initial],by simp [initial]⟩
  rw [show announced (initial n Value Error) = ∅ from Finset.eq_empty_of_forall_notMem fun k =>
    announced_iff.not.mpr (nothing k)]
  rfl

theorem watched (positive : 0 < n) (run : Run (machine n Value exception) Careful (initial n Value Error) steps c) :
    Stopping c ∨ Watched c := by
  suffices both : Tracked steps c ∧ (Stopping c ∨ Watched c) from both.2
  refine run.invariant (I := fun steps c => Tracked steps c ∧ (Stopping c ∨ Watched c))
    ⟨initial_tracked,.inr (initial_watched positive)⟩ ?_ ?_
  · rintro steps c p i rest s new _ ⟨tracked,holds⟩ careful left ran
    have ran := ran_of_mem ran
    refine ⟨run_tracked tracked careful left ran,?_⟩
    rcases holds with stopping | watched
    · exact .inl (stopping_run stopping left ran)
    · cases going : c.shared.stopRequested with
      | true => exact .inl (stopping_run (.inl going) left ran)
      | false => exact run_watched tracked watched going careful left ran
  · rintro steps c e s prog _ ⟨tracked,holds⟩ _ idle accepted
    have raised := raised_of_accept accepted
    refine ⟨call_tracked tracked idle raised,?_⟩
    rcases holds with stopping | watched
    · exact .inl (stopping_call stopping idle raised)
    · exact call_watched watched idle raised

/-! ### No tuple is left behind -/

/-- Under the condition of `zip_tuples_aligned`: when no thread is inside a handler and no stop was
    requested, the first `m` items of every child have been handed on as `m` tuples, the counter is
    the number of queues that hold an item, and some child has pushed no more than `m`, so that
    what waits is no complete tuple. -/
theorem zip_leaves_no_tuple (positive : 0 < n)
    (run : Run (machine n Value exception) Careful (initial n Value Error) steps c) (idle : ∀ p, c.threads p = [])
    (going : c.shared.stopRequested = false) :
    c.shared.nReadyNextItems = (nonEmpty c.shared).card ∧
    ∃ m, (∀ k < m, ∃ e ∈ c.shared.emitted, ∀ i, (pushedOf c.shared i)[k]? = some (e.itemOps i)) ∧
      (∀ i, c.shared.queues i = (pushedOf c.shared i).drop m ∧ m ≤ (pushedOf c.shared i).length) ∧
      ∃ i, (pushedOf c.shared i).length = m := by
  obtain ⟨tracked,order,tuples⟩ := tuples run
  obtain ⟨threw,parties,items⟩ := tracked.items
  have never : ¬ Notified steps := fun notified => by
    rw [(tracked.drained notified).stopped] at going
    cases going
  have watched : Watched c := by
    refine (watched positive run).resolve_left ?_
    rintro (stopped | ⟨p,pending⟩)
    · rw [going] at stopped
      cases stopped
    · rw [idle p] at pending
      cases pending
  obtain ⟨value,k,absent⟩ := watched.opened fun p i member => by
    rw [idle p] at member
    cases member
  have counted : ∀ k, Announced c k ↔ c.shared.queues k ≠ [] := by
    intro k
    constructor
    · rintro ⟨x,head,_⟩ empty
      rw [empty] at head
      cases head
    · intro some
      obtain ⟨x,queue,is⟩ := List.exists_cons_of_ne_nil some
      exact ⟨x,by rw [is]; rfl,fun p => by rw [idle p]; exact List.not_mem_nil⟩
  have waiting := tuples.waiting never
  refine ⟨?_,order.length,?_,?_,k,?_⟩
  · rw [value]
    congr 2
    ext k
    rw [announced_iff,counted]
    simp [nonEmpty]
  · intro k short
    have popped := (tuples.aligned.popped order[k]).mp (List.getElem_mem short)
    have handed : order[k] ∈ c.shared.emitted.map (·.trigger) := by
      refine (watched.handed _ popped).resolve_right ?_
      rintro ⟨p,j,there,_⟩
      rw [idle p] at there
      cases there
    obtain ⟨e,member,trigger⟩ := List.mem_map.mp handed
    refine ⟨e,member,fun i => ?_⟩
    have ops := items.recorded.emitted e member
    rw [waiting i,List.getElem?_append_left (by simpa using short),List.getElem?_map,List.getElem?_eq_getElem short,
      Option.map_some,← trigger,partner_of_ops ops]
  · intro i
    rw [waiting i]
    exact ⟨(List.drop_left' (by simp)).symm,by simp⟩
  · rw [waiting k,show c.shared.queues k = [] from not_not.mp ((counted k).not.mp absent)]
    simp

-- named, so that the literals of `Fin 2` share one proof
local instance neZeroTwo : NeZero 2 := ⟨two_ne_zero⟩

theorem idle_of_four {c : Config (Party 2) (OperationBase 2 Nat Nat) (Instr 2 Nat Nat)}
    (others : ∀ q ∉ four, c.threads q = []) (idle : (four.all fun q => (c.threads q).isEmpty) = true) (q : Party 2) :
    c.threads q = [] := by
  by_cases listed : q ∈ four
  · exact List.isEmpty_iff.mp (List.all_eq_true.mp idle q listed)
  · exact others q listed

/-- A tuple is handed on, and one more item of the first child waits. -/
theorem zip_leaves_no_tuple_waiting : ∃ steps c, Run (machine 2 Nat none) Careful (initial 2 Nat Nat) steps c ∧
    c.shared.queues 0 = [⟨0,1⟩] ∧
    ∃ m, (∀ k < m, ∃ e ∈ c.shared.emitted, ∀ i, (pushedOf c.shared i)[k]? = some (e.itemOps i)) ∧
      (∀ i, c.shared.queues i = (pushedOf c.shared i).drop m ∧ m ≤ (pushedOf c.shared i).length) ∧
      ∃ i, (pushedOf c.shared i).length = m := by
  obtain ⟨steps,c,run,others,found⟩ := exists_run_among (machine 2 Nat (none : Option Nat)) Careful (initial 2 Nat Nat)
    four (surelyCareful four) (careful_of_surely four)
    (List.flatten [beginFour,[(.call (.itemValue ⟨0,0⟩ 3),0)],List.replicate 4 (.run (.item ⟨0,0⟩),0),
      [(.call (.itemValue ⟨1,0⟩ 4),0)],List.replicate 10 (.run (.item ⟨1,0⟩),0),
      [(.call (.itemValue ⟨0,1⟩ 5),0)],List.replicate 4 (.run (.item ⟨0,1⟩),0)])
    (fun _ => rfl) (by decide)
    (fun _ c => (four.all fun q => (c.threads q).isEmpty) && !c.shared.stopRequested &&
      decide (c.shared.queues 0 = [⟨0,1⟩])) (by decide)
  simp only [Bool.and_eq_true,Bool.not_eq_true',decide_eq_true_eq] at found
  obtain ⟨⟨idle,going⟩,queue⟩ := found
  exact ⟨steps,c,run,queue,(zip_leaves_no_tuple (by decide) run (idle_of_four others idle) going).2⟩

end SendersIo.ZipProgress
