import SendersIo.ZipItems

/-!
Which items a tuple consists of when any number of threads run the handlers. The fronts of all
queues are removed in one critical section, so what has been removed of every child is as
long as that of every other one: the items of a tuple have the same place among those that
their children have pushed. Their values are read in an earlier critical section, but the
fronts stay what they are until the same thread removes them.
-/
namespace SendersIo.ZipTuples
open SendersIo.Interleaving SendersIo.Zip SendersIo.ZipItems

variable {n : Nat} {Value Error : Type}

/-! ### The invariant -/

section
variable (s : OperationBase n Value Error)

/-- The items that a child has pushed, in this order. -/
def pushedOf (i : Fin n) : List (Item n) := s.pushed.filter fun x => x.index = i

/-- The item of a child in the tuple that was popped by `x`. -/
def partner (i : Fin n) (x : Item n) : Item n :=
  match s.itemOps x with
  | some ops => ops i
  | none => x

/-- The tuples as they were popped, each by the item that popped it, and what has been stored. -/
structure Aligned (order : List (Item n)) : Prop where
  popped : ∀ x, x ∈ order ↔ s.itemOps x ≠ none
  distinct : s.pushed.Nodup
  begins : ∀ i, order.map (partner s i) <+: pushedOf s i
  stored : ∀ y v, s.result y = some v → (y,v) ∈ s.arrived y.index
  emitted : ∀ e ∈ s.emitted, ∀ i, s.result (e.itemOps i) = some (e.values i)

/-- The values that a party carries are those of the items that it is about to pop, or has popped. -/
def Holds : Instr n Value Error → Prop
  | .popFronts _ result => frontResults s = some result
  | .checkStop x result | .recount x result | .startZipped x result _ =>
    ∀ i, s.result (partner s i x) = some (result i)
  | _ => True

end

/-- What has been pushed has been popped, or waits as long as the queues are not drained. -/
structure Tuples (order : List (Item n)) (steps : List (Step n Value Error))
    (c : Config (Party n) (OperationBase n Value Error) (Instr n Value Error)) : Prop where
  aligned : Aligned c.shared order
  waiting : ¬ Notified steps → ∀ i, pushedOf c.shared i = order.map (partner c.shared i) ++ c.shared.queues i
  holds : ∀ p, ∀ j ∈ c.threads p, Holds c.shared j

variable {s s' : OperationBase n Value Error} {c : Config (Party n) (OperationBase n Value Error) (Instr n Value Error)}
  {p q : Party n} {i j : Instr n Value Error} {new rest : List (Instr n Value Error)} {x y : Item n}
  {order : List (Item n)} {exception : Option Error} {steps : List (Step n Value Error)} {k : Fin n}

theorem partner_of_ops {ops : Fin n → Item n} (popped : s.itemOps x = some ops) (k : Fin n) : partner s k x = ops k := by
  rw [partner,popped]

theorem partner_congr (ops : s'.itemOps x = s.itemOps x) (k : Fin n) : partner s' k x = partner s k x := by
  rw [partner,partner,ops]

/-- All of the values are there if and only if they are the given ones. -/
theorem allSome_iff {α : Type} {f : Fin n → Option α} {g : Fin n → α} : allSome f = some g ↔ ∀ i, f i = some (g i) := by
  constructor
  · exact fun all i => mem_of_allSome all i
  · intro each
    have present : ∀ i, (f i).isSome := fun i => by rw [each i]; rfl
    rw [allSome,dif_pos present]
    congr
    funext i
    simp [each i]

theorem pushedOf_push (pushed : s'.pushed = s.pushed ++ [x]) (k : Fin n) :
    pushedOf s' k = pushedOf s k ++ if k = x.index then [x] else [] := by
  rw [pushedOf,pushed,List.filter_append,← pushedOf]
  congr 1
  by_cases same : x.index = k
  · simp [same]
  · simp [same,Ne.symm same]

/-! ### Steps that leave the items where they are -/

/-- A step keeps the stored values, and the order in which the tuples were popped. -/
theorem Aligned.congr (aligned : Aligned s order) (same : Same s s') : Aligned s' order := by
  have partners : ∀ k, partner s' k = partner s k := fun k => funext fun x => partner_congr (congrFun same.ops x) k
  have pushed : ∀ k, pushedOf s' k = pushedOf s k := fun k => by rw [pushedOf,same.pushed,pushedOf]
  refine ⟨?_,?_,?_,?_,?_⟩
  · simpa only [same.ops] using aligned.popped
  · simpa only [same.pushed] using aligned.distinct
  · simpa only [partners,pushed] using aligned.begins
  · simpa only [same.result,same.arrived] using aligned.stored
  · simpa only [same.result,same.emitted] using aligned.emitted

theorem holds_congr (same : Same s s') (holds : Holds s j) : Holds s' j := by
  have partners : ∀ k, partner s' k = partner s k := fun k => funext fun x => partner_congr (congrFun same.ops x) k
  cases j <;> first
    | exact trivial
    | simpa only [Holds,frontResults,same.queues,same.result,partners] using holds

theorem Tuples.same (tuples : Tuples order steps c) (left : c.threads p = i :: rest) (same : Same c.shared s)
    (fresh : ∀ j ∈ new, Holds c.shared j) : Tuples order (steps ++ [(c,.run p)]) (c.put p s (new ++ rest)) := by
  refine ⟨tuples.aligned.congr same,?_,?_⟩
  · intro never k
    rw [notified_run left,not_or] at never
    have before := tuples.waiting never.1 k
    have partners : partner s k = partner c.shared k := funext fun x => partner_congr (congrFun same.ops x) k
    rwa [put_shared,pushedOf,same.pushed,← pushedOf,partners,same.queues]
  · intro q j member
    rcases mem_of_mem_put left member with here | there
    · exact holds_congr same (fresh j here)
    · exact holds_congr same (tuples.holds q j there)

/-! ### Steps that move an item -/

/-- A value is stored once, so that those that were read stay. -/
theorem emplaceResult_tuples {v : Value} (tuples : Tuples order steps c)
    (left : c.threads p = .emplaceResult x v :: rest) (none : c.shared.result x = none) (came : (x,v) ∈ c.shared.arrived x.index) :
    Tuples order (steps ++ [(c,.run p)])
      (c.put p { c.shared with result := Function.update c.shared.result x (some v) } ([.testStop x] ++ rest)) := by
  have kept : ∀ y w, c.shared.result y = some w → Function.update c.shared.result x (some v) y = some w := by
    intro y w is
    rw [Function.update_of_ne,is]
    rintro rfl
    rw [none] at is
    cases is
  refine ⟨⟨tuples.aligned.popped,tuples.aligned.distinct,tuples.aligned.begins,?_,?_⟩,?_,?_⟩
  · intro y w is
    by_cases same : y = x
    · subst same
      simp only [Function.update_self,Option.some.injEq,put_shared] at is
      exact is ▸ came
    · exact tuples.aligned.stored y w ((Function.update_of_ne same _ _).symm.trans is)
  · exact fun e member k => kept _ _ (tuples.aligned.emitted e member k)
  · intro never
    rw [notified_run left,not_or] at never
    exact tuples.waiting never.1
  · intro q j member
    rcases mem_of_mem_put left member with here | there
    · rw [List.mem_singleton.mp here]
      trivial
    · have before := tuples.holds q j there
      cases j with
      | popFronts y result =>
        refine allSome_iff.mpr fun k => ?_
        have found := allSome_iff.mp before k
        obtain ⟨z,front,is⟩ := Option.bind_eq_some_iff.mp found
        exact Option.bind_eq_some_iff.mpr ⟨z,front,kept z _ is⟩
      | checkStop y result => exact fun k => kept _ _ (before k)
      | recount y result => exact fun k => kept _ _ (before k)
      | startZipped y result next => exact fun k => kept _ _ (before k)
      | _ => trivial

/-- An item is pushed behind those that wait. -/
theorem pushBack_tuples (tuples : Tuples order steps c) (left : c.threads p = .pushBack x :: rest)
    (opened : ¬ Notified steps) (fresh : x ∉ c.shared.pushed) :
    Tuples order (steps ++ [(c,.run p)])
      (c.put p { c.shared with
        queues := Function.update c.shared.queues x.index (c.shared.queues x.index ++ [x])
        pushed := c.shared.pushed ++ [x] } ([.notifyResultCompletion x] ++ rest)) := by
  have all : ∀ k, pushedOf { c.shared with
        queues := Function.update c.shared.queues x.index (c.shared.queues x.index ++ [x])
        pushed := c.shared.pushed ++ [x] } k =
      order.map (partner c.shared k) ++
        Function.update c.shared.queues x.index (c.shared.queues x.index ++ [x]) k := by
    intro k
    rw [pushedOf_push (s := c.shared) rfl,tuples.waiting opened k,List.append_assoc]
    by_cases same : k = x.index
    · subst same
      simp
    · simp [same]
  refine ⟨⟨tuples.aligned.popped,?_,?_,tuples.aligned.stored,tuples.aligned.emitted⟩,fun _ k => all k,?_⟩
  · rw [put_shared,List.nodup_append]
    refine ⟨tuples.aligned.distinct,List.nodup_singleton x,?_⟩
    simpa using fun y member (same : y = x) => fresh (same ▸ member)
  · intro k
    rw [put_shared,all k]
    exact List.prefix_append _ _
  · intro q j member
    rcases mem_of_mem_put left member with here | there
    · rw [List.mem_singleton.mp here]
      trivial
    · have before := tuples.holds q j there
      cases j with
      | popFronts y result =>
        -- the queues have fronts, which stay where they are
        refine allSome_iff.mpr fun k => ?_
        have found := allSome_iff.mp before k
        obtain ⟨z,front,is⟩ := Option.bind_eq_some_iff.mp found
        refine Option.bind_eq_some_iff.mpr ⟨z,?_,is⟩
        by_cases same : k = x.index
        · subst same
          simp [front]
        · simpa [same] using front
      | checkStop y result => exact before
      | recount y result => exact before
      | startZipped y result next => exact before
      | _ => trivial

theorem queue_of_front {ops : Fin n → Item n} (popped : fronts s = some ops) (k : Fin n) :
    s.queues k = ops k :: (s.queues k).tail := by
  have front := allSome_iff.mp popped k
  obtain ⟨z,rest,is⟩ : ∃ z rest, s.queues k = z :: rest := by
    cases queue : s.queues k with
    | nil => simp [queue] at front
    | cons z rest => exact ⟨z,rest,rfl⟩
  rw [is] at front ⊢
  rw [Option.some.inj front,List.tail_cons]

/-- The fronts are popped together, with the values that were read. -/
theorem popFronts_tuples {result : Fin n → Value} {ops : Fin n → Item n} {threw : List (Item n)}
    (tuples : Tuples order steps c) (fits : ∀ q, ∀ j ∈ c.threads q, Fits c.shared threw q j) (left : c.threads p = .popFronts x result :: rest) (opened : ¬ Notified steps) (popped : fronts c.shared = some ops)
    (unpopped : c.shared.itemOps x = none) (alone : ∀ q j, Stays c p rest q j → j.collecting = none) :
    Tuples (order ++ [x]) (steps ++ [(c,.run p)])
      (c.put p { c.shared with
        queues := fun i => (c.shared.queues i).tail
        itemOps := Function.update c.shared.itemOps x (some ops)
        nReadyNextItems := -1 } ([.checkStop x result] ++ rest)) := by
  have absent : x ∉ order := fun member => (tuples.aligned.popped x).mp member unpopped
  have others : ∀ k y, y ≠ x → partner { c.shared with
        queues := fun i => (c.shared.queues i).tail
        itemOps := Function.update c.shared.itemOps x (some ops)
        nReadyNextItems := -1 } k y = partner c.shared k y := fun k y other =>
    partner_congr (Function.update_of_ne other _ _) k
  have own : ∀ k, partner { c.shared with
        queues := fun i => (c.shared.queues i).tail
        itemOps := Function.update c.shared.itemOps x (some ops)
        nReadyNextItems := -1 } k x = ops k := fun k => partner_of_ops (Function.update_self _ _ _) k
  have all : ∀ k, pushedOf c.shared k = (order ++ [x]).map (partner { c.shared with
        queues := fun i => (c.shared.queues i).tail
        itemOps := Function.update c.shared.itemOps x (some ops)
        nReadyNextItems := -1 } k) ++ (c.shared.queues k).tail := by
    intro k
    rw [tuples.waiting opened k,List.map_append,List.map_singleton,own,List.append_assoc,
      List.map_congr_left fun y member => others k y fun same => absent (same ▸ member)]
    congr 1
    exact queue_of_front popped k
  have read := allSome_iff.mp (tuples.holds p (.popFronts x result) (left ▸ List.mem_cons_self))
  refine ⟨⟨?_,tuples.aligned.distinct,fun k => ?_,tuples.aligned.stored,tuples.aligned.emitted⟩,fun _ k => all k,?_⟩
  · intro y
    rw [List.mem_append,List.mem_singleton,tuples.aligned.popped,put_shared]
    by_cases same : y = x
    · subst same
      simp
    · simp [same]
  · rw [put_shared]
    exact ⟨_,(all k).symm⟩
  · intro q j member
    rcases stays_or_new member with stays | ⟨_,here⟩
    · have before := tuples.holds q j (stays.mem left)
      have other := alone q j stays
      have kept : ∀ y (out : Fin n → Value), c.shared.itemOps y ≠ none →
          (∀ k, c.shared.result (partner c.shared k y) = some (out k)) →
          ∀ k, c.shared.result (partner { c.shared with
            queues := fun i => (c.shared.queues i).tail
            itemOps := Function.update c.shared.itemOps x (some ops)
            nReadyNextItems := -1 } k y) = some (out k) := by
        intro y out ops holds k
        rw [others k y fun same => ops (same ▸ unpopped)]
        exact holds k
      have fit := fits q j (stays.mem left)
      cases j with
      | popFronts y result => cases other
      | checkStop y out => exact kept y out fit.1 before
      | recount y out => exact kept y out fit.1 before
      | startZipped y out next => exact kept y out fit.1 before
      | _ => trivial
    · rw [List.mem_singleton.mp here]
      intro k
      rw [put_shared,own k]
      have front := allSome_iff.mp popped k
      have value := read k
      rw [front] at value
      exact value

/-- A tuple is handed on with the values that were read for it. -/
theorem startZipped_tuples {result : Fin n → Value} {next : Bool} {ops : Fin n → Item n} (tuples : Tuples order steps c)
    (left : c.threads p = .startZipped x result next :: rest) (held : c.shared.itemOps x = some ops)
    (plain : ∀ j ∈ new, j = .callout ∨ j = .startNext x) :
    Tuples order (steps ++ [(c,.run p)])
      (c.put p { c.shared with emitted := c.shared.emitted ++ [⟨x,ops,result⟩] } (new ++ rest)) := by
  have values := tuples.holds p (.startZipped x result next) (left ▸ List.mem_cons_self)
  refine ⟨⟨tuples.aligned.popped,tuples.aligned.distinct,tuples.aligned.begins,tuples.aligned.stored,?_⟩,?_,?_⟩
  · intro e member k
    rcases List.mem_append.mp member with before | last
    · exact tuples.aligned.emitted e before k
    · rw [List.mem_singleton.mp last]
      have value := values k
      rw [partner_of_ops held] at value
      exact value
  · intro never
    rw [notified_run left,not_or] at never
    exact tuples.waiting never.1
  · intro q j member
    rcases mem_of_mem_put left member with here | there
    · rcases plain j here with rfl | rfl <;> trivial
    · have before := tuples.holds q j there
      cases j <;> first
        | exact trivial
        | exact before

/-- The queues are drained while nobody is about to pop. -/
theorem clearQueues_tuples (tuples : Tuples order steps c) (careful : Careful c (.run p))
    (left : c.threads p = .clearQueues :: rest) :
    Tuples order (steps ++ [(c,.run p)])
      (c.put p { c.shared with queues := fun _ => [], nReadyNextItems := 0 } (completeQueues c.shared ++ rest)) := by
  simp only [Careful,left] at careful
  refine ⟨⟨tuples.aligned.popped,tuples.aligned.distinct,tuples.aligned.begins,tuples.aligned.stored,
    tuples.aligned.emitted⟩,?_,?_⟩
  · intro never
    exact absurd ((notified_run left).mpr (.inr rfl)) never
  · intro q j member
    rcases mem_of_mem_put left member with here | there
    · obtain ⟨_,_,_,rfl⟩ := mem_completeQueues.mp here
      trivial
    · have before := tuples.holds q j there
      have closed := careful q j there
      cases j <;> first
        | exact trivial
        | exact before
        | cases closed

theorem run_tuples (tracked : Tracked steps c) (tuples : Tuples order steps c) (careful : Careful c (.run p))
    (left : c.threads p = i :: rest) (ran : Ran exception c.shared i s new) :
    ∃ order, Tuples order (steps ++ [(c,.run p)]) (c.put p s (new ++ rest)) := by
  obtain ⟨threw,parties,items⟩ := tracked.items
  have here := items.fits p i (left ▸ List.mem_cons_self)
  have holds := tuples.holds p i (left ▸ List.mem_cons_self)
  have opened : i.exposed = true → ¬ Notified steps := fun exposed notified => by
    rw [(tracked.drained notified).closed p i (left ▸ List.mem_cons_self)] at exposed
    cases exposed
  cases ran with
  | emplaceResult x v => exact ⟨order,emplaceResult_tuples tuples left here.2.2.2.1 here.2.2.1⟩
  | pushBack x => exact ⟨order,pushBack_tuples tuples left (opened rfl) here.2.1⟩
  | popFronts x result ops popped =>
    have unpopped := (items.recorded.queued x.index x (List.mem_of_mem_head? here)).2.2
    exact ⟨order ++ [x],popFronts_tuples tuples items.fits left (opened rfl) popped unpopped
      (collecting_alone tracked.phase left)⟩
  | startZipped x result next ops held =>
    refine ⟨order,startZipped_tuples tuples left held fun j member => ?_⟩
    rcases List.mem_cons.mp member with rfl | later
    · exact .inl rfl
    · split at later
      · exact .inr (List.mem_singleton.mp later)
      · cases later
  | clearQueues => exact ⟨order,clearQueues_tuples tuples careful left⟩
  | collectResults x result found =>
    refine ⟨order,tuples.same left ⟨rfl,rfl,rfl,rfl,rfl,rfl,rfl,rfl⟩ fun j member => ?_⟩
    rw [List.mem_singleton.mp member]
    exact found
  | checkStop x result =>
    refine ⟨order,tuples.same left ⟨rfl,rfl,rfl,rfl,rfl,rfl,rfl,rfl⟩ fun j member => ?_⟩
    split at member
    · rw [List.mem_singleton.mp member]
      trivial
    · rw [List.mem_singleton.mp member]
      exact holds
  | recountAll x result _ =>
    refine ⟨order,tuples.same left ⟨rfl,rfl,rfl,rfl,rfl,rfl,rfl,rfl⟩ fun j member => ?_⟩
    rw [List.mem_singleton.mp member]
    exact holds
  | recount x result _ =>
    refine ⟨order,tuples.same left ⟨rfl,rfl,rfl,rfl,rfl,rfl,rfl,rfl⟩ fun j member => ?_⟩
    rw [List.mem_singleton.mp member]
    exact holds
  | completeAllItemOps x ops held =>
    refine ⟨order,tuples.same left ⟨rfl,rfl,rfl,rfl,rfl,rfl,rfl,rfl⟩ fun j member => ?_⟩
    obtain ⟨_,rfl⟩ := mem_completeAll.mp member
    trivial
  | fetchSub k signal =>
    refine ⟨order,tuples.same left ⟨rfl,rfl,rfl,rfl,rfl,rfl,rfl,rfl⟩ ?_⟩
    split
    · cases signal <;> simp [notLast,notifyError,notifyStop,Holds]
    · simp [Holds]
  | _ =>
    refine ⟨order,tuples.same left ⟨rfl,rfl,rfl,rfl,rfl,rfl,rfl,rfl⟩ ?_⟩
    first
      | simp [Holds,notifyError,notifyStop]; done
      | split <;> simp [Holds]

/-- What the events leave as it is. -/
theorem raised_tuples {e : Event n Value Error} (raised : Raised s e s' new) :
    s'.queues = s.queues ∧ s'.pushed = s.pushed ∧ s'.result = s.result ∧ s'.itemOps = s.itemOps ∧ s'.emitted = s.emitted ∧
    (∀ k, ∀ a ∈ s.arrived k, a ∈ s'.arrived k) ∧ ∀ j ∈ new, Holds s' j := by
  cases raised with
  | itemValue x v =>
    refine ⟨rfl,rfl,rfl,rfl,rfl,fun k a member => ?_,by simp [itemSetValue,Holds]⟩
    by_cases same : k = x.index
    · subst same
      simp [member]
    · simpa [same] using member
  | childCompletes => exact ⟨rfl,rfl,rfl,rfl,rfl,fun _ _ => id,by simp [childComplete,Holds]⟩
  | outerStop => exact ⟨rfl,rfl,rfl,rfl,rfl,fun _ _ => id,by split <;> simp [Holds]⟩
  | start => exact ⟨rfl,rfl,rfl,rfl,rfl,fun _ _ => id,by simp [Holds]⟩
  | _ => exact ⟨rfl,rfl,rfl,rfl,rfl,fun _ _ => id,by
      simp [itemSetError,itemSetStopped,zippedSetValue,zippedSetStopped,notifyError,notifyStop,Holds]⟩

theorem call_tuples {e : Event n Value Error} (tuples : Tuples order steps c) (raised : Raised c.shared e s new) :
    Tuples order (steps ++ [(c,.call e)]) (c.put p s new) := by
  obtain ⟨queues,pushed,result,ops,emitted,arrived,fresh⟩ := raised_tuples raised
  have partners : ∀ k, partner s k = partner c.shared k := fun k => funext fun x => partner_congr (congrFun ops x) k
  have pushes : ∀ k, pushedOf s k = pushedOf c.shared k := fun k => by rw [pushedOf,pushed,pushedOf]
  refine ⟨⟨?_,?_,?_,?_,?_⟩,?_,?_⟩
  · simpa only [put_shared,ops] using tuples.aligned.popped
  · simpa only [put_shared,pushed] using tuples.aligned.distinct
  · simpa only [put_shared,partners,pushes] using tuples.aligned.begins
  · intro y v is
    rw [put_shared,result] at is
    exact arrived _ _ (tuples.aligned.stored y v is)
  · simpa only [put_shared,result,emitted] using tuples.aligned.emitted
  · intro never k
    rw [put_shared,pushes,partners,queues]
    exact tuples.waiting (fun notified => never (notified_call.mpr notified)) k
  · intro q j member
    rw [put_threads] at member
    split at member
    · exact fresh j member
    · have before := tuples.holds q j member
      cases j <;> first
        | exact trivial
        | simpa only [Holds,frontResults,put_shared,queues,result,partners] using before

theorem initial_tuples : Tuples [] [] (initial n Value Error) := by
  refine ⟨⟨?_,?_,?_,?_,?_⟩,?_,?_⟩ <;> simp [initial,pushedOf]

theorem tuples (run : Run (machine n Value exception) Careful (initial n Value Error) steps c) :
    Tracked steps c ∧ ∃ order, Tuples order steps c := by
  refine run.invariant (I := fun steps c => Tracked steps c ∧ ∃ order, Tuples order steps c)
    ⟨initial_tracked,[],initial_tuples⟩ ?_ ?_
  · rintro steps c p i rest s new _ ⟨tracked,order,tuples⟩ careful left ran
    exact ⟨run_tracked tracked careful left (ran_of_mem ran),run_tuples tracked tuples careful left (ran_of_mem ran)⟩
  · rintro steps c e s prog _ ⟨tracked,order,tuples⟩ _ idle accepted
    exact ⟨call_tracked tracked idle (raised_of_accept accepted),order,call_tuples tuples (raised_of_accept accepted)⟩

/-! ### The tuples -/

/-- Any number of threads complete the items of any number of children, in any order. If no drain
    meets a thread between a test and what relies on it, and no queue is counted before its
    front item is announced, every tuple consists of items that have the same place among those
    that their children have pushed, each with the value with which it completed; two tuples
    share no item; and before a drain the queues hold exactly what has been pushed since. -/
theorem zip_tuples_aligned (run : Run (machine n Value exception) Careful (initial n Value Error) steps c) :
    (∀ e ∈ c.shared.emitted, ∀ i, (e.itemOps i,e.values i) ∈ c.shared.arrived (e.itemOps i).index) ∧
    (∀ i, (c.shared.emitted.map (·.itemOps i)).Nodup) ∧
    ∃ m, (∀ e ∈ c.shared.emitted, ∃ k < m, ∀ i, (pushedOf c.shared i)[k]? = some (e.itemOps i)) ∧
      (¬ Notified steps → ∀ i, c.shared.queues i = (pushedOf c.shared i).drop m) := by
  obtain ⟨tracked,order,tuples⟩ := tuples run
  obtain ⟨threw,parties,items⟩ := tracked.items
  have place : ∀ e ∈ c.shared.emitted, ∃ k < order.length, order[k]? = some e.trigger ∧
      ∀ i, (pushedOf c.shared i)[k]? = some (e.itemOps i) := by
    intro e member
    have ops := items.recorded.emitted e member
    obtain ⟨k,short,is⟩ := List.mem_iff_getElem.mp ((tuples.aligned.popped e.trigger).mpr (by simp [ops]))
    refine ⟨k,short,List.getElem?_eq_some_iff.mpr ⟨short,is⟩,fun i => ?_⟩
    have mapped : (order.map (partner c.shared i))[k]? = some (e.itemOps i) := by
      rw [List.getElem?_map,List.getElem?_eq_getElem short,is,Option.map_some,partner_of_ops ops]
    obtain ⟨later,begins⟩ := tuples.aligned.begins i
    rw [← begins,List.getElem?_append_left (by simpa using short),mapped]
  refine ⟨fun e member i => tuples.aligned.stored _ _ (tuples.aligned.emitted e member i),fun i => ?_,order.length,?_,?_⟩
  · refine List.Nodup.map_on ?_ (List.Nodup.of_map _ items.recorded.triggers)
    intro e member e' member' same
    obtain ⟨k,_,trigger,at_k⟩ := place e member
    obtain ⟨k',_,trigger',at_k'⟩ := place e' member'
    have here := at_k i
    rw [same,← at_k' i] at here
    have once : (pushedOf c.shared i).Nodup := tuples.aligned.distinct.filter _
    obtain ⟨short,_⟩ := List.getElem?_eq_some_iff.mp (at_k' i)
    obtain rfl := (List.getElem?_inj short once).mp here.symm
    exact List.inj_on_of_nodup_map items.recorded.triggers member member' (Option.some.inj (trigger.symm.trans trigger'))
  · intro e member
    obtain ⟨k,short,_,found⟩ := place e member
    exact ⟨k,short,found⟩
  · intro never i
    rw [tuples.waiting never i]
    exact (List.drop_left' (by simp)).symm

-- named, so that the literals of `Fin 2` share one proof
local instance neZeroTwo : NeZero 2 := ⟨two_ne_zero⟩

/-- The threads of two items of each of two children, and of the operation itself. -/
def four : List (Party 2) := [.operation,.item ⟨0,0⟩,.item ⟨1,0⟩,.item ⟨0,1⟩,.item ⟨1,1⟩]

/-- Both children are started, and each hands out two items. -/
def beginFour : List (Label (Party 2) (Event 2 Nat Nat) × Nat) :=
  [(.call .start,0)] ++ List.replicate 5 (.run .operation,0) ++
    [(.call (.setNext ⟨0,0⟩),0),(.call (.setNext ⟨1,0⟩),0),(.call (.setNext ⟨0,1⟩),0),(.call (.setNext ⟨1,1⟩),0)]

/-- The thread of the first tuple is delayed after it has popped the fronts, and the second tuple is
    handed on before it: the tuples are aligned, but they come in another order. -/
theorem zip_tuples_aligned_overtaken : ∃ steps c,
    Run (machine 2 Nat none) Careful (initial 2 Nat Nat) steps c ∧
    (c.shared.emitted.map fun e => (e.values 0,e.values 1)) = [(5,6),(3,4)] ∧
    ∃ m, (∀ e ∈ c.shared.emitted, ∃ k < m, ∀ i, (pushedOf c.shared i)[k]? = some (e.itemOps i)) ∧
      (¬ Notified steps → ∀ i, c.shared.queues i = (pushedOf c.shared i).drop m) := by
  obtain ⟨steps,c,run,_,found⟩ := exists_run_among (machine 2 Nat (none : Option Nat)) Careful (initial 2 Nat Nat)
    four (surelyCareful four) (careful_of_surely four)
    (List.flatten [beginFour,[(.call (.itemValue ⟨0,0⟩ 3),0)],List.replicate 4 (.run (.item ⟨0,0⟩),0),
      [(.call (.itemValue ⟨1,0⟩ 4),0)],List.replicate 8 (.run (.item ⟨1,0⟩),0),
      [(.call (.itemValue ⟨0,1⟩ 5),0)],List.replicate 4 (.run (.item ⟨0,1⟩),0),
      [(.call (.itemValue ⟨1,1⟩ 6),0)],List.replicate 9 (.run (.item ⟨1,1⟩),0),[(.run (.item ⟨1,0⟩),0)]])
    (fun _ => rfl) (by decide)
    (fun _ c => (c.shared.emitted.map fun e => (e.values 0,e.values 1)) = [(5,6),(3,4)]) (by decide)
  exact ⟨steps,c,run,by simpa using found,(zip_tuples_aligned run).2.2⟩

end SendersIo.ZipTuples
