import SendersIo.Zip

/-!
What a single thread makes of the items. Whenever control is outside of the
handlers, the counter is the number of queues that hold an item and some queue
is empty, and the items that completed with a value are those of the emitted
tuples followed by those that wait in the queues. Every item that completed is
at one place: in the handler of its value, in a queue, in a tuple whose zipped
operation runs, about to be completed, or completed.
-/
namespace SendersIo.Zip
variable {n : Nat} {Value Error : Type}

/-- The item is with the party that executes the instruction. -/
def Instr.carries (s : OperationBase n Value Error) (y : Item n) : Instr n Value Error → Bool
  | .emplaceResult x _ | .testStop x | .pushBack x | .complete x | .setStopped x => x = y
  | .checkStop x _ | .recount x _ | .startZipped x _ _ | .completeAllItemOps x =>
    match s.itemOps x with
    | some ops => ops y.index = y
    | none => false
  | _ => false

end SendersIo.Zip

namespace SendersIo.ZipPairing
open SendersIo.Interleaving SendersIo.Signals SendersIo.Zip
set_option linter.unusedSimpArgs false

variable {n : Nat} {Value Error : Type}

/-! ### The items of a child -/

section
variable (s : OperationBase n Value Error) (i : Fin n)

/-- What the child contributed to the tuples. -/
def tuples : List (Item n × Value) :=
  s.emitted.map fun e => (e.itemOps i,e.values i)

/-- The items that wait in the queue of the child, with their results. -/
def waiting : List (Item n × Option Value) :=
  (s.queues i).map fun x => (x,s.result x)

end

/-- The item with the result that it is to have. -/
def stored (a : Item n × Value) : Item n × Option Value := (a.1,some a.2)

section
variable (s : OperationBase n Value Error)

/-- The items that arrived are in the tuples, in one more tuple, or they wait. -/
def Paired (popped : Fin n → List (Item n × Value)) : Prop :=
  ∀ i, (s.arrived i).map stored = (tuples s i ++ popped i).map stored ++ waiting s i

/-- The same while one item has arrived and is not in its queue. -/
def Arriving (x : Item n) (result : Option Value) : Prop :=
  ∀ i, (s.arrived i).map stored =
    (tuples s i).map stored ++ waiting s i ++ if i = x.index then [(x,result)] else []

/-- The counter is the number of queues that hold an item, which is not all. -/
structure Counting : Prop where
  counter : s.nReadyNextItems = (nonEmpty s).card
  few : (nonEmpty s).card < n

/-- The state while no item is in its handler. -/
structure Settled : Prop extends Counting s where
  paired : s.stopRequested = false → Paired s fun _ => []

/-- The state while an item is in its handler. -/
inductive Doing : Instr n Value Error → Prop
  | emplaceResult (x : Item n) (v : Value) : Counting s →
      (s.stopRequested = false → Arriving s x (some v)) → Doing (.emplaceResult x v)
  | testStop (x : Item n) : Counting s → (s.stopRequested = false → Arriving s x (s.result x)) → Doing (.testStop x)
  | pushBack (x : Item n) : Counting s → s.stopRequested = false → Arriving s x (s.result x) → Doing (.pushBack x)
  | announceFirst (x : Item n) : s.stopRequested = false → Paired s (fun _ => []) → s.queues x.index = [x] →
      s.nReadyNextItems + 1 = (nonEmpty s).card → Doing (.notifyResultCompletion x)
  | announceLater (x : Item n) (y : Item n) (rest : List (Item n)) : Counting s → s.stopRequested = false →
      Paired s (fun _ => []) → s.queues x.index = y :: rest → x ∈ rest → Doing (.notifyResultCompletion x)
  | collectResults (x : Item n) : s.stopRequested = false → Paired s (fun _ => []) → s.queues x.index = [x] →
      Doing (.collectResults x)
  | popFronts (x : Item n) (result : Fin n → Value) : s.stopRequested = false → Paired s (fun _ => []) →
      s.queues x.index = [x] → frontResults s = some result → Doing (.popFronts x result)
  | checkStop (x : Item n) (result : Fin n → Value) (ops : Fin n → Item n) : s.stopRequested = false →
      s.itemOps x = some ops → ops x.index = x → Paired s (fun i => [(ops i,result i)]) → s.queues x.index = [] →
      Doing (.checkStop x result)
  | recount (x : Item n) (result : Fin n → Value) (ops : Fin n → Item n) : s.stopRequested = false →
      s.itemOps x = some ops → ops x.index = x → Paired s (fun i => [(ops i,result i)]) → s.queues x.index = [] →
      Doing (.recount x result)
  | startZipped (x : Item n) (result : Fin n → Value) (ops : Fin n → Item n) : Counting s → s.stopRequested = false →
      s.itemOps x = some ops → ops x.index = x → Paired s (fun i => [(ops i,result i)]) →
      Doing (.startZipped x result false)

/-- What is known of the items and of the tuples at all times. -/
structure Known : Prop where
  arrived : ∀ i, ∀ a ∈ s.arrived i, a.1.index = i ∧ a.1 ∈ s.completedItems
  distinct : ∀ i, ((s.arrived i).map (·.1)).Nodup
  begins : ∀ i, tuples s i <+: s.arrived i
  queued : ∀ i, ∀ x ∈ s.queues i, x.index = i
  ops : ∀ x ops, s.itemOps x = some ops → ∀ i, (ops i).index = i
  held : ∀ e ∈ s.emitted, s.itemOps e.trigger = some e.itemOps ∧ e.itemOps e.trigger.index = e.trigger
  running : ∀ x ∈ s.completedZipped, x ∈ s.emitted.map (·.trigger)

end

/-- `notify_stop` requests the stop before it clears the queues. -/
def RequestsFirst : List (Instr n Value Error) → Prop
  | [] => True
  | .requestStop :: _ => True
  | .clearQueues :: _ => False
  | _ :: rest => RequestsFirst rest

/-! ### Where an item is -/

/-- The tuples that hold the item while their zipped operation runs. -/
def runningWith (s : OperationBase n Value Error) (y : Item n) : Nat :=
  s.emitted.countP fun e => e.trigger ∉ s.completedZipped ∧ e.itemOps y.index = y

/-- The places at which the item is in the shared state. -/
def kept (s : OperationBase n Value Error) (y : Item n) : Nat :=
  (s.itemCompletions.map (·.1)).count y + (s.queues y.index).count y + runningWith s y

/-- The places at which the item is. -/
def places (c : Config (Party n) (OperationBase n Value Error) (Instr n Value Error)) (stack : List (Party n))
    (y : Item n) : Nat :=
  kept c.shared y + (stack.map fun p => (c.threads p).countP (Instr.carries c.shared y)).sum

structure Invariant (c : Config (Party n) (OperationBase n Value Error) (Instr n Value Error))
    (stack : List (Party n)) : Prop where
  known : Known c.shared
  off : ∀ p, p ∉ stack → c.threads p = []
  distinct : stack.Nodup
  below : ∀ p ∈ stack.tail, c.threads p ≠ [] ∧ ∀ i ∈ c.threads p, i.ofItem = false
  top : (Settled c.shared ∧ ∀ p ∈ stack.head?, ∀ i ∈ c.threads p, i.ofItem = false) ∨
    ∃ p, stack.head? = some p ∧ ∃ i, c.threads p = [i] ∧ Doing c.shared i
  requests : ∀ p, c.shared.stopRequested = true ∨ RequestsFirst (c.threads p)
  completing : ∀ p x, .completeAllItemOps x ∈ c.threads p → x ∈ c.shared.emitted.map (·.trigger)
  placed : ∀ y, places c stack y = if y ∈ c.shared.completedItems then 1 else 0
  finished : ∀ e ∈ c.shared.emitted, e.trigger ∈ c.shared.completedZipped → ∀ i,
    e.itemOps i ∈ c.shared.itemCompletions.map (·.1) ∨ .complete (e.itemOps i) ∈ c.threads (.zipped e.trigger) ∨
    .completeAllItemOps e.trigger ∈ c.threads (.zipped e.trigger)

variable {s s' : OperationBase n Value Error} {c : Config (Party n) (OperationBase n Value Error) (Instr n Value Error)}
  {p : Party n} {stack below : List (Party n)} {i : Instr n Value Error} {new rest : List (Instr n Value Error)}
  {x y : Item n} {result : Option Value} {popped : Fin n → List (Item n × Value)}

/-! ### Items in order -/

theorem Paired.items (paired : Paired s popped) (i : Fin n) :
    (s.arrived i).map (·.1) = s.emitted.map (·.itemOps i) ++ (popped i).map (·.1) ++ s.queues i := by
  have := congrArg (List.map (·.1)) (paired i)
  simpa [tuples,waiting,stored,Function.comp_def] using this

theorem Arriving.items (arriving : Arriving s x result) (i : Fin n) :
    (s.arrived i).map (·.1) = s.emitted.map (·.itemOps i) ++ s.queues i ++ if i = x.index then [x] else [] := by
  have := congrArg (List.map (·.1)) (arriving i)
  by_cases same : i = x.index <;> simpa [tuples,waiting,stored,Function.comp_def,same] using this

/-- An item that has arrived and is not in its queue is in no tuple either. -/
theorem Arriving.fresh (arriving : Arriving s x result) (known : Known s) :
    (∀ i, x ∉ s.queues i) ∧ x ∉ s.emitted.map (·.itemOps x.index) := by
  have distinct := known.distinct x.index
  rw [arriving.items x.index,if_pos rfl,List.nodup_append] at distinct
  have out : ∀ y, y ∈ s.emitted.map (·.itemOps x.index) ∨ y ∈ s.queues x.index → y ≠ x := fun y member =>
    distinct.2.2 y (List.mem_append.mpr member) x (by simp)
  refine ⟨?_,fun member => out x (.inl member) rfl⟩
  intro i member
  obtain rfl := known.queued i x member
  exact out x (.inr member) rfl

/-- A waiting item is in no tuple. -/
theorem Paired.fresh (paired : Paired s popped) (known : Known s) (member : x ∈ s.queues x.index) :
    x ∉ s.emitted.map (·.itemOps x.index) := by
  have distinct := known.distinct x.index
  rw [paired.items x.index,List.nodup_append] at distinct
  exact fun before => distinct.2.2 x (List.mem_append_left _ before) x member rfl

/-- An item that is in no tuple has not started a zipped operation. -/
theorem Known.not_trigger (known : Known s) (fresh : x ∉ s.emitted.map (·.itemOps x.index)) :
    x ∉ s.emitted.map (·.trigger) := by
  intro member
  obtain ⟨e,emitted,rfl⟩ := List.mem_map.mp member
  exact fresh (List.mem_map.mpr ⟨e,emitted,(known.held e emitted).2⟩)

/-! ### Items at their places -/

theorem count_flatMap_index {q : Fin n → List (Item n)} (index : ∀ i, ∀ x ∈ q i, x.index = i) (y : Item n) :
    ((List.finRange n).flatMap q).count y = (q y.index).count y := by
  have general : ∀ l : List (Fin n), l.Nodup →
      (l.flatMap q).count y = if y.index ∈ l then (q y.index).count y else 0 := by
    intro l distinct
    induction l with
    | nil => simp
    | cons i l ih =>
      obtain ⟨out,distinct⟩ := List.nodup_cons.mp distinct
      rw [List.flatMap_cons,List.count_append,ih distinct]
      by_cases same : y.index = i
      · subst same; simp [out]
      · have none : (q i).count y = 0 := List.count_eq_zero.mpr fun member => same (index i y member)
        simp [none,same]
  simpa using general _ (List.nodup_finRange n)

theorem carries_congr (ops : s'.itemOps = s.itemOps) (y : Item n) :
    (Instr.carries s' y : Instr n Value Error → Bool) = Instr.carries s y := by
  funext i
  cases i <;> simp [Instr.carries,ops]

theorem countP_complete (s : OperationBase n Value Error) (l : List (Item n)) (y : Item n) :
    (l.map Instr.complete : List (Instr n Value Error)).countP (Instr.carries s y) = l.count y := by
  rw [List.countP_map,List.count]
  rfl

theorem countP_completeQueues (index : ∀ i, ∀ x ∈ s.queues i, x.index = i) (y : Item n) :
    (completeQueues s).countP (Instr.carries s' y) = (s.queues y.index).count y := by
  rw [completeQueues,← List.map_flatMap,countP_complete,count_flatMap_index index]

theorem countP_completeAll {ops : Fin n → Item n} (index : ∀ i, (ops i).index = i) (y : Item n) :
    (completeAll ops).countP (Instr.carries s y) = if ops y.index = y then 1 else 0 := by
  have same : (completeAll ops : List (Instr n Value Error)) =
      ((List.finRange n).flatMap fun i => [ops i]).map .complete := by
    rw [completeAll,List.map_flatMap,List.map_eq_flatMap]
    rfl
  rw [same,countP_complete,count_flatMap_index (by simpa using index)]
  by_cases here : ops y.index = y <;> simp [here,List.count_singleton]

/-- A step of the innermost handler moves an item from place to place. -/
theorem places_put {prog : List (Instr n Value Error)} (out : p ∉ below) (y : Item n)
    (stable : ∀ q ∈ below, ∀ j ∈ c.threads q, j.carries s y = j.carries c.shared y)
    (moved : kept s y + prog.countP (Instr.carries s y) =
      kept c.shared y + (c.threads p).countP (Instr.carries c.shared y)) :
    places (c.put p s prog) (p :: below) y = places c (p :: below) y := by
  have same : (below.map fun q => ((c.put p s prog).threads q).countP (Instr.carries s y)) =
      below.map fun q => (c.threads q).countP (Instr.carries c.shared y) := by
    apply List.map_congr_left
    intro q member
    rw [put_threads_ne c (by rintro rfl; exact out member)]
    exact List.countP_congr fun j here => by rw [stable q member j here]
  simp only [places,put_shared,List.map_cons,put_threads_self,List.sum_cons,same]
  omega

/-- What a step outside of `item_receiver::set_value` does with the items. -/
theorem quiet_moves {exception : Option Error} (ops : ∀ x ops, s.itemOps x = some ops → ∀ i, (ops i).index = i)
    (queued : ∀ i, ∀ x ∈ s.queues i, x.index = i) (quiet : i.ofItem = false) (ran : Ran exception s i s' new)
    (y : Item n) :
    s'.itemOps = s.itemOps ∧
    kept s' y + new.countP (Instr.carries s' y) = kept s y + if i.carries s y then 1 else 0 := by
  cases ran <;> simp only [Instr.ofItem,Bool.true_eq_false] at quiet
  case completeAllItemOps x own held =>
    refine ⟨rfl,?_⟩
    rw [countP_completeAll (ops x own held)]
    simp [Instr.carries,held]
  case clearQueues =>
    refine ⟨rfl,?_⟩
    rw [countP_completeQueues queued]
    simp [kept,Instr.carries,runningWith]
    omega
  case complete x signal =>
    refine ⟨rfl,?_⟩
    simp only [kept,runningWith,Instr.carries,List.map_append,List.count_append,List.map_cons,List.map_nil,
      List.count_singleton,List.countP_singleton,decide_eq_true_eq,beq_iff_eq,Bool.false_eq_true,if_false]
    omega
  case setStopped x =>
    refine ⟨rfl,?_⟩
    simp only [kept,runningWith,Instr.carries,List.map_append,List.count_append,List.map_cons,List.map_nil,
      List.count_singleton,List.countP_singleton,decide_eq_true_eq,beq_iff_eq,Bool.false_eq_true,if_false]
    omega
  case fetchSub k signal =>
    refine ⟨rfl,?_⟩
    cases signal <;> by_cases more : s.nPendingOperations > 1 <;>
      simp [kept,runningWith,Instr.carries,more,notLast,notifyError,notifyStop]
  case emplaceStopCallback =>
    refine ⟨rfl,?_⟩
    by_cases requested : s.outerStopRequested <;> simp [kept,runningWith,Instr.carries,requested]
  all_goals exact ⟨rfl,by simp [kept,runningWith,Instr.carries]⟩

theorem quiet_new {exception : Option Error} (quiet : i.ofItem = false) (ran : Ran exception s i s' new) :
    ∀ j ∈ new, j.ofItem = false := by
  cases ran <;> simp only [Instr.ofItem,Bool.true_eq_false] at quiet
  case completeAllItemOps x ops held =>
    intro j member
    obtain ⟨_,rfl⟩ := mem_completeAll.mp member
    rfl
  case clearQueues =>
    intro j member
    obtain ⟨_,_,_,rfl⟩ := mem_completeQueues.mp member
    rfl
  case fetchSub k signal =>
    cases signal <;> by_cases more : s.nPendingOperations > 1 <;>
      simp [more,notLast,notifyError,notifyStop,Instr.ofItem]
  case emplaceStopCallback => by_cases requested : s.outerStopRequested <;> simp [requested,Instr.ofItem]
  all_goals simp [Instr.ofItem]

/-- A step outside of `item_receiver::set_value` leaves the tuples and the
    results as they are; the queues too, unless it clears them. -/
theorem quiet_shared {exception : Option Error} (quiet : i.ofItem = false) (ran : Ran exception s i s' new) :
    s'.emitted = s.emitted ∧ s'.arrived = s.arrived ∧ s'.result = s.result ∧ s'.itemOps = s.itemOps ∧
    s'.completedItems = s.completedItems ∧ s'.completedZipped = s.completedZipped ∧
    (s.stopRequested = true → s'.stopRequested = true) ∧
    (∀ x ∈ s.itemCompletions.map (·.1), x ∈ s'.itemCompletions.map (·.1)) ∧
    (i = .clearQueues ∧ s'.queues = (fun _ => []) ∧ s'.nReadyNextItems = 0 ∨
      s'.queues = s.queues ∧ s'.nReadyNextItems = s.nReadyNextItems) := by
  cases ran <;> simp only [Instr.ofItem,Bool.true_eq_false] at quiet
  all_goals first
    | exact ⟨rfl,rfl,rfl,rfl,rfl,rfl,id,by simp +contextual,.inr ⟨rfl,rfl⟩⟩
    | exact ⟨rfl,rfl,rfl,rfl,rfl,rfl,fun _ => rfl,by simp,.inr ⟨rfl,rfl⟩⟩
    | exact ⟨rfl,rfl,rfl,rfl,rfl,rfl,id,by simp,.inl ⟨rfl,rfl,rfl⟩⟩

/-! ### The handler of a value -/

theorem stored_injective : Function.Injective (stored : Item n × Value → Item n × Option Value) := by
  rintro ⟨x,v⟩ ⟨y,w⟩ same
  simpa [stored] using same

theorem Known.congr (known : Known s) (arrived : s'.arrived = s.arrived) (completed : s'.completedItems = s.completedItems)
    (emitted : s'.emitted = s.emitted) (ops : s'.itemOps = s.itemOps) (zipped : s'.completedZipped = s.completedZipped)
    (queued : ∀ i, ∀ x ∈ s'.queues i, x.index = i) : Known s' where
  arrived := by rw [arrived,completed]; exact known.arrived
  distinct := by rw [arrived]; exact known.distinct
  begins i := by rw [arrived,tuples,emitted]; exact known.begins i
  queued := queued
  ops := by rw [ops]; exact known.ops
  held := by rw [emitted,ops]; exact known.held
  running := by rw [zipped,emitted]; exact known.running

/-- What a step in the handler of a value does. -/
structure Moved (s : OperationBase n Value Error) (i : Instr n Value Error) (s' : OperationBase n Value Error)
    (new : List (Instr n Value Error)) : Prop where
  known : Known s'
  goes : (∃ j, new = [j] ∧ Doing s' j) ∨ (Settled s' ∧ ∀ j ∈ new, j.ofItem = false)
  moved : ∀ y, kept s' y + new.countP (Instr.carries s' y) = kept s y + if i.carries s y then 1 else 0
  others : ∀ z ∈ s.emitted.map (·.trigger), s'.itemOps z = s.itemOps z
  triggers : ∀ z ∈ s.emitted.map (·.trigger), z ∈ s'.emitted.map (·.trigger)
  started : ∀ e ∈ s'.emitted, e ∈ s.emitted ∨ e.trigger ∉ s.completedZipped
  completed : s'.completedItems = s.completedItems
  zipped : s'.completedZipped = s.completedZipped
  completions : s'.itemCompletions = s.itemCompletions
  stop : s'.stopRequested = s.stopRequested
  plain : ∀ j ∈ new, j ≠ .clearQueues ∧ ∀ z, j ≠ .completeAllItemOps z

/-- A step that only changes the counter and the results. -/
theorem moved_of_same (known : Known s) (queues : s'.queues = s.queues) (arrived : s'.arrived = s.arrived)
    (completed : s'.completedItems = s.completedItems) (emitted : s'.emitted = s.emitted)
    (ops : s'.itemOps = s.itemOps) (zipped : s'.completedZipped = s.completedZipped)
    (completions : s'.itemCompletions = s.itemCompletions) (stop : s'.stopRequested = s.stopRequested)
    (plain : ∀ j ∈ new, j ≠ .clearQueues ∧ ∀ z, j ≠ .completeAllItemOps z)
    (moved : ∀ y, new.countP (Instr.carries s y) = if i.carries s y then 1 else 0)
    (goes : (∃ j, new = [j] ∧ Doing s' j) ∨ (Settled s' ∧ ∀ j ∈ new, j.ofItem = false)) : Moved s i s' new where
  known := known.congr arrived completed emitted ops zipped (queues ▸ known.queued)
  goes := goes
  moved y := by
    rw [carries_congr ops,moved y]
    simp [kept,runningWith,completions,queues,emitted,zipped]
  others _ _ := by rw [ops]
  triggers z member := emitted ▸ member
  started e member := .inl (emitted ▸ member)
  completed := completed
  zipped := zipped
  completions := completions
  stop := stop
  plain := plain

theorem nonEmpty_congr (queues : s'.queues = s.queues) : nonEmpty s' = nonEmpty s := by
  simp [nonEmpty,queues]

theorem nonEmpty_le (s : OperationBase n Value Error) : (nonEmpty s).card ≤ n := by
  simpa using Finset.card_le_univ (nonEmpty s)

theorem emplaceResult_moves {v : Value} (known : Known s) (doing : Doing s (.emplaceResult x v))
    (ran : Ran none s (.emplaceResult x v) s' new) : Moved s (.emplaceResult x v) s' new := by
  cases doing with
  | emplaceResult _ _ counting arriving =>
    cases ran with
    | emplaceThrows _ _ e throws => cases throws
    | emplaceResult =>
      refine moved_of_same known rfl rfl rfl rfl rfl rfl rfl rfl (by simp) ?_
        (.inl ⟨_,rfl,.testStop x ⟨counting.counter,counting.few⟩ ?_⟩)
      · intro y; simp [Instr.carries]
      · intro calm i
        have fresh := ((arriving calm).fresh known).1 i
        have waits : waiting { s with result := Function.update s.result x (some v) } i = waiting s i := by
          apply List.map_congr_left
          intro z member
          have other : z ≠ x := by rintro rfl; exact fresh member
          simp [other]
        rw [waits]
        simpa [tuples] using arriving calm i

theorem testStop_moves (known : Known s) (doing : Doing s (.testStop x)) (ran : Ran none s (.testStop x) s' new) :
    Moved s (.testStop x) s' new := by
  cases doing with
  | testStop _ counting arriving =>
    cases ran
    by_cases stopped : s.stopRequested
    · rw [if_pos stopped]
      refine moved_of_same known rfl rfl rfl rfl rfl rfl rfl rfl (by simp) ?_ (.inr ⟨⟨counting,?_⟩,by simp [Instr.ofItem]⟩)
      · intro y; simp [Instr.carries]
      · simp [stopped]
    · rw [if_neg stopped]
      have calm : s.stopRequested = false := by simpa using stopped
      refine moved_of_same known rfl rfl rfl rfl rfl rfl rfl rfl (by simp) ?_
        (.inl ⟨_,rfl,.pushBack x counting calm (arriving calm)⟩)
      intro y; simp [Instr.carries]

theorem pushBack_moves (known : Known s) (doing : Doing s (.pushBack x)) (ran : Ran none s (.pushBack x) s' new) :
    Moved s (.pushBack x) s' new := by
  cases doing with
  | pushBack _ counting calm arriving =>
    cases ran
    have fresh := (arriving.fresh known).1 x.index
    have queues : ∀ i, Function.update s.queues x.index (s.queues x.index ++ [x]) i =
        s.queues i ++ if i = x.index then [x] else [] := by
      intro i
      by_cases same : i = x.index
      · subst same; simp
      · simp [same]
    have full : nonEmpty { s with
        queues := Function.update s.queues x.index (s.queues x.index ++ [x]), pushed := s.pushed ++ [x] } =
        insert x.index (nonEmpty s) := by
      ext i
      by_cases same : i = x.index <;> simp [nonEmpty,queues,same]
    have paired : Paired { s with
        queues := Function.update s.queues x.index (s.queues x.index ++ [x]), pushed := s.pushed ++ [x] }
        (fun _ => []) := by
      intro i
      have before := arriving i
      by_cases same : i = x.index <;> simpa [tuples,waiting,queues,same] using before
    constructor
    · refine known.congr rfl rfl rfl rfl rfl ?_
      intro i z member
      simp only [queues,List.mem_append] at member
      rcases member with before | last
      · exact known.queued i z before
      · split at last
        next same => rw [List.mem_singleton.mp last,same]
        next => cases last
    · refine .inl ⟨_,rfl,?_⟩
      by_cases waits : s.queues x.index = []
      · refine .announceFirst x calm paired (by simp [queues,waits]) ?_
        rw [full,Finset.card_insert_of_notMem (by simp [nonEmpty,waits])]
        have := counting.counter
        push_cast
        show s.nReadyNextItems + 1 = _
        omega
      · have same : insert x.index (nonEmpty s) = nonEmpty s := Finset.insert_eq_self.mpr (by simp [nonEmpty,waits])
        obtain ⟨z,rest,first⟩ := List.exists_cons_of_ne_nil waits
        refine .announceLater x z (rest ++ [x]) ⟨?_,?_⟩ calm paired (by simp [queues,first]) (by simp)
        · rw [full,same]; exact counting.counter
        · rw [full,same]; exact counting.few
    · intro y
      simp only [kept,runningWith,queues,List.count_append,Instr.carries,List.countP_singleton,Bool.false_eq_true,
        if_false,decide_eq_true_eq]
      by_cases same : x = y
      · subst same; simp; omega
      · have none : (if y.index = x.index then [x] else []).count y = 0 := by
          apply List.count_eq_zero.mpr
          split <;> simp [Ne.symm same]
        simp [none,same]
    · exact fun _ _ => rfl
    · exact fun _ member => member
    · exact fun _ member => .inl member
    · rfl
    · rfl
    · rfl
    · rfl
    · simp

theorem notifyResultCompletion_moves (known : Known s) (doing : Doing s (.notifyResultCompletion x))
    (ran : Ran none s (.notifyResultCompletion x) s' new) : Moved s (.notifyResultCompletion x) s' new := by
  have nothing : ∀ y, (.notifyResultCompletion x : Instr n Value Error).carries s y = false := fun _ => rfl
  cases doing with
  | announceFirst _ calm paired only counter =>
    cases ran with
    | notFront _ other => simp [only] at other
    | announced =>
      by_cases last : s.nReadyNextItems = n - 1
      · rw [if_pos last]
        refine moved_of_same known rfl rfl rfl rfl rfl rfl rfl rfl (by simp) ?_
          (.inl ⟨_,rfl,.collectResults x calm paired only⟩)
        intro y; simp [Instr.carries]
      · rw [if_neg last]
        refine moved_of_same known rfl rfl rfl rfl rfl rfl rfl rfl (by simp) ?_
          (.inr ⟨⟨⟨counter,?_⟩,fun _ => paired⟩,by simp⟩)
        · intro y; simp [Instr.carries]
        · have bound := nonEmpty_le s
          show (nonEmpty s).card < n
          omega
  | announceLater _ y rest counting calm paired queue behind =>
    have distinct := known.distinct x.index
    rw [paired.items,List.nodup_append] at distinct
    have other : y ≠ x := by
      have waits := distinct.2.1
      rw [queue] at waits
      rintro rfl
      exact (List.nodup_cons.mp waits).1 behind
    cases ran with
    | announced _ first => simp [queue,other] at first
    | notFront =>
      refine moved_of_same known rfl rfl rfl rfl rfl rfl rfl rfl (by simp) ?_
        (.inr ⟨⟨counting,fun _ => paired⟩,by simp⟩)
      intro y; simp [Instr.carries]

theorem collectResults_moves (known : Known s) (doing : Doing s (.collectResults x))
    (ran : Ran none s (.collectResults x) s' new) : Moved s (.collectResults x) s' new := by
  cases doing with
  | collectResults _ calm paired only =>
    cases ran with
    | collectResults _ result found =>
      refine moved_of_same known rfl rfl rfl rfl rfl rfl rfl rfl (by simp) ?_
        (.inl ⟨_,rfl,.popFronts x result calm paired only found⟩)
      intro y; simp [Instr.carries]

theorem queue_of_fronts {ops : Fin n → Item n} (popped : fronts s = some ops) (i : Fin n) :
    s.queues i = ops i :: (s.queues i).tail :=
  List.eq_cons_of_mem_head? (mem_of_allSome popped i)

/-- The front items leave the queues. -/
theorem kept_popFronts {ops : Fin n → Item n} (popped : fronts s = some ops)
    (queues : s'.queues = fun i => (s.queues i).tail) (emitted : s'.emitted = s.emitted)
    (zipped : s'.completedZipped = s.completedZipped) (completions : s'.itemCompletions = s.itemCompletions) (y : Item n) :
    kept s' y + (if ops y.index = y then 1 else 0) = kept s y := by
  have split : (s.queues y.index).count y = (s.queues y.index).tail.count y + if ops y.index = y then 1 else 0 := by
    conv_lhs => rw [queue_of_fronts popped y.index]
    rw [List.count_cons]
    simp
  simp only [kept,runningWith,queues,emitted,zipped,completions,split]
  omega

/-- The items of a tuple go to its zipped operation. -/
theorem kept_startZipped {ops : Fin n → Item n} (values : Fin n → Value) (idle : x ∉ s.completedZipped)
    (queues : s'.queues = s.queues) (emitted : s'.emitted = s.emitted ++ [⟨x,ops,values⟩])
    (zipped : s'.completedZipped = s.completedZipped) (completions : s'.itemCompletions = s.itemCompletions) (y : Item n) :
    kept s' y = kept s y + if ops y.index = y then 1 else 0 := by
  simp only [kept,runningWith,queues,emitted,zipped,completions,List.countP_append,List.countP_singleton,idle,
    not_false_eq_true,true_and,decide_eq_true_eq]
  omega

theorem popFronts_moves {result : Fin n → Value} (known : Known s) (doing : Doing s (.popFronts x result))
    (ran : Ran none s (.popFronts x result) s' new) : Moved s (.popFronts x result) s' new := by
  cases doing with
  | popFronts _ _ calm paired only found =>
    cases ran with
    | popFronts _ _ ops popped =>
      have queue := queue_of_fronts popped
      have value : ∀ i, s.result (ops i) = some (result i) := by
        intro i
        have := mem_of_allSome found i
        rw [queue i] at this
        simpa using this
      have own : ops x.index = x := by
        have := queue x.index
        rw [only] at this
        exact (List.cons.inj this).1.symm
      have fresh : x ∉ s.emitted.map (·.trigger) :=
        known.not_trigger (paired.fresh known (by simp [only]))
      have others : ∀ z ∈ s.emitted.map (·.trigger), Function.update s.itemOps x (some ops) z = s.itemOps z := by
        intro z member
        exact Function.update_of_ne (by rintro rfl; exact fresh member) _ _
      constructor
      · constructor
        · exact known.arrived
        · exact known.distinct
        · exact known.begins
        · intro i z member
          exact known.queued i z (List.mem_of_mem_tail member)
        · intro z ops' held i
          by_cases same : z = x
          · subst same
            obtain rfl : ops = ops' := by simpa using held
            exact known.queued i (ops i) (by rw [queue i]; simp)
          · exact known.ops z ops' (by simpa [same] using held) i
        · intro e member
          exact ⟨(others _ (List.mem_map_of_mem member)).trans (known.held e member).1,(known.held e member).2⟩
        · exact known.running
      · refine .inl ⟨_,rfl,.checkStop x result ops calm (by simp) own ?_ (by simp [only])⟩
        intro i
        have := paired i
        rw [waiting,queue i] at this
        simpa [tuples,waiting,stored,value] using this
      · intro y
        simp only [Instr.carries,List.countP_singleton,Function.update_self,decide_eq_true_eq,Bool.false_eq_true,
          if_false]
        refine (kept_popFronts popped ?_ ?_ ?_ ?_ y).trans (Nat.add_zero _).symm <;> rfl
      · exact others
      · exact fun _ member => member
      · exact fun _ member => .inl member
      · rfl
      · rfl
      · rfl
      · rfl
      · simp

theorem checkStop_moves {result : Fin n → Value} (known : Known s) (doing : Doing s (.checkStop x result))
    (ran : Ran none s (.checkStop x result) s' new) : Moved s (.checkStop x result) s' new := by
  cases doing with
  | checkStop _ _ ops calm held own paired empty =>
    cases ran
    simp only [calm,Bool.false_eq_true,if_false]
    refine moved_of_same known rfl rfl rfl rfl rfl rfl rfl rfl (by simp) ?_
      (.inl ⟨_,rfl,.recount x result ops calm held own paired empty⟩)
    intro y; simp [Instr.carries,held]

/-- The queue of the item that started the tuple is empty, so that the tuple
    after it is not ready. -/
theorem recount_moves {result : Fin n → Value} (known : Known s) (doing : Doing s (.recount x result))
    (ran : Ran none s (.recount x result) s' new) : Moved s (.recount x result) s' new := by
  cases doing with
  | recount _ _ ops calm held own paired empty =>
    have few : (nonEmpty s).card < n := by
      have strict : (nonEmpty s).card < (Finset.univ : Finset (Fin n)).card :=
        Finset.card_lt_card (Finset.ssubset_univ_iff.mpr fun all => by
          have member : x.index ∈ nonEmpty s := all ▸ Finset.mem_univ _
          simp [nonEmpty,empty] at member)
      simpa using strict
    cases ran with
    | recountAll _ _ all => omega
    | recount =>
      refine moved_of_same known rfl rfl rfl rfl rfl rfl rfl rfl (by simp) ?_
        (.inl ⟨_,rfl,.startZipped x result ops ⟨rfl,few⟩ calm held own paired⟩)
      intro y; simp [Instr.carries,held]

theorem startZipped_moves {result : Fin n → Value} {next : Bool} (known : Known s)
    (doing : Doing s (.startZipped x result next)) (ran : Ran none s (.startZipped x result next) s' new) :
    Moved s (.startZipped x result next) s' new := by
  cases doing with
  | startZipped _ _ ops counting calm held own paired =>
    cases ran with
    | zippedThrows _ _ _ e throws => cases throws
    | startZipped _ _ _ ops' held' =>
      obtain rfl : ops = ops' := Option.some.inj (held.symm.trans held')
      have fresh : x ∉ s.emitted.map (·.trigger) := by
        refine known.not_trigger ?_
        have distinct := known.distinct x.index
        rw [paired.items,List.nodup_append,List.nodup_append] at distinct
        exact fun before => distinct.1.2.2 x before x (by simp [own]) rfl
      have idle : x ∉ s.completedZipped := fun member => fresh (known.running x member)
      constructor
      · constructor
        · exact known.arrived
        · exact known.distinct
        · intro i
          apply (List.prefix_map_iff_of_injective stored_injective).mp
          refine ⟨waiting s i,?_⟩
          rw [paired i]
          simp [tuples]
        · exact known.queued
        · exact known.ops
        · intro e member
          rcases List.mem_append.mp member with before | last
          · exact known.held e before
          · obtain rfl := List.mem_singleton.mp last
            exact ⟨held,own⟩
        · intro z member
          exact List.map_append ▸ List.mem_append_left _ (known.running z member)
      · refine .inr ⟨⟨⟨counting.counter,counting.few⟩,fun _ i => ?_⟩,by simp [Instr.ofItem]⟩
        have := paired i
        simpa [tuples,waiting] using this
      · intro y
        simp only [Instr.carries,held,List.countP_cons,List.countP_nil,decide_eq_true_eq,Bool.false_eq_true,if_false,
          Nat.add_zero]
        refine kept_startZipped result idle ?_ ?_ ?_ ?_ y <;> rfl
      · exact fun _ _ => rfl
      · intro z member
        exact List.map_append ▸ List.mem_append_left _ member
      · intro e member
        rcases List.mem_append.mp member with before | last
        · exact .inl before
        · obtain rfl := List.mem_singleton.mp last
          exact .inr idle
      · rfl
      · rfl
      · rfl
      · rfl
      · simp

theorem doing_moves (known : Known s) (doing : Doing s i) (ran : Ran none s i s' new) : Moved s i s' new := by
  cases doing with
  | emplaceResult x v counting arriving => exact emplaceResult_moves known (.emplaceResult x v counting arriving) ran
  | testStop x counting arriving => exact testStop_moves known (.testStop x counting arriving) ran
  | pushBack x counting calm arriving => exact pushBack_moves known (.pushBack x counting calm arriving) ran
  | announceFirst x calm paired only counter =>
    exact notifyResultCompletion_moves known (.announceFirst x calm paired only counter) ran
  | announceLater x y rest counting calm paired queue behind =>
    exact notifyResultCompletion_moves known (.announceLater x y rest counting calm paired queue behind) ran
  | collectResults x calm paired only => exact collectResults_moves known (.collectResults x calm paired only) ran
  | popFronts x result calm paired only found =>
    exact popFronts_moves known (.popFronts x result calm paired only found) ran
  | checkStop x result ops calm held own paired empty =>
    exact checkStop_moves known (.checkStop x result ops calm held own paired empty) ran
  | recount x result ops calm held own paired empty =>
    exact recount_moves known (.recount x result ops calm held own paired empty) ran
  | startZipped x result ops counting calm held own paired =>
    exact startZipped_moves known (.startZipped x result ops counting calm held own paired) ran

/-! ### A step of the innermost handler -/

theorem Doing.ofItem (doing : Doing s i) : i.ofItem = true := by
  cases doing <;> rfl

theorem requestsFirst_append (plain : ∀ j ∈ new, j ≠ .clearQueues) (first : RequestsFirst rest) :
    RequestsFirst (new ++ rest) := by
  induction new with
  | nil => exact first
  | cons j new ih =>
    have later := ih fun k member => plain k (List.mem_cons_of_mem j member)
    have := plain j (by simp)
    cases j <;> first | exact trivial | exact later | exact absurd rfl this

theorem requestsFirst_of_plain (plain : ∀ j ∈ new, j ≠ .clearQueues) : RequestsFirst new :=
  List.append_nil new ▸ requestsFirst_append plain trivial

/-- A handler still requests the stop before it clears the queues. -/
theorem requests_after {exception : Option Error} (first : RequestsFirst (i :: rest)) (quiet : i.ofItem = false)
    (ran : Ran exception s i s' new) :
    s'.stopRequested = true ∨ RequestsFirst (new ++ rest) := by
  cases ran <;> simp only [Instr.ofItem,Bool.true_eq_false] at quiet
  case requestStop => exact .inl rfl
  case clearQueues => exact first.elim
  case completeAllItemOps x ops held =>
    refine .inr (requestsFirst_append ?_ first)
    intro j member
    obtain ⟨_,rfl⟩ := mem_completeAll.mp member
    simp
  case fetchSub k signal =>
    right
    split
    · cases signal <;> exact trivial
    · exact first
  case emplaceStopCallback =>
    refine .inr (requestsFirst_append ?_ first)
    split <;> simp
  all_goals exact .inr first

theorem quiet_plain {exception : Option Error} (quiet : i.ofItem = false) (ran : Ran exception s i s' new) (z : Item n) :
    .completeAllItemOps z ∉ new := by
  intro member
  cases ran <;> simp only [Instr.ofItem,Bool.true_eq_false] at quiet
  case completeAllItemOps x ops held => obtain ⟨_,same⟩ := mem_completeAll.mp member; cases same
  case clearQueues => obtain ⟨_,_,_,same⟩ := mem_completeQueues.mp member; cases same
  case fetchSub k signal =>
    cases signal <;> split at member <;> simp [notLast,notifyError,notifyStop] at member
  case emplaceStopCallback => split at member <;> simp at member
  all_goals simp at member

theorem quiet_keeps (positive : 0 < n) (inv : Invariant c (p :: below)) (settled : Settled c.shared)
    (calm : ∀ j ∈ c.threads p, j.ofItem = false) (left : c.threads p = i :: rest)
    (ran : Ran none c.shared i s new) : Invariant (c.put p s (new ++ rest)) (p :: below) := by
  have quiet : i.ofItem = false := calm i (by simp [left])
  obtain ⟨out,_⟩ := List.nodup_cons.mp inv.distinct
  obtain ⟨emitted,arrived,result,ops,completed,zipped,stop,completions,queues⟩ := quiet_shared quiet ran
  have next := quiet_new quiet ran
  have first := inv.requests p
  rw [left] at first
  have queued : ∀ k, ∀ x ∈ s.queues k, x.index = k := by
    rcases queues with ⟨_,empty,_⟩ | ⟨same,_⟩
    · simp [empty]
    · rw [same]; exact inv.known.queued
  constructor
  · exact inv.known.congr arrived completed emitted ops zipped queued
  · intro q member
    rw [put_threads_ne c (by rintro rfl; simp at member)]
    exact inv.off q member
  · exact inv.distinct
  · intro q member
    rw [put_threads_ne c (by rintro rfl; exact out member)]
    exact inv.below q member
  · refine .inl ⟨?_,?_⟩
    · rcases queues with ⟨rfl,empty,counter⟩ | ⟨same,counter⟩
      · have stopped : s.stopRequested = true := stop (first.resolve_right id)
        have none_left : nonEmpty s = ∅ := by simp [nonEmpty,empty]
        refine ⟨⟨?_,?_⟩,?_⟩
        · simp only [put_shared,none_left,counter]; rfl
        · simpa [none_left] using positive
        · simp [stopped]
      · refine ⟨⟨?_,?_⟩,?_⟩
        · rw [put_shared,counter,nonEmpty_congr same]; exact settled.counter
        · rw [put_shared,nonEmpty_congr same]; exact settled.few
        · intro running k
          have before : c.shared.stopRequested = false := by
            cases still : c.shared.stopRequested with
            | false => rfl
            | true => exact absurd (stop still) (by simpa using running)
          have := settled.paired before k
          simpa [tuples,waiting,arrived,emitted,same,result] using this
    · intro q top
      obtain rfl : p = q := by simpa using top
      intro j member
      rw [put_threads_self,List.mem_append] at member
      exact member.elim (next j) fun later => calm j (by simp [left,later])
  · intro q
    by_cases same : q = p
    · subst same
      rw [put_threads_self,put_shared]
      exact first.elim (fun stopped => .inl (stop stopped)) fun first => requests_after first quiet ran
    · rw [put_threads_ne c same,put_shared]
      exact (inv.requests q).imp_left stop
  · intro q x member
    rw [put_shared,emitted]
    by_cases same : q = p
    · subst same
      rw [put_threads_self,List.mem_append] at member
      exact inv.completing q x (by simp [left,member.resolve_left (quiet_plain quiet ran x)])
    · rw [put_threads_ne c same] at member
      exact inv.completing q x member
  · intro y
    obtain ⟨_,moved⟩ := quiet_moves inv.known.ops inv.known.queued quiet ran y
    rw [put_shared,completed,← inv.placed y]
    refine places_put out y (fun q _ j _ => by rw [carries_congr ops]) ?_
    rw [left,List.countP_append,List.countP_cons,carries_congr ops y] at *
    omega
  · intro e member done k
    rw [put_shared,emitted] at member
    rw [put_shared,zipped] at done
    rcases inv.finished e member done k with before | pending | pending
    · exact .inl (completions _ before)
    · by_cases same : .zipped e.trigger = p
      · subst same
        rw [left,List.mem_cons] at pending
        rcases pending with rfl | later
        · cases ran
          exact .inl (by simp)
        · exact .inr (.inl (by simp [later]))
      · rw [put_threads_ne c same]
        exact .inr (.inl pending)
    · by_cases same : .zipped e.trigger = p
      · subst same
        rw [left,List.mem_cons] at pending
        rcases pending with rfl | later
        · cases ran with
          | completeAllItemOps _ held_ops held =>
            obtain rfl : held_ops = e.itemOps := Option.some.inj (held.symm.trans (inv.known.held e member).1)
            exact .inr (.inl (by rw [put_threads_self]; exact List.mem_append_left _ (mem_completeAll.mpr ⟨k,rfl⟩)))
        · exact .inr (.inr (by simp [later]))
      · rw [put_threads_ne c same]
        exact .inr (.inr pending)

theorem doing_keeps (inv : Invariant c (p :: below)) (only : c.threads p = [i]) (doing : Doing c.shared i)
    (ran : Ran none c.shared i s new) : Invariant (c.put p s new) (p :: below) := by
  have moves := doing_moves inv.known doing ran
  obtain ⟨out,_⟩ := List.nodup_cons.mp inv.distinct
  have steps := doing.ofItem
  constructor
  · exact moves.known
  · intro q member
    rw [put_threads_ne c (by rintro rfl; simp at member)]
    exact inv.off q member
  · exact inv.distinct
  · intro q member
    rw [put_threads_ne c (by rintro rfl; exact out member)]
    exact inv.below q member
  · rcases moves.goes with ⟨j,rfl,next⟩ | ⟨settled,quiet⟩
    · exact .inr ⟨p,rfl,j,by simp,next⟩
    · refine .inl ⟨settled,?_⟩
      intro q top
      obtain rfl : p = q := by simpa using top
      rw [put_threads_self]
      exact quiet
  · intro q
    by_cases same : q = p
    · subst same
      rw [put_threads_self]
      exact .inr (requestsFirst_of_plain fun j member => (moves.plain j member).1)
    · rw [put_threads_ne c same,put_shared,moves.stop]
      exact inv.requests q
  · intro q x member
    by_cases same : q = p
    · subst same
      rw [put_threads_self] at member
      exact absurd rfl ((moves.plain _ member).2 x)
    · rw [put_threads_ne c same] at member
      exact moves.triggers x (inv.completing q x member)
  · intro y
    rw [put_shared,moves.completed,← inv.placed y]
    refine places_put out y ?_ ?_
    · intro q member j here
      have calm := (inv.below q member).2 j here
      cases j <;> simp only [Instr.ofItem,Bool.true_eq_false] at calm
      case completeAllItemOps z => simp only [Instr.carries,moves.others z (inv.completing q z here)]
      all_goals rfl
    · rw [only,List.countP_singleton]
      exact moves.moved y
  · intro e member done k
    rw [put_shared,moves.zipped] at done
    have before := (moves.started e member).resolve_right fun idle => idle done
    rw [put_shared,moves.completions]
    rcases inv.finished e before done k with before | pending | pending
    · exact .inl before
    · by_cases same : .zipped e.trigger = p
      · rw [same,only,List.mem_singleton] at pending
        subst pending
        cases steps
      · rw [put_threads_ne c same]
        exact .inr (.inl pending)
    · by_cases same : .zipped e.trigger = p
      · rw [same,only,List.mem_singleton] at pending
        subst pending
        cases steps
      · rw [put_threads_ne c same]
        exact .inr (.inr pending)

theorem run_keeps (positive : 0 < n) (inv : Invariant c (p :: below)) (left : c.threads p = i :: rest)
    (ran : Ran none c.shared i s new) : Invariant (c.put p s (new ++ rest)) (p :: below) := by
  rcases inv.top with ⟨settled,calm⟩ | ⟨q,top,j,only,doing⟩
  · exact quiet_keeps positive inv settled (calm p (by simp)) left ran
  · obtain rfl : p = q := by simpa using top
    obtain ⟨rfl,rfl⟩ := List.cons.inj (left.symm.trans only)
    rw [List.append_nil]
    exact doing_keeps inv only doing ran

theorem finish_keeps (inv : Invariant c (p :: below)) (idle : c.threads p = []) : Invariant c below := by
  obtain ⟨_,distinct⟩ := List.nodup_cons.mp inv.distinct
  constructor
  · exact inv.known
  · intro q member
    by_cases same : q = p
    · rw [same]; exact idle
    · exact inv.off q (by simp [same,member])
  · exact distinct
  · intro q member
    exact inv.below q (List.mem_of_mem_tail member)
  · rcases inv.top with ⟨settled,_⟩ | ⟨q,top,j,only,_⟩
    · refine .inl ⟨settled,?_⟩
      intro q top
      exact (inv.below q (List.mem_of_mem_head? top)).2
    · obtain rfl : p = q := by simpa using top
      simp [idle] at only
  · exact inv.requests
  · exact inv.completing
  · intro y
    have := inv.placed y
    simpa [places,idle] using this
  · exact inv.finished

/-! ### A handler that is called -/

theorem countP_except {α β : Type} {l : List α} {f : α → β} (distinct : (l.map f).Nodup) {a : α} (member : a ∈ l)
    {P Q : α → Bool} (same : ∀ b ∈ l, f b ≠ f a → P b = Q b) :
    l.countP P + (if Q a then 1 else 0) = l.countP Q + if P a then 1 else 0 := by
  induction l with
  | nil => cases member
  | cons b l ih =>
    obtain ⟨out,distinct⟩ := List.nodup_cons.mp distinct
    rw [List.countP_cons,List.countP_cons]
    rcases List.mem_cons.mp member with rfl | later
    · have rest : l.countP P = l.countP Q := by
        apply List.countP_congr
        intro d here
        rw [same d (List.mem_cons_of_mem _ here) (fun alike => out (alike ▸ List.mem_map_of_mem here))]
      omega
    · have other : f b ≠ f a := fun alike => out (alike ▸ List.mem_map_of_mem later)
      have := ih distinct later fun d here => same d (List.mem_cons_of_mem _ here)
      rw [same b (by simp) other]
      omega

/-- The items of a tuple go to the handler of its zipped operation. -/
theorem runningWith_complete (distinct : (s.emitted.map (·.trigger)).Nodup)
    (held : ∀ e ∈ s.emitted, s.itemOps e.trigger = some e.itemOps)
    (running : x ∈ s.emitted.map (·.trigger)) (fresh : x ∉ s.completedZipped) (y : Item n) :
    runningWith { s with completedZipped := s.completedZipped ++ [x] } y +
      (if (.completeAllItemOps x : Instr n Value Error).carries s y then 1 else 0) = runningWith s y := by
  obtain ⟨e,member,rfl⟩ := List.mem_map.mp running
  have count := countP_except distinct member
    (P := fun d : Emitted n Value => decide (d.trigger ∉ s.completedZipped ∧ d.itemOps y.index = y))
    (Q := fun d : Emitted n Value => decide (d.trigger ∉ s.completedZipped ++ [e.trigger] ∧ d.itemOps y.index = y))
    (fun d _ other => by simp [other])
  simp only [runningWith,Instr.carries,held e member]
  simp [fresh] at count ⊢
  omega

/-- An item starts at most one tuple. -/
theorem Known.triggers_distinct (known : Known s) : (s.emitted.map (·.trigger)).Nodup := by
  have distinct : ∀ k, (s.emitted.map (·.itemOps k)).Nodup := by
    intro k
    have begins := (known.begins k).map (·.1)
    rw [tuples,List.map_map] at begins
    exact begins.sublist.nodup (known.distinct k)
  cases first : s.emitted with
  | nil => simp
  | cons e rest =>
    rw [← first]
    refine List.Nodup.map_on ?_ (List.Nodup.of_map _ (distinct e.trigger.index))
    intro a member b here same
    refine List.inj_on_of_nodup_map (distinct a.trigger.index) member here ?_
    have own := (known.held b here).2
    rw [← same] at own
    exact (known.held a member).2.trans own.symm

theorem quiet_of_callout (callout : isCallout i = true) : i.ofItem = false := by
  cases i <;> first | rfl | cases callout

/-- While control is outside, no item is in its handler. -/
theorem Invariant.outside (inv : Invariant c stack) (out : Outside isCallout c stack) :
    Settled c.shared ∧ ∀ q ∈ stack, c.threads q ≠ [] ∧ ∀ i ∈ c.threads q, i.ofItem = false := by
  rcases inv.top with ⟨settled,calm⟩ | ⟨q,top,j,only,doing⟩
  · refine ⟨settled,?_⟩
    cases stack with
    | nil => simp
    | cons q below =>
      obtain ⟨i,rest,left,_⟩ := out
      intro r member
      rcases List.mem_cons.mp member with rfl | later
      · exact ⟨by simp [left],calm r (by simp)⟩
      · exact inv.below r later
  · cases stack with
    | nil => cases top
    | cons r below =>
      obtain rfl : r = q := by simpa using top
      obtain ⟨i,rest,left,callout⟩ := out
      obtain ⟨rfl,_⟩ := List.cons.inj (left.symm.trans only)
      have := doing.ofItem
      rw [quiet_of_callout callout] at this
      cases this

/-- A handler starts while control is outside of the others. -/
theorem handler_keeps (inv : Invariant c stack) (out : Outside isCallout c stack) (idle : c.threads p = [])
    (known : Known s) (emitted : s.emitted = c.shared.emitted) (ops : s.itemOps = c.shared.itemOps)
    (completions : s.itemCompletions = c.shared.itemCompletions) (stop : s.stopRequested = c.shared.stopRequested)
    (requests : c.shared.stopRequested = true ∨ RequestsFirst new)
    (completing : ∀ x, .completeAllItemOps x ∈ new → x ∈ c.shared.emitted.map (·.trigger))
    (goes : (Settled s ∧ ∀ j ∈ new, j.ofItem = false) ∨ ∃ i, new = [i] ∧ Doing s i)
    (placed : ∀ y, kept s y + new.countP (Instr.carries c.shared y) + (if y ∈ c.shared.completedItems then 1 else 0) =
      kept c.shared y + if y ∈ s.completedItems then 1 else 0)
    (finished : ∀ x ∈ s.completedZipped, x ∈ c.shared.completedZipped ∧ p ≠ .zipped x ∨
      p = .zipped x ∧ .completeAllItemOps x ∈ new) :
    Invariant (c.put p s new) (p :: stack) := by
  obtain ⟨_,busy⟩ := inv.outside out
  have fresh : p ∉ stack := fun member => (busy p member).1 idle
  constructor
  · exact known
  · intro q member
    rw [put_threads_ne c (by rintro rfl; simp at member)]
    exact inv.off q fun later => member (List.mem_cons_of_mem p later)
  · exact List.nodup_cons.mpr ⟨fresh,inv.distinct⟩
  · intro q member
    rw [put_threads_ne c (by rintro rfl; exact fresh member)]
    exact busy q member
  · rcases goes with ⟨settled,quiet⟩ | ⟨i,rfl,doing⟩
    · refine .inl ⟨settled,?_⟩
      intro q top
      obtain rfl : p = q := by simpa using top
      rw [put_threads_self]
      exact quiet
    · exact .inr ⟨p,rfl,i,by simp,doing⟩
  · intro q
    by_cases same : q = p
    · subst same; rw [put_threads_self,put_shared,stop]; exact requests
    · rw [put_threads_ne c same,put_shared,stop]; exact inv.requests q
  · intro q x member
    rw [put_shared,emitted]
    by_cases same : q = p
    · subst same; exact completing x (by simpa using member)
    · rw [put_threads_ne c same] at member; exact inv.completing q x member
  · intro y
    show places (c.put p s new) (p :: stack) y = if y ∈ s.completedItems then 1 else 0
    have before := inv.placed y
    have now := placed y
    have same : (stack.map fun q => ((c.put p s new).threads q).countP (Instr.carries c.shared y)) =
        stack.map fun q => (c.threads q).countP (Instr.carries c.shared y) := by
      apply List.map_congr_left
      intro q member
      rw [put_threads_ne c (by rintro rfl; exact fresh member)]
    simp only [places,put_shared,List.map_cons,put_threads_self,List.sum_cons,carries_congr ops,same] at before ⊢
    omega
  · intro e member done k
    rw [put_shared,emitted] at member
    rw [put_shared,completions]
    rcases finished e.trigger done with ⟨before,other⟩ | ⟨rfl,pending⟩
    · rw [put_threads_ne c (Ne.symm other)]
      exact inv.finished e member before k
    · exact .inr (.inr (by simpa using pending))

/-- An event that changes nothing of the queues, the tuples and the arrivals. -/
theorem event_keeps (inv : Invariant c stack) (settled : Settled c.shared) (out : Outside isCallout c stack)
    (idle : c.threads p = []) (party : ∀ x, p ≠ .zipped x) (arrived : s.arrived = c.shared.arrived)
    (completed : s.completedItems = c.shared.completedItems) (emitted : s.emitted = c.shared.emitted)
    (ops : s.itemOps = c.shared.itemOps) (zipped : s.completedZipped = c.shared.completedZipped)
    (queues : s.queues = c.shared.queues) (counter : s.nReadyNextItems = c.shared.nReadyNextItems)
    (result : s.result = c.shared.result) (completions : s.itemCompletions = c.shared.itemCompletions)
    (stop : s.stopRequested = c.shared.stopRequested) (requests : c.shared.stopRequested = true ∨ RequestsFirst new)
    (nothing : ∀ j ∈ new, j.ofItem = false ∧ (∀ x, j ≠ .completeAllItemOps x) ∧ ∀ y, j.carries c.shared y = false) :
    Invariant (c.put p s new) (p :: stack) := by
  refine handler_keeps inv out idle
    (inv.known.congr arrived completed emitted ops zipped (queues ▸ inv.known.queued)) emitted ops completions stop
    requests (fun x member => absurd rfl ((nothing _ member).2.1 x)) (.inl ⟨⟨⟨?_,?_⟩,?_⟩,fun j member => (nothing j member).1⟩)
    ?_ ?_
  · rw [counter,nonEmpty_congr queues]; exact settled.counter
  · rw [nonEmpty_congr queues]; exact settled.few
  · intro calm i
    have := settled.paired (stop ▸ calm) i
    simpa [tuples,waiting,arrived,emitted,queues,result] using this
  · intro y
    have none : new.countP (Instr.carries c.shared y) = 0 :=
      List.countP_eq_zero.mpr fun j member => by simp [(nothing j member).2.2 y]
    simp only [none,completed,kept,runningWith,completions,queues,emitted,zipped]
    omega
  · intro x member
    exact .inl ⟨zipped ▸ member,party x⟩

/-- The receiver of an item is called: its handler has the item, and no other item is moved. -/
theorem item_keeps {x : Item n} (inv : Invariant c stack) (out : Outside isCallout c stack)
    (idle : c.threads (.item x) = []) (known : Known s) (fresh : x ∉ c.shared.completedItems)
    (completed : s.completedItems = c.shared.completedItems ++ [x]) (emitted : s.emitted = c.shared.emitted)
    (ops : s.itemOps = c.shared.itemOps) (zipped : s.completedZipped = c.shared.completedZipped)
    (queues : s.queues = c.shared.queues) (completions : s.itemCompletions = c.shared.itemCompletions)
    (stop : s.stopRequested = c.shared.stopRequested) (requests : c.shared.stopRequested = true ∨ RequestsFirst new)
    (carries : ∀ y, new.countP (Instr.carries c.shared y) = if y = x then 1 else 0)
    (quiet : ∀ y, .completeAllItemOps y ∉ new)
    (goes : (Settled s ∧ ∀ j ∈ new, j.ofItem = false) ∨ ∃ i, new = [i] ∧ Doing s i) :
    Invariant (c.put (.item x) s new) (.item x :: stack) := by
  refine handler_keeps inv out idle known emitted ops completions stop requests
    (fun y member => absurd member (quiet y)) goes (fun y => ?_) fun z member => .inl ⟨zipped ▸ member,by simp⟩
  simp only [carries,completed,kept,runningWith,completions,queues,emitted,zipped,List.mem_append,List.mem_singleton]
  by_cases same : y = x
  · subst same
    simp [fresh]
  · simp [same]

/-- The receiver of a tuple is called: its handler has the items of the tuple. -/
theorem zipped_keeps {x : Item n} (inv : Invariant c stack) (settled : Settled c.shared) (out : Outside isCallout c stack)
    (idle : c.threads (.zipped x) = []) (running : x ∈ c.shared.emitted.map (·.trigger))
    (fresh : x ∉ c.shared.completedZipped) (requests : c.shared.stopRequested = true ∨ RequestsFirst new)
    (ofItem : ∀ j ∈ new, j.ofItem = false) (only : ∀ y, .completeAllItemOps y ∈ new ↔ y = x)
    (carries : ∀ y, new.countP (Instr.carries c.shared y) =
      if (.completeAllItemOps x : Instr n Value Error).carries c.shared y then 1 else 0) :
    Invariant (c.put (.zipped x) { c.shared with completedZipped := c.shared.completedZipped ++ [x] } new)
      (.zipped x :: stack) := by
  have known := inv.known
  refine handler_keeps inv out idle
    ⟨known.arrived,known.distinct,known.begins,known.queued,known.ops,known.held,fun z member => ?_⟩ rfl rfl rfl rfl
    requests (fun y member => (only y).mp member ▸ running)
    (.inl ⟨⟨⟨settled.counter,settled.few⟩,settled.paired⟩,ofItem⟩) (fun y => ?_) fun z member => ?_
  · rcases List.mem_append.mp member with before | last
    · exact known.running z before
    · exact List.mem_singleton.mp last ▸ running
  · have count := runningWith_complete known.triggers_distinct (fun e member => (known.held e member).1) running fresh y
    simp only [carries,kept] at count ⊢
    omega
  · rcases List.mem_append.mp member with before | last
    · exact .inl ⟨before,by simp only [ne_eq,Party.zipped.injEq]; rintro rfl; exact fresh before⟩
    · obtain rfl := List.mem_singleton.mp last
      exact .inr ⟨rfl,(only z).mpr rfl⟩

theorem call_keeps {e : Event n Value Error} (inv : Invariant c stack) (out : Outside isCallout c stack)
    (idle : c.threads ((machine n Value none).party e) = [])
    (raised : Raised c.shared e s new) :
    Invariant (c.put ((machine n Value none).party e) s new) ((machine n Value none).party e :: stack) := by
  obtain ⟨settled,_⟩ := inv.outside out
  have known := inv.known
  cases raised with
  | start =>
    refine event_keeps inv settled out idle (by simp [machine]) rfl rfl rfl rfl rfl rfl rfl rfl rfl rfl (.inr ?_) ?_
    · exact requestsFirst_of_plain (by simp)
    · simp [Instr.ofItem,Instr.carries]
  | setNext x =>
    exact event_keeps inv settled out idle (by simp [machine]) rfl rfl rfl rfl rfl rfl rfl rfl rfl rfl (.inr trivial) (by simp)
  | itemValue x v started fresh =>
    have absent : ∀ i, ∀ a ∈ c.shared.arrived i, a.1 ≠ x := fun i a member same =>
      fresh (same ▸ (known.arrived i a member).2)
    have arrivals : ∀ i, Function.update c.shared.arrived x.index (c.shared.arrived x.index ++ [(x,v)]) i =
        c.shared.arrived i ++ if i = x.index then [(x,v)] else [] := by
      intro i
      by_cases same : i = x.index
      · subst same; simp
      · simp [same]
    refine item_keeps inv out idle ?_ fresh rfl rfl rfl rfl rfl rfl rfl (.inr trivial)
      (fun y => by simp [itemSetValue,Instr.carries,List.countP_cons,eq_comm]) (by simp [itemSetValue])
      (.inr ⟨_,rfl,.emplaceResult x v ⟨settled.counter,settled.few⟩ ?_⟩)
    · constructor
      · intro i a member
        simp only [arrivals,List.mem_append] at member
        rcases member with before | last
        · exact ⟨(known.arrived i a before).1,List.mem_append_left _ (known.arrived i a before).2⟩
        · split at last
          next same => obtain rfl := List.mem_singleton.mp last; exact ⟨same.symm,by simp⟩
          next => cases last
      · intro i
        simp only [arrivals,List.map_append]
        refine List.nodup_append.mpr ⟨known.distinct i,by split <;> simp,?_⟩
        intro y before z last
        obtain ⟨a,member,rfl⟩ := List.mem_map.mp before
        split at last
        next => simp at last; subst last; exact absent i a member
        next => cases last
      · intro i
        simp only [arrivals]
        exact (known.begins i).trans (List.prefix_append _ _)
      · exact known.queued
      · exact known.ops
      · exact known.held
      · exact known.running
    · intro calm i
      have := settled.paired calm i
      simp only [arrivals,List.map_append,this]
      by_cases same : i = x.index <;> simp [same,tuples,waiting,stored]
  | itemError x e started fresh =>
    refine item_keeps inv out idle ⟨?_,known.distinct,known.begins,known.queued,known.ops,known.held,known.running⟩
      fresh rfl rfl rfl rfl rfl rfl rfl (.inr trivial)
      (fun y => by simp [itemSetError,notifyError,notifyStop,Instr.carries,List.countP_cons,eq_comm])
      (by simp [itemSetError,notifyError,notifyStop])
      (.inl ⟨⟨⟨settled.counter,settled.few⟩,settled.paired⟩,by simp [itemSetError,notifyError,notifyStop,Instr.ofItem]⟩)
    exact fun i a member => ⟨(known.arrived i a member).1,List.mem_append_left _ (known.arrived i a member).2⟩
  | itemStopped x started fresh =>
    refine item_keeps inv out idle ⟨?_,known.distinct,known.begins,known.queued,known.ops,known.held,known.running⟩
      fresh rfl rfl rfl rfl rfl rfl rfl (.inr trivial)
      (fun y => by simp [itemSetStopped,notifyStop,Instr.carries,List.countP_cons,eq_comm])
      (by simp [itemSetStopped,notifyStop])
      (.inl ⟨⟨⟨settled.counter,settled.few⟩,settled.paired⟩,by simp [itemSetStopped,notifyStop,Instr.ofItem]⟩)
    exact fun i a member => ⟨(known.arrived i a member).1,List.mem_append_left _ (known.arrived i a member).2⟩
  | zippedValue x running fresh =>
    exact zipped_keeps inv settled out idle running fresh (.inr trivial) (by simp [zippedSetValue,Instr.ofItem])
      (by simp [zippedSetValue]) (by simp [zippedSetValue,List.countP_singleton])
  | zippedStopped x running fresh =>
    exact zipped_keeps inv settled out idle running fresh (.inr trivial)
      (by simp [zippedSetStopped,notifyStop,Instr.ofItem]) (by simp [zippedSetStopped,notifyStop])
      (fun y => by simp [zippedSetStopped,notifyStop,List.countP_cons,Instr.carries])
  | childCompletes k signal =>
    exact event_keeps inv settled out idle (by simp [machine]) rfl rfl rfl rfl rfl rfl rfl rfl rfl rfl (.inr trivial)
      (by simp [childComplete,Instr.ofItem,Instr.carries])
  | outerStop =>
    refine event_keeps inv settled out idle (by simp [machine]) rfl rfl rfl rfl rfl rfl rfl rfl rfl rfl (.inr ?_) ?_
    · split <;> trivial
    · split <;> simp [Instr.ofItem,Instr.carries]

/-! ### Single-threaded runs -/

theorem initial_invariant (positive : 0 < n) : Invariant (initial n Value Error) [] where
  known := by constructor <;> simp [initial,tuples]
  off := by simp [initial]
  distinct := List.nodup_nil
  below := by simp
  top := by
    refine .inl ⟨⟨⟨?_,?_⟩,?_⟩,by simp⟩
    · simp [initial,nonEmpty]
    · simpa [initial,nonEmpty] using positive
    · intro _ i
      simp [initial,tuples,waiting]
  requests p := .inr (by simp [initial,RequestsFirst])
  completing := by simp [initial]
  placed y := by simp [places,kept,runningWith,initial]
  finished := by simp [initial]

theorem nested_invariant (positive : 0 < n)
    (nested : Nested (machine n Value none) isCallout Any (initial n Value Error) c stack) : Invariant c stack :=
  nested.invariant (I := Invariant) (initial_invariant positive)
    (fun _ _ _ _ _ _ _ inv _ left ran => run_keeps positive inv left (ran_of_mem ran))
    (fun _ _ _ inv idle => finish_keeps inv idle)
    (fun _ _ _ _ _ inv out _ idle accepted => call_keeps inv out idle (raised_of_accept accepted))

/-- On a single thread: the tuples are made of the first items of every child in
    the order in which these completed, with their values, and no item is in two
    tuples; no item is completed twice, and the items of a tuple whose zipped
    operation has completed and whose handler has returned are completed exactly
    once; and whenever control is outside of the handlers, the counter is the
    number of queues that hold an item, and some queue is empty. -/
theorem zip_pairs_items (positive : 0 < n)
    (nested : Nested (machine n Value none) isCallout Any (initial n Value Error) c stack) :
    (∀ i, (c.shared.emitted.map fun e => (e.itemOps i,e.values i)) <+: c.shared.arrived i) ∧
    (∀ i, (c.shared.emitted.map (·.itemOps i)).Nodup ∧ ∀ e ∈ c.shared.emitted, (e.itemOps i).index = i) ∧
    (∀ x, (c.shared.itemCompletions.map (·.1)).count x ≤ 1) ∧
    (∀ e ∈ c.shared.emitted, e.trigger ∈ c.shared.completedZipped → .zipped e.trigger ∉ stack →
      ∀ i, (c.shared.itemCompletions.map (·.1)).count (e.itemOps i) = 1) ∧
    (Outside isCallout c stack → c.shared.nReadyNextItems = (nonEmpty c.shared).card ∧ c.shared.nReadyNextItems < n) := by
  have inv := nested_invariant positive nested
  have once : ∀ x, (c.shared.itemCompletions.map (·.1)).count x ≤ 1 := by
    intro x
    have placed := inv.placed x
    simp only [places,kept] at placed
    split at placed <;> omega
  refine ⟨inv.known.begins,?_,once,?_,?_⟩
  · intro i
    have begins := inv.known.begins i
    constructor
    · have firsts := begins.map (·.1)
      rw [tuples,List.map_map] at firsts
      exact firsts.sublist.nodup (inv.known.distinct i)
    · intro e member
      exact (inv.known.arrived i _ (begins.subset (List.mem_map_of_mem member))).1
  · intro e member done returned i
    have idle := inv.off _ returned
    have completed := inv.finished e member done i
    rw [idle] at completed
    have present : e.itemOps i ∈ c.shared.itemCompletions.map (·.1) := by simpa using completed
    have := List.count_pos_iff.mpr present
    have := once (e.itemOps i)
    omega
  · intro out
    obtain ⟨settled,_⟩ := inv.outside out
    have few := settled.few
    have counter := settled.counter
    exact ⟨counter,by omega⟩

/-- Two children of one item each, with a zipped operation that completes while
    it is started. -/
theorem zip_pairs_items_inline : ∃ c stack,
    Nested (machine 2 Nat none) isCallout Any (initial 2 Nat Nat) c stack ∧
    (c.shared.emitted.map fun e => (e.values 0,e.values 1)) = [(3,4)] ∧ stack = [] ∧
    ∀ e ∈ c.shared.emitted, e.trigger ∈ c.shared.completedZipped → .zipped e.trigger ∉ stack →
      ∀ i, (c.shared.itemCompletions.map (·.1)).count (e.itemOps i) = 1 := by
  obtain ⟨c,stack,nested,found⟩ := exists_of_followNested (machine 2 Nat (none : Option Nat)) isCallout Any
    (initial 2 Nat Nat) (fun _ _ => true) (fun _ _ _ => trivial)
    (List.flatten [[.call .start 0],List.replicate 5 (.run 0),[.finish,.call (.setNext ⟨0,0⟩) 0,.finish],
      [.call (.itemValue ⟨0,0⟩ 3) 0],List.replicate 4 (.run 0),[.finish,.call (.setNext ⟨1,0⟩) 0,.finish],
      [.call (.itemValue ⟨1,0⟩ 4) 0],List.replicate 9 (.run 0),[.call (.zippedValue ⟨1,0⟩) 0],
      List.replicate 5 (.run 0),[.finish,.run 0,.finish]])
    (fun c stack => (c.shared.emitted.map fun e => (e.values 0,e.values 1)) = [(3,4)] && stack.isEmpty) (by decide)
  simp only [Bool.and_eq_true,decide_eq_true_eq,List.isEmpty_iff] at found
  exact ⟨c,stack,nested,found.1,found.2,(zip_pairs_items (by decide) nested).2.2.2.1⟩

end SendersIo.ZipPairing
