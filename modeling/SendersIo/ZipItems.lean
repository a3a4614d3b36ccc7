import SendersIo.ZipPairing
import SendersIo.ZipTrigger

/-!
What becomes of an item when any number of threads run the handlers. An item
that completed is at one place: in the handler of its value, in a queue, in a
tuple, about to be completed, or completed; at two places if storing its value
threw, because the handler of the exception goes on to the test of the stop
flag. `notify_stop` takes every queued item along as long as it does not meet a
thread that has tested the stop flag and not pushed yet, and after that all
queues stay empty.
-/
namespace SendersIo.Zip
variable {n : Nat} {Value Error : Type}

/-- The instructions that rely on the queues as a test before them found them. -/
def Instr.exposed : Instr n Value Error → Bool
  | .pushBack _ | .collectResults _ | .popFronts _ _ | .startNext _ => true
  | .startZipped _ _ next => next
  | _ => false

/-- The item whose popped tuple is not emitted yet. -/
def Instr.popped : Instr n Value Error → Option (Item n)
  | .checkStop x _ | .recount x _ | .startZipped x _ _ => some x
  | _ => none

/-- The item that collects the front items. -/
def Instr.collecting : Instr n Value Error → Option (Item n)
  | .collectResults x | .popFronts x _ => some x
  | _ => none

/-- The critical section of `notify_stop`. -/
def Instr.drains : Instr n Value Error → Bool
  | .clearQueues => true
  | _ => false

/-- The call of `complete_` of the item. -/
def Instr.completes (x : Item n) : Instr n Value Error → Bool
  | .complete y => y = x
  | _ => false

end SendersIo.Zip

namespace SendersIo.ZipItems
open SendersIo.Interleaving SendersIo.Signals SendersIo.Zip SendersIo.ZipPairing
set_option linter.unusedSimpArgs false

variable {n : Nat} {Value Error : Type}

/-- `notify_stop` clears the queues only while nobody is between the test of the
    stop flag and the push, between the observation of `n - 1` and the removal of
    the front items, or between the count that found all queues non-empty and the
    announcement after it; and the queues are counted anew only while the front
    items that are there have been announced. -/
def Careful (c : Config (Party n) (OperationBase n Value Error) (Instr n Value Error)) :
    Label (Party n) (Event n Value Error) → Prop
  | .run p =>
    match c.threads p with
    | .clearQueues :: _ => ∀ q, ∀ i ∈ c.threads q, i.exposed = false
    | .recount _ _ :: _ => ∀ i x, (c.shared.queues i).head? = some x → ∀ q, .notifyResultCompletion x ∉ c.threads q
    | _ => True
  | .call _ => True

/-- The handler of an exception requests the stop before it tests the stop flag. -/
def StopsFirst (x : Item n) : List (Instr n Value Error) → Prop
  | [] => True
  | .requestStop :: _ => True
  | .testStop y :: rest => y ≠ x ∧ StopsFirst x rest
  | _ :: rest => StopsFirst x rest

/-! ### The invariant -/

section
variable (s : OperationBase n Value Error) (threw : List (Item n)) (p : Party n)

/-- What the state says about an item whose party is at an instruction. -/
def Fits : Instr n Value Error → Prop
  | .emplaceResult x v =>
    p = .item x ∧ x ∉ s.pushed ∧ (x,v) ∈ s.arrived x.index ∧ s.result x = none ∧ x ∉ threw
  | .testStop x => p = .item x ∧ x ∉ s.pushed
  | .pushBack x => p = .item x ∧ x ∉ s.pushed ∧ x ∉ threw
  | .collectResults x | .popFronts x _ => (s.queues x.index).head? = some x
  | .checkStop x _ | .recount x _ | .startZipped x _ _ => s.itemOps x ≠ none ∧ x ∉ s.emitted.map (·.trigger)
  | .completeAllItemOps x => s.itemOps x ≠ none
  | .setStopped x => x ∉ s.pushed
  | _ => True

end

/-- All queues have been drained, and nobody will touch them any more. -/
structure Drained (c : Config (Party n) (OperationBase n Value Error) (Instr n Value Error)) : Prop where
  stopped : c.shared.stopRequested = true
  empty : ∀ i, c.shared.queues i = []
  closed : ∀ p, ∀ i ∈ c.threads p, i.exposed = false

/-- What the state records about the items and the tuples. -/
structure Recorded (s : OperationBase n Value Error) : Prop where
  queued : ∀ i, ∀ x ∈ s.queues i, x.index = i ∧ x ∈ s.pushed ∧ s.itemOps x = none
  ops : ∀ x ops, s.itemOps x = some ops → x ∈ s.pushed ∧ ops x.index = x ∧ ∀ i, (ops i).index = i
  emitted : ∀ e ∈ s.emitted, s.itemOps e.trigger = some e.itemOps
  triggers : (s.emitted.map (·.trigger)).Nodup
  zipped : ∀ x ∈ s.completedZipped, x ∈ s.emitted.map (·.trigger)
  arrived : ∀ i, ∀ a ∈ s.arrived i, a.1 ∈ s.completedItems
  results : ∀ x, s.result x ≠ none → x ∈ s.completedItems
  pushed : ∀ x ∈ s.pushed, x ∈ s.completedItems

/-- Where the items are. `threw` are those whose value could not be stored, and
    `parties` are all that have something left. -/
structure Items (threw : List (Item n)) (parties : Finset (Party n))
    (c : Config (Party n) (OperationBase n Value Error) (Instr n Value Error)) : Prop where
  recorded : Recorded c.shared
  throwing : ∀ x ∈ threw, x ∉ c.shared.pushed ∧ (∃ v, (x,v) ∈ c.shared.arrived x.index) ∧ c.shared.result x = none
  stopping : ∀ x ∈ threw, c.shared.stopRequested = true ∨ ∀ p, StopsFirst x (c.threads p)
  stored : ∀ x v, (x,v) ∈ c.shared.arrived x.index →
    x ∈ threw ∨ c.shared.result x ≠ none ∨ ∃ p w, .emplaceResult x w ∈ c.threads p
  fits : ∀ p, ∀ i ∈ c.threads p, Fits c.shared threw p i
  requests : ∀ p, c.shared.stopRequested = true ∨ RequestsFirst (c.threads p)
  idle : ∀ p ∉ parties, c.threads p = []
  placed : ∀ y, kept c.shared y + c.total parties (List.countP (Instr.carries c.shared y)) =
    if y ∈ c.shared.completedItems then if y ∈ threw then 2 else 1 else 0

variable {s s' : OperationBase n Value Error} {c : Config (Party n) (OperationBase n Value Error) (Instr n Value Error)}
  {p q : Party n} {i j : Instr n Value Error} {new rest : List (Instr n Value Error)} {x y : Item n}
  {threw : List (Item n)} {parties : Finset (Party n)} {exception : Option Error}

theorem fits_congr (pushed : s'.pushed = s.pushed) (arrived : s'.arrived = s.arrived) (result : s'.result = s.result)
    (queues : s'.queues = s.queues) (ops : s'.itemOps = s.itemOps) (emitted : s'.emitted = s.emitted)
    (fits : Fits s threw p i) : Fits s' threw p i := by
  cases i <;> first
    | exact trivial
    | simpa only [Fits,pushed,arrived,result,queues,ops,emitted] using fits

/-- An instruction that stays where it is while a party executes another one. -/
def Stays (c : Config (Party n) (OperationBase n Value Error) (Instr n Value Error)) (p : Party n)
    (rest : List (Instr n Value Error)) (q : Party n) (j : Instr n Value Error) : Prop :=
  q ≠ p ∧ j ∈ c.threads q ∨ q = p ∧ j ∈ rest

theorem Stays.mem (left : c.threads p = i :: rest) (stays : Stays c p rest q j) : j ∈ c.threads q := by
  rcases stays with ⟨_,member⟩ | ⟨rfl,member⟩
  · exact member
  · exact left ▸ List.mem_cons_of_mem i member

theorem stays_or_new (member : j ∈ (c.put p s (new ++ rest)).threads q) : Stays c p rest q j ∨ q = p ∧ j ∈ new := by
  rw [put_threads] at member
  split at member
  · rename_i here
    rcases List.mem_append.mp member with first | later
    · exact .inr ⟨here,first⟩
    · exact .inl (.inr ⟨here,later⟩)
  · rename_i other
    exact .inl (.inl ⟨other,member⟩)

/-- An item that is carried by the next instruction of a party and did not throw
    is nowhere else. -/
theorem Items.alone (items : Items threw parties c) (left : c.threads p = i :: rest)
    (carried : i.carries c.shared y = true) (stored : y ∉ threw) :
    kept c.shared y = 0 ∧ y ∈ c.shared.completedItems ∧ ∀ q j, Stays c p rest q j → j.carries c.shared y = false := by
  have placed := items.placed y
  have here := size_le_total (w := List.countP (Instr.carries c.shared y)) rfl items.idle p
  rw [left,List.countP_cons,if_pos carried] at here
  have done : y ∈ c.shared.completedItems := by
    by_contra absent
    rw [if_neg absent] at placed
    omega
  rw [if_pos done,if_neg stored] at placed
  refine ⟨by omega,done,?_⟩
  intro q j stays
  by_contra carries
  rw [Bool.not_eq_false] at carries
  rcases stays with ⟨other,member⟩ | ⟨rfl,member⟩
  · have both := size_add_le_total (w := List.countP (Instr.carries c.shared y)) rfl items.idle other
    have there := List.countP_pos_iff.mpr ⟨j,member,carries⟩
    rw [left,List.countP_cons,if_pos carried] at both
    omega
  · have there := List.countP_pos_iff.mpr ⟨j,member,carries⟩
    omega

/-- A step moves an item from place to place. -/
theorem Items.placed_put (items : Items threw parties c) (left : c.threads p = i :: rest) (extra : Nat)
    (stable : ∀ q j, Stays c p rest q j → j.carries s y = j.carries c.shared y)
    (moved : kept s y + new.countP (Instr.carries s y) =
      kept c.shared y + (if i.carries c.shared y then 1 else 0) + extra) :
    kept s y + (c.put p s (new ++ rest)).total (insert p parties) (List.countP (Instr.carries s y)) =
      kept c.shared y + c.total parties (List.countP (Instr.carries c.shared y)) + extra := by
  have total := total_put p s (new ++ rest) (w := List.countP (Instr.carries c.shared y))
    (v := List.countP (Instr.carries s y)) rfl items.idle
    (fun q other => List.countP_congr fun j member => by rw [stable q j (.inl ⟨other,member⟩)])
  have same : rest.countP (Instr.carries s y) = rest.countP (Instr.carries c.shared y) :=
    List.countP_congr fun j member => by rw [stable p j (.inr ⟨rfl,member⟩)]
  rw [left,List.countP_cons,List.countP_append,same] at total
  omega

/-! ### The order of the stop request and what depends on it -/

theorem stopsFirst_append (plain : ∀ j ∈ new, j ≠ .testStop x) (first : StopsFirst x rest) :
    StopsFirst x (new ++ rest) := by
  induction new with
  | nil => exact first
  | cons j new ih =>
    have later := ih fun k member => plain k (List.mem_cons_of_mem j member)
    have other := plain j List.mem_cons_self
    cases j <;> first
      | exact trivial
      | exact later
      | exact ⟨fun same => other (congrArg Instr.testStop same),later⟩

theorem stopsFirst_of_absent (absent : ∀ j ∈ rest, j ≠ .testStop x) : StopsFirst x rest :=
  List.append_nil rest ▸ stopsFirst_append absent trivial

/-- What a party has left after a step keeps the order. -/
def Ordered (threw : List (Item n)) (before after : List (Instr n Value Error)) : Prop :=
  (RequestsFirst before → RequestsFirst after) ∧ ∀ x ∈ threw, StopsFirst x before → StopsFirst x after

theorem ordered_of_plain (other : i ≠ .requestStop)
    (plain : ∀ j ∈ new, j ≠ .clearQueues ∧ ∀ y ∈ threw, j ≠ .testStop y) : Ordered threw (i :: rest) (new ++ rest) := by
  constructor
  · intro first
    refine requestsFirst_append (fun j member => (plain j member).1) ?_
    cases i <;> first | exact first | exact first.elim | exact absurd rfl other
  · intro x thrown first
    refine stopsFirst_append (fun j member => (plain j member).2 x thrown) ?_
    cases i <;> first | exact first | exact first.2 | exact absurd rfl other

/-- The stop is still requested first, by the party that takes a step as by the others. -/
theorem Items.requests_put (items : Items threw parties c) (s : OperationBase n Value Error)
    (new : List (Instr n Value Error)) (left : c.threads p = i :: rest)
    (stop : c.shared.stopRequested = true → s.stopRequested = true)
    (order : s.stopRequested = true ∨ Ordered threw (i :: rest) (new ++ rest)) :
    (∀ q, s.stopRequested = true ∨ RequestsFirst ((c.put p s (new ++ rest)).threads q)) ∧
    ∀ x ∈ threw, s.stopRequested = true ∨ ∀ q, StopsFirst x ((c.put p s (new ++ rest)).threads q) := by
  rcases order with stopped | order
  · exact ⟨fun _ => .inl stopped,fun _ _ => .inl stopped⟩
  · constructor
    · intro q
      rw [put_threads]
      split
      · exact (left ▸ items.requests p).imp stop order.1
      · exact (items.requests q).imp_left stop
    · intro x member
      refine (items.stopping x member).imp stop fun stops q => ?_
      rw [put_threads]
      split
      · exact order.2 x member (left ▸ stops p)
      · exact stops q

/-- A value that is being stored is being stored after a step of something else. -/
theorem Items.stored_put (items : Items threw parties c) (left : c.threads p = i :: rest)
    (arrived : s.arrived = c.shared.arrived) (result : ∀ x, c.shared.result x ≠ none → s.result x ≠ none)
    (other : ∀ v, i ≠ .emplaceResult x v) {v : Value} (came : (x,v) ∈ s.arrived x.index) :
    x ∈ threw ∨ s.result x ≠ none ∨ ∃ q w, .emplaceResult x w ∈ (c.put p s (new ++ rest)).threads q := by
  rcases items.stored x v (arrived ▸ came) with out | there | ⟨q,w,member⟩
  · exact .inl out
  · exact .inr (.inl (result x there))
  · exact .inr (.inr ⟨q,w,mem_put_of_ne left member (fun here => other w here.symm)⟩)

theorem fits_put (old : ∀ q j, Stays c p rest q j → Fits s threw q j) (fresh : ∀ j ∈ new, Fits s threw p j) :
    ∀ q, ∀ j ∈ (c.put p s (new ++ rest)).threads q, Fits s threw q j := by
  intro q j member
  rcases stays_or_new member with stays | ⟨rfl,here⟩
  · exact old q j stays
  · exact fresh j here

/-! ### Steps that leave the items where the state has them -/

/-- The parts of the state that say where the items are. -/
structure Same (s s' : OperationBase n Value Error) : Prop where
  queues : s'.queues = s.queues
  pushed : s'.pushed = s.pushed
  arrived : s'.arrived = s.arrived
  result : s'.result = s.result
  ops : s'.itemOps = s.itemOps
  emitted : s'.emitted = s.emitted
  completed : s'.completedItems = s.completedItems
  zipped : s'.completedZipped = s.completedZipped

theorem Same.fits (same : Same s s') (fits : Fits s threw p i) : Fits s' threw p i :=
  fits_congr same.pushed same.arrived same.result same.queues same.ops same.emitted fits

theorem Same.recorded (same : Same s s') (recorded : Recorded s) : Recorded s' := by
  obtain ⟨queues,pushed,arrived,result,ops,emitted,completed,zipped⟩ := same
  constructor <;> simp only [queues,pushed,arrived,result,ops,emitted,completed,zipped]
  · exact recorded.queued
  · exact recorded.ops
  · exact recorded.emitted
  · exact recorded.triggers
  · exact recorded.zipped
  · exact recorded.arrived
  · exact recorded.results
  · exact recorded.pushed

theorem Items.same (items : Items threw parties c) (left : c.threads p = i :: rest) (same : Same c.shared s)
    (stop : c.shared.stopRequested = true → s.stopRequested = true) (other : ∀ x v, i ≠ .emplaceResult x v)
    (order : s.stopRequested = true ∨ Ordered threw (i :: rest) (new ++ rest)) (fresh : ∀ j ∈ new, Fits c.shared threw p j)
    (moved : ∀ y, kept s y + new.countP (Instr.carries s y) =
      kept c.shared y + if i.carries c.shared y then 1 else 0) :
    Items threw (insert p parties) (c.put p s (new ++ rest)) := by
  obtain ⟨requests,stopping⟩ := items.requests_put _ _ left stop order
  refine ⟨same.recorded items.recorded,?_,stopping,?_,?_,requests,idle_put items.idle,?_⟩
  · simpa only [put_shared,same.pushed,same.arrived,same.result] using items.throwing
  · intro x v came
    exact items.stored_put left same.arrived (by simp [same.result]) (other x) came
  · exact fits_put (fun q j stays => same.fits (items.fits q j (stays.mem left)))
      (fun j member => same.fits (fresh j member))
  · intro y
    rw [put_shared,same.completed,← items.placed y]
    exact items.placed_put left 0 (fun q j _ => by rw [carries_congr same.ops]) (moved y)

theorem quiet_fits (quiet : i.ofItem = false) (ran : Ran exception s i s' new) : ∀ j ∈ new, Fits s threw p j := by
  cases ran <;> simp only [Instr.ofItem,Bool.true_eq_false] at quiet
  case completeAllItemOps x ops held =>
    intro j member
    obtain ⟨_,rfl⟩ := mem_completeAll.mp member
    trivial
  case clearQueues =>
    intro j member
    obtain ⟨_,_,_,rfl⟩ := mem_completeQueues.mp member
    trivial
  case fetchSub k signal =>
    cases signal <;> by_cases more : s.nPendingOperations > 1 <;> simp [more,notLast,notifyError,notifyStop,Fits]
  case emplaceStopCallback => by_cases requested : s.outerStopRequested <;> simp [requested,Fits]
  all_goals simp [Fits]

/-- The handlers outside of `item_receiver::set_value` keep the order. -/
theorem quiet_ordered (quiet : i.ofItem = false) (ran : Ran exception s i s' new) :
    s'.stopRequested = true ∨ Ordered threw (i :: rest) (new ++ rest) := by
  by_cases request : i = .requestStop
  · subst request
    cases ran
    exact .inl rfl
  · right
    cases ran <;> simp only [Instr.ofItem,Bool.true_eq_false] at quiet
    case fetchSub k signal =>
      by_cases more : s.nPendingOperations > 1
      · rw [if_pos more]
        cases signal <;> exact ⟨fun _ => trivial,fun _ _ _ => trivial⟩
      · rw [if_neg more]
        exact ordered_of_plain request (by simp)
    case completeAllItemOps x ops held =>
      refine ordered_of_plain request (fun j member => ?_)
      obtain ⟨_,rfl⟩ := mem_completeAll.mp member
      simp
    case clearQueues =>
      refine ordered_of_plain request (fun j member => ?_)
      obtain ⟨_,_,_,rfl⟩ := mem_completeQueues.mp member
      simp
    case emplaceStopCallback =>
      refine ordered_of_plain request ?_
      split <;> simp
    all_goals exact ordered_of_plain request (by simp)

theorem Items.quiet (items : Items threw parties c) (left : c.threads p = i :: rest)
    (careful : i = .clearQueues → ∀ q, ∀ j ∈ c.threads q, j.exposed = false)
    (quiet : i.ofItem = false) (ran : Ran exception c.shared i s new) :
    Items threw (insert p parties) (c.put p s (new ++ rest)) := by
  obtain ⟨emitted,arrived,result,ops,completed,zipped,stop,_,cleared⟩ := quiet_shared quiet ran
  have pushed := (ZipTrigger.ran_other quiet ran).2.1
  have other : ∀ x v, i ≠ .emplaceResult x v := by
    rintro x v rfl
    cases quiet
  have moved := fun y => (quiet_moves (fun x ops held => (items.recorded.ops x ops held).2.2)
    (fun i x member => (items.recorded.queued i x member).1) quiet ran y).2
  rcases cleared with ⟨rfl,empty,_⟩ | ⟨queues,_⟩
  · obtain ⟨requests,stopping⟩ := items.requests_put _ _ left stop (quiet_ordered quiet ran)
    refine ⟨?_,?_,stopping,?_,?_,requests,idle_put items.idle,?_⟩
    · constructor <;> simp only [put_shared,pushed,arrived,result,ops,emitted,completed,zipped,empty]
      · simp
      · exact items.recorded.ops
      · exact items.recorded.emitted
      · exact items.recorded.triggers
      · exact items.recorded.zipped
      · exact items.recorded.arrived
      · exact items.recorded.results
      · exact items.recorded.pushed
    · simpa only [put_shared,pushed,arrived,result] using items.throwing
    · intro x v came
      exact items.stored_put left arrived (by simp [result]) (other x) came
    · refine fits_put ?_ ?_
      · -- nobody relies on the queues that are cleared
        intro q j stays
        have apart := careful rfl q j (stays.mem left)
        have fits := items.fits q j (stays.mem left)
        cases j <;> first
          | exact trivial
          | (cases apart; done)
          | simpa only [Fits,pushed,arrived,result,ops,emitted] using fits
      · cases ran
        intro j member
        obtain ⟨_,_,_,rfl⟩ := mem_completeQueues.mp member
        trivial
    · intro y
      rw [put_shared,completed,← items.placed y]
      exact items.placed_put left 0 (fun q j _ => by rw [carries_congr ops]) (moved y)
  · exact items.same left ⟨queues,pushed,arrived,result,ops,emitted,completed,zipped⟩ stop other
      (quiet_ordered quiet ran) (quiet_fits quiet ran) moved

/-! ### The steps of `item_receiver::set_value` -/

theorem kept_congr (queues : s'.queues = s.queues) (emitted : s'.emitted = s.emitted)
    (zipped : s'.completedZipped = s.completedZipped) (completions : s'.itemCompletions = s.itemCompletions) (y : Item n) :
    kept s' y = kept s y := by
  simp only [kept,runningWith,queues,emitted,zipped,completions]

theorem emplace_items (items : Items threw parties c) {v : Value} (left : c.threads p = .emplaceResult x v :: rest)
    (result : s.result = Function.update c.shared.result x (some v)) (queues : s.queues = c.shared.queues)
    (pushed : s.pushed = c.shared.pushed) (arrived : s.arrived = c.shared.arrived) (ops : s.itemOps = c.shared.itemOps)
    (emitted : s.emitted = c.shared.emitted) (completed : s.completedItems = c.shared.completedItems)
    (zipped : s.completedZipped = c.shared.completedZipped) (stop : s.stopRequested = c.shared.stopRequested)
    (completions : s.itemCompletions = c.shared.itemCompletions) :
    Items threw (insert p parties) (c.put p s ([.testStop x] ++ rest)) := by
  obtain ⟨party,out,came,_,fresh⟩ := items.fits p _ (left ▸ List.mem_cons_self)
  obtain ⟨_,done,elsewhere⟩ := items.alone (y := x) left (by simp [Instr.carries]) fresh
  have here : s.result x = some v := by simp [result]
  have others : ∀ y, y ≠ x → s.result y = c.shared.result y := fun y other => by simp [result,other]
  obtain ⟨requests,stopping⟩ := items.requests_put s [.testStop x] left (by simp [stop])
    (.inr (ordered_of_plain (by simp) (by
      intro j member
      obtain rfl := List.mem_singleton.mp member
      exact ⟨by simp,fun y thrown same => fresh ((Instr.testStop.inj same) ▸ thrown)⟩)))
  refine ⟨?_,?_,stopping,?_,?_,requests,idle_put items.idle,?_⟩
  · constructor <;> simp only [put_shared,queues,pushed,arrived,ops,emitted,completed,zipped]
    · exact items.recorded.queued
    · exact items.recorded.ops
    · exact items.recorded.emitted
    · exact items.recorded.triggers
    · exact items.recorded.zipped
    · exact items.recorded.arrived
    · intro y there
      by_cases same : y = x
      · exact same ▸ done
      · exact items.recorded.results y (others y same ▸ there)
    · exact items.recorded.pushed
  · intro y thrown
    have other : y ≠ x := fun same => fresh (same ▸ thrown)
    rw [put_shared,pushed,arrived,others y other]
    exact items.throwing y thrown
  · intro y w there
    by_cases same : y = x
    · rw [put_shared,same,here]
      exact .inr (.inl (by simp))
    · refine items.stored_put left arrived (fun z some => ?_) (fun u is => same (Instr.emplaceResult.inj is).1.symm) there
      rw [put_shared]
      by_cases at_x : z = x
      · rw [at_x,here]; simp
      · rwa [others z at_x]
  · refine fits_put ?_ (by simp [Fits,pushed,party,out])
    intro q j stays
    have fits := items.fits q j (stays.mem left)
    have apart := elsewhere q j stays
    cases j with
    | emplaceResult y w =>
      have other : y ≠ x := fun same => by simp [Instr.carries,same] at apart
      simpa only [Fits,pushed,arrived,others y other] using fits
    | _ => first
      | exact trivial
      | simpa only [Fits,pushed,arrived,queues,ops,emitted] using fits
  · intro y
    rw [put_shared,completed,← items.placed y]
    refine items.placed_put left 0 (fun q j _ => by rw [carries_congr ops]) ?_
    rw [kept_congr queues emitted zipped completions]
    simp [Instr.carries]

/-- The handler of the exception completes the item, and so does the test of the
    stop flag after it. -/
theorem emplaceThrows_items (items : Items threw parties c) {v : Value} {e : Error}
    (left : c.threads p = .emplaceResult x v :: rest) (same : Same c.shared s)
    (stop : s.stopRequested = c.shared.stopRequested) (completions : s.itemCompletions = c.shared.itemCompletions) :
    Items (x :: threw) (insert p parties) (c.put p s ((notifyError e ++ [.setStopped x,.testStop x]) ++ rest)) := by
  obtain ⟨party,out,came,unset,fresh⟩ := items.fits p _ (left ▸ List.mem_cons_self)
  obtain ⟨_,done,elsewhere⟩ := items.alone (y := x) left (by simp [Instr.carries]) fresh
  have order : Ordered threw (.emplaceResult x v :: rest) ((notifyError e ++ [.setStopped x,.testStop x]) ++ rest) :=
    ⟨fun _ => trivial,fun _ _ _ => trivial⟩
  obtain ⟨requests,stopping⟩ := items.requests_put s _ left (by simp [stop]) (.inr order)
  refine ⟨same.recorded items.recorded,?_,?_,?_,?_,requests,idle_put items.idle,?_⟩
  · intro y thrown
    rw [put_shared,same.pushed,same.arrived,same.result]
    rcases List.mem_cons.mp thrown with rfl | before
    · exact ⟨out,⟨v,came⟩,unset⟩
    · exact items.throwing y before
  · intro y thrown
    rcases List.mem_cons.mp thrown with rfl | before
    · right
      intro q
      rw [put_threads]
      split
      · trivial
      · rename_i other
        refine stopsFirst_of_absent fun j member is => ?_
        have apart := elsewhere q j (.inl ⟨other,member⟩)
        simp [is,Instr.carries] at apart
    · exact stopping y before
  · intro y w there
    by_cases at_x : y = x
    · exact .inl (by simp [at_x])
    · refine Or.imp_left (List.mem_cons_of_mem x) ?_
      exact items.stored_put left same.arrived (by simp [same.result])
        (fun u is => at_x (Instr.emplaceResult.inj is).1.symm) there
  · refine fits_put ?_ (by simp [notifyError,notifyStop,Fits,same.pushed,out,party])
    intro q j stays
    have fits := same.fits (items.fits q j (stays.mem left))
    have apart := elsewhere q j stays
    cases j with
    | emplaceResult y w =>
      have other : y ≠ x := fun same => by simp [Instr.carries,same] at apart
      exact ⟨fits.1,fits.2.1,fits.2.2.1,fits.2.2.2.1,by simpa [other] using fits.2.2.2.2⟩
    | pushBack y =>
      have other : y ≠ x := fun same => by simp [Instr.carries,same] at apart
      exact ⟨fits.1,fits.2.1,by simpa [other] using fits.2.2⟩
    | _ => exact fits
  · intro y
    rw [put_shared]
    refine (items.placed_put left (if y = x then 1 else 0) (fun q j _ => by rw [carries_congr same.ops]) ?_).trans ?_
    · rw [kept_congr same.queues same.emitted same.zipped completions]
      by_cases at_x : x = y
      · subst at_x; simp [Instr.carries,notifyError,notifyStop,List.countP_cons]
      · simp [Instr.carries,notifyError,notifyStop,List.countP_cons,at_x,Ne.symm at_x]
    · rw [same.completed,items.placed y]
      by_cases at_x : y = x
      · subst at_x; simp [done,fresh]
      · simp [at_x]

theorem pushBack_items (items : Items threw parties c) (left : c.threads p = .pushBack x :: rest)
    (queues : s.queues = Function.update c.shared.queues x.index (c.shared.queues x.index ++ [x]))
    (pushed : s.pushed = c.shared.pushed ++ [x]) (arrived : s.arrived = c.shared.arrived)
    (result : s.result = c.shared.result) (ops : s.itemOps = c.shared.itemOps) (emitted : s.emitted = c.shared.emitted)
    (completed : s.completedItems = c.shared.completedItems) (zipped : s.completedZipped = c.shared.completedZipped)
    (stop : s.stopRequested = c.shared.stopRequested) (completions : s.itemCompletions = c.shared.itemCompletions) :
    Items threw (insert p parties) (c.put p s ([.notifyResultCompletion x] ++ rest)) := by
  obtain ⟨party,out,fresh⟩ := items.fits p _ (left ▸ List.mem_cons_self)
  obtain ⟨_,done,elsewhere⟩ := items.alone (y := x) left (by simp [Instr.carries]) fresh
  obtain ⟨requests,stopping⟩ := items.requests_put s [.notifyResultCompletion x] left (by simp [stop])
    (.inr (ordered_of_plain (by simp) (by simp)))
  have grows : ∀ y ∈ c.shared.pushed, y ∈ s.pushed := fun y member => pushed ▸ List.mem_append_left [x] member
  have still : ∀ y, y ∉ c.shared.pushed → y ≠ x → y ∉ s.pushed := by
    intro y absent other
    rw [pushed,List.mem_append,List.mem_singleton]
    exact not_or.mpr ⟨absent,other⟩
  refine ⟨?_,?_,stopping,?_,?_,requests,idle_put items.idle,?_⟩
  · constructor <;> simp only [put_shared,arrived,result,ops,emitted,completed,zipped]
    · intro i y member
      have old : y ∈ c.shared.queues i → y.index = i ∧ y ∈ s.pushed ∧ c.shared.itemOps y = none := fun before =>
        (items.recorded.queued i y before).imp_right (And.imp_left (grows y))
      rw [queues] at member
      by_cases here : i = x.index
      · subst here
        rw [Function.update_self,List.mem_append,List.mem_singleton] at member
        rcases member with before | rfl
        · exact old before
        · refine ⟨rfl,by simp [pushed],?_⟩
          cases held : c.shared.itemOps y with
          | none => rfl
          | some own => exact absurd (items.recorded.ops y own held).1 out
      · rw [Function.update_of_ne here] at member
        exact old member
    · exact fun y own held => (items.recorded.ops y own held).imp_left (grows y)
    · exact items.recorded.emitted
    · exact items.recorded.triggers
    · exact items.recorded.zipped
    · exact items.recorded.arrived
    · exact items.recorded.results
    · intro y member
      rw [pushed,List.mem_append,List.mem_singleton] at member
      rcases member with before | rfl
      · exact items.recorded.pushed y before
      · exact done
  · intro y thrown
    obtain ⟨absent,rest⟩ := items.throwing y thrown
    rw [put_shared,arrived,result]
    exact ⟨still y absent fun same => fresh (same ▸ thrown),rest⟩
  · intro y w there
    exact items.stored_put left arrived (by simp [result]) (by simp) there
  · refine fits_put ?_ (by simp [Fits])
    intro q j stays
    have fits := items.fits q j (stays.mem left)
    have apart := elsewhere q j stays
    -- an item at the front stays there when another one is pushed to the back
    have front : ∀ y, (c.shared.queues y.index).head? = some y → (s.queues y.index).head? = some y := by
      intro y first
      rw [queues]
      by_cases here : y.index = x.index
      · rw [here,Function.update_self,List.head?_append,← here,first]
        rfl
      · rwa [Function.update_of_ne here]
    cases j with
    | emplaceResult y w =>
      have other : y ≠ x := fun same => by simp [Instr.carries,same] at apart
      simp only [Fits,arrived,result]
      exact ⟨fits.1,still y fits.2.1 other,fits.2.2⟩
    | testStop y =>
      have other : y ≠ x := fun same => by simp [Instr.carries,same] at apart
      exact ⟨fits.1,still y fits.2 other⟩
    | pushBack y =>
      have other : y ≠ x := fun same => by simp [Instr.carries,same] at apart
      exact ⟨fits.1,still y fits.2.1 other,fits.2.2⟩
    | setStopped y =>
      have other : y ≠ x := fun same => by simp [Instr.carries,same] at apart
      exact still y fits other
    | collectResults y => exact front y fits
    | popFronts y _ => exact front y fits
    | _ => first
      | exact trivial
      | simpa only [Fits,ops,emitted] using fits
  · intro y
    rw [put_shared,completed,← items.placed y]
    refine items.placed_put left 0 (fun q j _ => by rw [carries_congr ops]) ?_
    by_cases same : x = y
    · subst same
      simp [kept,runningWith,queues,emitted,zipped,completions,Instr.carries]
      omega
    · have count : (s.queues y.index).count y = (c.shared.queues y.index).count y := by
        rw [queues]
        by_cases here : y.index = x.index
        · simp [here,List.count_append,List.count_eq_zero,Ne.symm same]
        · simp [here]
      simp [kept,runningWith,count,emitted,zipped,completions,Instr.carries,same]

/-- An item that waits in a queue did not throw, and it waits there once. -/
theorem Items.queued_once (items : Items threw parties c) (member : x ∈ c.shared.queues x.index) :
    (c.shared.queues x.index).count x = 1 := by
  have pushed := (items.recorded.queued _ x member).2.1
  have placed := items.placed x
  rw [if_pos (items.recorded.pushed x pushed),if_neg fun thrown => (items.throwing x thrown).1 pushed] at placed
  have some := List.count_pos_iff.mpr member
  simp only [kept] at placed
  omega

theorem popFronts_items {result : Fin n → Value} {ops : Fin n → Item n} (items : Items threw parties c)
    (left : c.threads p = .popFronts x result :: rest) (popped : fronts c.shared = some ops)
    (only : ∀ q j, Stays c p rest q j → j.collecting = none)
    (queues : s.queues = fun i => (c.shared.queues i).tail)
    (itemOps : s.itemOps = Function.update c.shared.itemOps x (some ops)) (pushed : s.pushed = c.shared.pushed)
    (arrived : s.arrived = c.shared.arrived) (stored : s.result = c.shared.result)
    (emitted : s.emitted = c.shared.emitted) (completed : s.completedItems = c.shared.completedItems)
    (zipped : s.completedZipped = c.shared.completedZipped) (stop : s.stopRequested = c.shared.stopRequested)
    (completions : s.itemCompletions = c.shared.itemCompletions) :
    Items threw (insert p parties) (c.put p s ([.checkStop x result] ++ rest)) := by
  have first : (c.shared.queues x.index).head? = some x :=
    items.fits p (.popFronts x result) (left ▸ List.mem_cons_self)
  have queue := queue_of_fronts popped
  have own : ops x.index = x := by
    have is := first
    rw [queue x.index] at is
    exact Option.some.inj is
  have member : ∀ i, ops i ∈ c.shared.queues i := fun i => queue i ▸ List.mem_cons_self
  have waits : x ∈ c.shared.queues x.index := List.mem_of_mem_head? first
  have unset : c.shared.itemOps x = none := (items.recorded.queued _ x waits).2.2
  have gone : x ∉ (c.shared.queues x.index).tail := by
    have once := items.queued_once waits
    rw [queue x.index,own,List.count_cons_self] at once
    exact List.count_eq_zero.mp (by omega)
  have others : ∀ y, c.shared.itemOps y ≠ none → s.itemOps y = c.shared.itemOps y := by
    intro y there
    rw [itemOps,Function.update_of_ne]
    rintro rfl
    exact there unset
  obtain ⟨requests,stopping⟩ := items.requests_put s [.checkStop x result] left (by simp [stop])
    (.inr (ordered_of_plain (by simp) (by simp)))
  refine ⟨?_,?_,stopping,?_,?_,requests,idle_put items.idle,?_⟩
  · constructor <;> simp only [put_shared,pushed,arrived,stored,emitted,completed,zipped]
    · intro i y here
      rw [queues] at here
      obtain ⟨index,before,none⟩ := items.recorded.queued i y (List.mem_of_mem_tail here)
      refine ⟨index,before,?_⟩
      rw [itemOps,Function.update_of_ne]
      · exact none
      · rintro rfl
        exact gone (index ▸ here)
    · intro y held is
      rw [itemOps] at is
      by_cases same : y = x
      · subst same
        obtain rfl := Option.some.inj ((Function.update_self y (some ops) c.shared.itemOps).symm.trans is)
        exact ⟨(items.recorded.queued _ y waits).2.1,own,fun i => (items.recorded.queued i _ (member i)).1⟩
      · rw [Function.update_of_ne same] at is
        exact items.recorded.ops y held is
    · intro e here
      rw [others _ (by simp [items.recorded.emitted e here])]
      exact items.recorded.emitted e here
    · exact items.recorded.triggers
    · exact items.recorded.zipped
    · exact items.recorded.arrived
    · exact items.recorded.results
    · exact items.recorded.pushed
  · simpa only [put_shared,pushed,arrived,stored] using items.throwing
  · intro y w there
    exact items.stored_put left arrived (by simp [stored]) (by simp) there
  · have fresh : x ∉ c.shared.emitted.map (·.trigger) := by
      intro here
      obtain ⟨e,before,is⟩ := List.mem_map.mp here
      have := items.recorded.emitted e before
      rw [is,unset] at this
      cases this
    refine fits_put ?_ (by simpa [Fits,itemOps,emitted] using fresh)
    intro q j stays
    have fits := items.fits q j (stays.mem left)
    have alone := only q j stays
    cases j with
    | collectResults y => cases alone
    | popFronts y _ => cases alone
    | checkStop y _ => exact ⟨by rw [others y fits.1]; exact fits.1,by rw [emitted]; exact fits.2⟩
    | recount y _ => exact ⟨by rw [others y fits.1]; exact fits.1,by rw [emitted]; exact fits.2⟩
    | startZipped y _ _ => exact ⟨by rw [others y fits.1]; exact fits.1,by rw [emitted]; exact fits.2⟩
    | completeAllItemOps y =>
      simp only [Fits] at fits ⊢
      rw [others y fits]
      exact fits
    | _ => first
      | exact trivial
      | simpa only [Fits,pushed,arrived,stored] using fits
  · intro y
    rw [put_shared,completed,← items.placed y]
    refine items.placed_put left 0 ?_ ?_
    · intro q j stays
      have fits := items.fits q j (stays.mem left)
      cases j with
      | checkStop z _ => simp only [Instr.carries,others z fits.1]
      | recount z _ => simp only [Instr.carries,others z fits.1]
      | startZipped z _ _ => simp only [Instr.carries,others z fits.1]
      | completeAllItemOps z => simp only [Instr.carries,others z fits]
      | _ => rfl
    · have pops := kept_popFronts popped queues emitted zipped completions y
      simpa [Instr.carries,itemOps] using pops

theorem startZipped_items {result : Fin n → Value} {next : Bool} {ops : Fin n → Item n}
    (items : Items threw parties c) (left : c.threads p = .startZipped x result next :: rest)
    (held : c.shared.itemOps x = some ops) (plain : ∀ j ∈ new, j = .callout ∨ j = .startNext x)
    (queues : s.queues = c.shared.queues) (pushed : s.pushed = c.shared.pushed) (arrived : s.arrived = c.shared.arrived)
    (stored : s.result = c.shared.result) (itemOps : s.itemOps = c.shared.itemOps)
    (emitted : s.emitted = c.shared.emitted ++ [⟨x,ops,result⟩])
    (completed : s.completedItems = c.shared.completedItems) (zipped : s.completedZipped = c.shared.completedZipped)
    (stop : s.stopRequested = c.shared.stopRequested) (completions : s.itemCompletions = c.shared.itemCompletions) :
    Items threw (insert p parties) (c.put p s (new ++ rest)) := by
  obtain ⟨_,fresh⟩ := items.fits p _ (left ▸ List.mem_cons_self)
  obtain ⟨own_pushed,own,_⟩ := items.recorded.ops x ops held
  obtain ⟨_,_,elsewhere⟩ := items.alone (y := x) left (by simp [Instr.carries,held,own])
    (fun thrown => (items.throwing x thrown).1 own_pushed)
  have triggers : s.emitted.map (·.trigger) = c.shared.emitted.map (·.trigger) ++ [x] := by simp [emitted]
  obtain ⟨requests,stopping⟩ := items.requests_put s new left (by simp [stop])
    (.inr (ordered_of_plain (by simp) fun j member => by rcases plain j member with rfl | rfl <;> simp))
  refine ⟨?_,?_,stopping,?_,?_,requests,idle_put items.idle,?_⟩
  · constructor <;> simp only [put_shared,queues,pushed,arrived,stored,itemOps,completed,zipped,triggers]
    · exact items.recorded.queued
    · exact items.recorded.ops
    · intro e member
      rw [emitted,List.mem_append,List.mem_singleton] at member
      rcases member with before | rfl
      · exact items.recorded.emitted e before
      · exact held
    · exact List.nodup_append.mpr ⟨items.recorded.triggers,by simp,by
        rintro y member z last rfl
        exact fresh (List.mem_singleton.mp last ▸ member)⟩
    · exact fun y member => List.mem_append_left _ (items.recorded.zipped y member)
    · exact items.recorded.arrived
    · exact items.recorded.results
    · exact items.recorded.pushed
  · simpa only [put_shared,pushed,arrived,stored] using items.throwing
  · intro y w there
    exact items.stored_put left arrived (by simp [stored]) (by simp) there
  · refine fits_put ?_ (fun j member => by rcases plain j member with rfl | rfl <;> trivial)
    intro q j stays
    have fits := items.fits q j (stays.mem left)
    have apart := elsewhere q j stays
    -- another popped tuple belongs to another item, since this one is nowhere else
    have still : ∀ z, c.shared.itemOps z ≠ none ∧ z ∉ c.shared.emitted.map (·.trigger) →
        (z = x → j.carries c.shared x = true) → s.itemOps z ≠ none ∧ z ∉ s.emitted.map (·.trigger) := by
      rintro z ⟨there,absent⟩ carried
      rw [itemOps,triggers,List.mem_append,List.mem_singleton]
      refine ⟨there,not_or.mpr ⟨absent,fun same => ?_⟩⟩
      rw [carried same] at apart
      cases apart
    cases j with
    | checkStop z _ => exact still z fits (fun same => by simp [Instr.carries,same,held,own])
    | recount z _ => exact still z fits (fun same => by simp [Instr.carries,same,held,own])
    | startZipped z _ _ => exact still z fits (fun same => by simp [Instr.carries,same,held,own])
    | _ => first
      | exact trivial
      | simpa only [Fits,pushed,arrived,stored,queues,itemOps] using fits
  · intro y
    rw [put_shared,completed,← items.placed y]
    refine items.placed_put left 0 (fun q j _ => by rw [carries_congr itemOps]) ?_
    have none : new.countP (Instr.carries s y) = 0 := by
      rw [List.countP_eq_zero]
      intro j member
      rcases plain j member with rfl | rfl <;> simp [Instr.carries]
    have idle : x ∉ c.shared.completedZipped := fun member => fresh (items.recorded.zipped x member)
    rw [none,kept_startZipped result idle queues emitted zipped completions y]
    simp [Instr.carries,held]

/-! ### Every step keeps the invariant -/

/-- While one party removes the front items, no other one is about to. -/
theorem collecting_alone {result : Fin n → Value} (phase : ZipTrigger.Invariant c ∨ Drained c)
    (left : c.threads p = .popFronts x result :: rest) : ∀ q j, Stays c p rest q j → j.collecting = none := by
  intro q j stays
  rcases phase with inv | drained
  · by_contra other
    have collects : j.phase = some .collecting ∧ j.ofItem = true := by
      cases j <;> first | exact ⟨rfl,rfl⟩ | exact absurd rfl other
    obtain ⟨counted,phase,owner,ready⟩ := inv.ready
    obtain ⟨here,none_left⟩ := inv.only left rfl
    have mine := (ready.busy p (.popFronts x result) (by simp [here]) _ rfl).2
    have theirs := (ready.busy q j ((ZipTrigger.mem_stage collects.2).mpr (stays.mem left)) _ collects.1).2
    obtain rfl : p = q := Option.some.inj (mine.symm.trans theirs)
    rcases stays with ⟨apart,_⟩ | ⟨_,member⟩
    · exact apart rfl
    · have : j ∈ rest.filter Instr.ofItem := List.mem_filter.mpr ⟨member,collects.2⟩
      rw [none_left] at this
      cases this
  · exact nomatch drained.closed p (.popFronts x result) (left ▸ List.mem_cons_self)

/-- A step that hands the item of its instruction on to the next one. -/
theorem Items.goes (items : Items threw parties c) (left : c.threads p = i :: rest) (same : Same c.shared s)
    (stop : s.stopRequested = c.shared.stopRequested) (completions : s.itemCompletions = c.shared.itemCompletions)
    (other : ∀ x v, i ≠ .emplaceResult x v) (order : Ordered threw (i :: rest) (new ++ rest))
    (fresh : ∀ j ∈ new, Fits c.shared threw p j)
    (carried : ∀ y, new.countP (Instr.carries c.shared y) = if i.carries c.shared y then 1 else 0) :
    ∃ threw, Items threw (insert p parties) (c.put p s (new ++ rest)) := by
  refine ⟨threw,items.same left same (by simp [stop]) other (.inr order) fresh fun y => ?_⟩
  rw [kept_congr same.queues same.emitted same.zipped completions,carries_congr same.ops,carried y]

theorem run_items (items : Items threw parties c) (phase : ZipTrigger.Invariant c ∨ Drained c)
    (careful : Careful c (.run p)) (left : c.threads p = i :: rest) (ran : Ran exception c.shared i s new) :
    ∃ threw, Items threw (insert p parties) (c.put p s (new ++ rest)) := by
  by_cases quiet : i.ofItem = false
  · refine ⟨threw,items.quiet left ?_ quiet ran⟩
    rintro rfl
    simpa only [Careful,left] using careful
  have here := items.fits p i (left ▸ List.mem_cons_self)
  cases ran with
  | emplaceResult x v => exact ⟨_,emplace_items items left rfl rfl rfl rfl rfl rfl rfl rfl rfl rfl⟩
  | emplaceThrows x v e _ => exact ⟨_,emplaceThrows_items items left ⟨rfl,rfl,rfl,rfl,rfl,rfl,rfl,rfl⟩ rfl rfl⟩
  | testStop x =>
    by_cases stopped : c.shared.stopRequested = true
    · rw [if_pos stopped]
      exact items.goes left ⟨rfl,rfl,rfl,rfl,rfl,rfl,rfl,rfl⟩ rfl rfl (by simp) (ordered_of_plain (by simp) (by simp))
        (by simpa [Fits] using here.2) (fun y => List.countP_singleton)
    · rw [if_neg stopped]
      have stored : x ∉ threw := by
        intro thrown
        have first := ((items.stopping x thrown).resolve_left stopped) p
        rw [left] at first
        exact first.1 rfl
      exact items.goes left ⟨rfl,rfl,rfl,rfl,rfl,rfl,rfl,rfl⟩ rfl rfl (by simp) (ordered_of_plain (by simp) (by simp))
        (by simpa [Fits] using ⟨here.1,here.2,stored⟩) (fun y => List.countP_singleton)
  | pushBack x => exact ⟨_,pushBack_items items left rfl rfl rfl rfl rfl rfl rfl rfl rfl rfl⟩
  | announced x first =>
    refine items.goes left ⟨rfl,rfl,rfl,rfl,rfl,rfl,rfl,rfl⟩ rfl rfl (by simp) (ordered_of_plain (by simp) ?_) ?_ ?_
    · split <;> simp
    · split <;> simp [Fits,first]
    · intro y
      split <;> simp [Instr.carries]
  | notFront x other =>
    exact items.goes left ⟨rfl,rfl,rfl,rfl,rfl,rfl,rfl,rfl⟩ rfl rfl (by simp) (ordered_of_plain (by simp) (by simp))
      (by simp) (by simp [Instr.carries])
  | collectResults x result found =>
    exact items.goes left ⟨rfl,rfl,rfl,rfl,rfl,rfl,rfl,rfl⟩ rfl rfl (by simp) (ordered_of_plain (by simp) (by simp))
      (by simpa [Fits] using here) (fun y => List.countP_singleton)
  | popFronts x result ops popped =>
    exact ⟨_,popFronts_items items left popped (collecting_alone phase left) rfl rfl rfl rfl rfl rfl rfl rfl rfl rfl⟩
  | checkStop x result =>
    by_cases stopped : c.shared.stopRequested = true
    · rw [if_pos stopped]
      exact items.goes left ⟨rfl,rfl,rfl,rfl,rfl,rfl,rfl,rfl⟩ rfl rfl (by simp) (ordered_of_plain (by simp) (by simp))
        (by simpa [Fits] using here.1) (fun y => List.countP_singleton)
    · rw [if_neg stopped]
      exact items.goes left ⟨rfl,rfl,rfl,rfl,rfl,rfl,rfl,rfl⟩ rfl rfl (by simp) (ordered_of_plain (by simp) (by simp))
        (by simpa [Fits] using here) (fun y => List.countP_singleton)
  | recountAll x result _ =>
    exact items.goes left ⟨rfl,rfl,rfl,rfl,rfl,rfl,rfl,rfl⟩ rfl rfl (by simp) (ordered_of_plain (by simp) (by simp))
      (by simpa [Fits] using here) (fun y => List.countP_singleton)
  | recount x result _ =>
    exact items.goes left ⟨rfl,rfl,rfl,rfl,rfl,rfl,rfl,rfl⟩ rfl rfl (by simp) (ordered_of_plain (by simp) (by simp))
      (by simpa [Fits] using here) (fun y => List.countP_singleton)
  | startZipped x result next ops held =>
    refine ⟨_,startZipped_items items left held ?_ rfl rfl rfl rfl rfl rfl rfl rfl rfl rfl⟩
    intro j member
    rcases List.mem_cons.mp member with rfl | later
    · exact .inl rfl
    · split at later
      · exact .inr (List.mem_singleton.mp later)
      · cases later
  | zippedThrows x result next e _ =>
    refine items.goes left ⟨rfl,rfl,rfl,rfl,rfl,rfl,rfl,rfl⟩ rfl rfl (by simp) ⟨fun _ => trivial,fun _ _ _ => trivial⟩
      (by simpa [notifyError,notifyStop,Fits] using here.1) fun y => ?_
    have alike : (.completeAllItemOps x : Instr n Value Error).carries c.shared y =
        (.startZipped x result next : Instr n Value Error).carries c.shared y := rfl
    rw [← alike]
    simp [notifyError,notifyStop,List.countP_cons,Instr.carries]
  | startNext x y first =>
    exact items.goes left ⟨rfl,rfl,rfl,rfl,rfl,rfl,rfl,rfl⟩ rfl rfl (by simp) (ordered_of_plain (by simp) (by simp))
      (by simp [Fits]) (fun y => List.countP_singleton)
  | _ => exact absurd rfl quiet

/-- Once the queues are drained, a step touches them no more. -/
theorem drained_run (drained : Drained c) (left : c.threads p = i :: rest) (ran : Ran exception c.shared i s new) :
    Drained (c.put p s (new ++ rest)) := by
  have here := drained.closed p i (left ▸ List.mem_cons_self)
  have step : s.stopRequested = true ∧ (∀ k, s.queues k = []) ∧ ∀ j ∈ new, j.exposed = false := by
    have stopped := drained.stopped
    have empty := drained.empty
    cases ran with
    | pushBack x => cases here
    | collectResults x result found => cases here
    | popFronts x result ops popped => cases here
    | startNext x y first => cases here
    | announced x first => simp [empty] at first
    | recountAll x result all =>
      have none : nonEmpty c.shared = ∅ := by simp [nonEmpty,empty]
      rw [none,Finset.card_empty] at all
      subst all
      exact x.index.elim0
    | startZipped x result next ops held =>
      cases next with
      | true => cases here
      | false => exact ⟨stopped,empty,by simp [Instr.exposed]⟩
    | completeAllItemOps x ops held =>
      refine ⟨stopped,empty,fun j member => ?_⟩
      obtain ⟨_,rfl⟩ := mem_completeAll.mp member
      rfl
    | clearQueues => exact ⟨stopped,fun _ => rfl,by simp [completeQueues,empty]⟩
    | requestStop => exact ⟨rfl,empty,by simp [Instr.exposed]⟩
    | fetchSub k signal =>
      refine ⟨stopped,empty,?_⟩
      split
      · cases signal <;> simp [notLast,notifyError,notifyStop,Instr.exposed]
      · simp [Instr.exposed]
    | emplaceStopCallback =>
      refine ⟨stopped,empty,?_⟩
      split <;> simp [Instr.exposed]
    | testStop x | checkStop x result => exact ⟨stopped,empty,by simp [stopped,Instr.exposed]⟩
    | _ => exact ⟨stopped,empty,by simp [Instr.exposed,notifyError,notifyStop]⟩
  refine ⟨step.1,step.2.1,?_⟩
  intro q j member
  rcases stays_or_new member with stays | ⟨_,here⟩
  · exact drained.closed q j (stays.mem left)
  · exact step.2.2 j here

theorem drains (items : Items threw parties c) (careful : Careful c (.run p))
    (left : c.threads p = .clearQueues :: rest) (ran : Ran exception c.shared .clearQueues s new) :
    Drained (c.put p s (new ++ rest)) := by
  simp only [Careful,left] at careful
  cases ran
  refine ⟨?_,fun _ => rfl,?_⟩
  · have first := items.requests p
    rw [left] at first
    exact first.resolve_right id
  · intro q j member
    rcases stays_or_new member with stays | ⟨_,here⟩
    · exact careful q j (stays.mem left)
    · obtain ⟨_,_,_,rfl⟩ := mem_completeQueues.mp here
      rfl

theorem guarded_of_careful (careful : Careful c (.run p)) (left : c.threads p = i :: rest) (other : i ≠ .clearQueues) :
    ZipTrigger.Guarded c (.run p) := by
  simp only [Careful,ZipTrigger.Guarded,left] at careful ⊢
  cases i <;> first | exact trivial | exact careful | exact absurd rfl other

/-! ### Every event keeps the invariant -/

/-- A handler starts. -/
theorem Items.handler (items : Items threw parties c) (idle : c.threads p = []) (recorded : Recorded s)
    (queues : s.queues = c.shared.queues) (pushed : s.pushed = c.shared.pushed) (result : s.result = c.shared.result)
    (ops : s.itemOps = c.shared.itemOps) (emitted : s.emitted = c.shared.emitted)
    (stop : s.stopRequested = c.shared.stopRequested)
    (arrived : ∀ i, ∀ a ∈ c.shared.arrived i, a ∈ s.arrived i)
    (emplacing : ∀ x v, (x,v) ∈ s.arrived x.index → (x,v) ∈ c.shared.arrived x.index ∨ .emplaceResult x v ∈ new)
    (first : RequestsFirst new) (absent : ∀ j ∈ new, ∀ x, j ≠ .testStop x) (fresh : ∀ j ∈ new, Fits s threw p j)
    (placed : ∀ y left, kept c.shared y + left =
        (if y ∈ c.shared.completedItems then if y ∈ threw then 2 else 1 else 0) →
      kept s y + (left + new.countP (Instr.carries c.shared y)) =
        if y ∈ s.completedItems then if y ∈ threw then 2 else 1 else 0) :
    Items threw (insert p parties) (c.put p s new) := by
  refine ⟨recorded,?_,?_,?_,?_,?_,idle_put items.idle,?_⟩
  · intro x thrown
    obtain ⟨out,⟨v,came⟩,none⟩ := items.throwing x thrown
    rw [put_shared,pushed,result]
    exact ⟨out,⟨v,arrived _ _ came⟩,none⟩
  · intro x thrown
    rw [put_shared,stop]
    refine (items.stopping x thrown).imp_right fun stops q => ?_
    rw [put_threads]
    split
    · exact stopsFirst_of_absent fun j member => absent j member x
    · exact stops q
  · intro x v came
    rw [put_shared,result]
    rcases emplacing x v came with before | now
    · rcases items.stored x v before with out | there | ⟨q,w,member⟩
      · exact .inl out
      · exact .inr (.inl there)
      · refine .inr (.inr ⟨q,w,?_⟩)
        rw [put_threads_ne c (fun here => by rw [here,idle] at member; cases member)]
        exact member
    · exact .inr (.inr ⟨p,v,by simpa using now⟩)
  · intro q j member
    rw [put_threads] at member
    split at member
    · rename_i here
      subst here
      exact fresh j member
    · have fits := items.fits q j member
      cases j with
      | emplaceResult x v =>
        obtain ⟨party,out,came,rest⟩ := fits
        simp only [Fits,put_shared,pushed,result]
        exact ⟨party,out,arrived _ _ came,rest⟩
      | _ => first
        | exact trivial
        | simpa only [Fits,put_shared,pushed,queues,ops,emitted] using fits
  · intro q
    rw [put_shared,stop,put_threads]
    split
    · exact .inr first
    · exact items.requests q
  · intro y
    have total := total_put p s new (w := List.countP (Instr.carries c.shared y))
      (v := List.countP (Instr.carries c.shared y)) rfl items.idle (fun _ _ => rfl)
    rw [idle,List.countP_nil,Nat.add_zero] at total
    rw [put_shared,carries_congr ops,total]
    exact placed y _ (items.placed y)

theorem Recorded.completes (recorded : Recorded s) (queues : s'.queues = s.queues) (pushed : s'.pushed = s.pushed)
    (result : s'.result = s.result) (ops : s'.itemOps = s.itemOps) (emitted : s'.emitted = s.emitted)
    (zipped : s'.completedZipped = s.completedZipped) (completed : ∀ x ∈ s.completedItems, x ∈ s'.completedItems)
    (arrived : ∀ i, ∀ a ∈ s'.arrived i, a.1 ∈ s'.completedItems) : Recorded s' := by
  constructor <;> try simp only [queues,pushed,result,ops,emitted,zipped]
  · exact recorded.queued
  · exact recorded.ops
  · exact recorded.emitted
  · exact recorded.triggers
  · exact recorded.zipped
  · exact arrived
  · exact fun x there => completed x (recorded.results x there)
  · exact fun x member => completed x (recorded.pushed x member)

/-- A handler starts that has to do with no item. -/
theorem Items.handler_same (items : Items threw parties c) (idle : c.threads p = []) (same : Same c.shared s)
    (stop : s.stopRequested = c.shared.stopRequested) (completions : s.itemCompletions = c.shared.itemCompletions)
    (first : RequestsFirst new) (plain : ∀ j ∈ new, j = .emplaceStopCallback ∨ j = .requestStop ∨
      (∃ k, j = .startChild k) ∨ ∃ k signal, j = .fetchSub k signal) :
    Items threw (insert p parties) (c.put p s new) := by
  refine items.handler idle (same.recorded items.recorded) same.queues same.pushed same.result same.ops same.emitted stop
    (by simp [same.arrived]) (fun x v came => .inl (same.arrived ▸ came)) first ?_ ?_ ?_
  · intro j member x
    rcases plain j member with rfl | rfl | ⟨k,rfl⟩ | ⟨k,signal,rfl⟩ <;> simp
  · intro j member
    rcases plain j member with rfl | rfl | ⟨k,rfl⟩ | ⟨k,signal,rfl⟩ <;> trivial
  · intro y left before
    have none : new.countP (Instr.carries c.shared y) = 0 := by
      rw [List.countP_eq_zero]
      intro j member
      rcases plain j member with rfl | rfl | ⟨k,rfl⟩ | ⟨k,signal,rfl⟩ <;> simp [Instr.carries]
    rw [kept_congr same.queues same.emitted same.zipped completions,none,Nat.add_zero,same.completed]
    exact before

/-- An item completes without a value. -/
theorem Items.itemStops (items : Items threw parties c) (idle : c.threads p = []) (pending : x ∉ c.shared.completedItems)
    (queues : s.queues = c.shared.queues) (pushed : s.pushed = c.shared.pushed) (result : s.result = c.shared.result)
    (ops : s.itemOps = c.shared.itemOps) (emitted : s.emitted = c.shared.emitted)
    (zipped : s.completedZipped = c.shared.completedZipped) (stop : s.stopRequested = c.shared.stopRequested)
    (completions : s.itemCompletions = c.shared.itemCompletions) (arrived : s.arrived = c.shared.arrived)
    (completed : s.completedItems = c.shared.completedItems ++ [x]) (first : RequestsFirst new)
    (plain : ∀ j ∈ new, j ≠ .setStopped x → j = .requestStop ∨ j = .clearQueues ∨ ∃ e, j = .storeError e)
    (once : ∀ y, new.countP (Instr.carries c.shared y) = if x = y then 1 else 0) :
    Items threw (insert p parties) (c.put p s new) := by
  have grows : ∀ y ∈ c.shared.completedItems, y ∈ s.completedItems :=
    fun y member => completed ▸ List.mem_append_left [x] member
  have cases : ∀ j ∈ new, j = .setStopped x ∨ j = .requestStop ∨ j = .clearQueues ∨ ∃ e, j = .storeError e :=
    fun j member => or_iff_not_imp_left.mpr (plain j member)
  refine items.handler idle ?_ queues pushed result ops emitted stop (by simp [arrived])
    (fun y v came => .inl (arrived ▸ came)) first ?_ ?_ ?_
  · exact items.recorded.completes queues pushed result ops emitted zipped grows
      (fun i a came => grows _ (items.recorded.arrived i a (arrived ▸ came)))
  · intro j member y
    rcases cases j member with rfl | rfl | rfl | ⟨e,rfl⟩ <;> simp
  · intro j member
    rcases cases j member with rfl | rfl | rfl | ⟨e,rfl⟩
    · simp only [Fits,pushed]
      exact fun before => pending (items.recorded.pushed x before)
    all_goals trivial
  · intro y left before
    rw [kept_congr queues emitted zipped completions,once y]
    by_cases same : x = y
    · subst same
      rw [if_neg pending] at before
      have stored : x ∉ threw := by
        intro thrown
        obtain ⟨_,⟨v,came⟩,_⟩ := items.throwing x thrown
        exact pending (items.recorded.arrived _ _ came)
      rw [if_pos rfl,if_pos (by simp [completed]),if_neg stored]
      omega
    · rw [if_neg same,Nat.add_zero,before]
      have : y ∈ s.completedItems ↔ y ∈ c.shared.completedItems := by simp [completed,Ne.symm same]
      simp only [this]

theorem Items.itemValue (items : Items threw parties c) {v : Value} (idle : c.threads (.item x) = [])
    (pending : x ∉ c.shared.completedItems) (queues : s.queues = c.shared.queues) (pushed : s.pushed = c.shared.pushed)
    (result : s.result = c.shared.result) (ops : s.itemOps = c.shared.itemOps) (emitted : s.emitted = c.shared.emitted)
    (zipped : s.completedZipped = c.shared.completedZipped) (stop : s.stopRequested = c.shared.stopRequested)
    (completions : s.itemCompletions = c.shared.itemCompletions)
    (arrived : s.arrived = Function.update c.shared.arrived x.index (c.shared.arrived x.index ++ [(x,v)]))
    (completed : s.completedItems = c.shared.completedItems ++ [x]) :
    Items threw (insert (.item x) parties) (c.put (.item x) s (itemSetValue x v)) := by
  have grows : ∀ y ∈ c.shared.completedItems, y ∈ s.completedItems :=
    fun y member => completed ▸ List.mem_append_left [x] member
  have came : ∀ i, ∀ a ∈ s.arrived i, a ∈ c.shared.arrived i ∨ i = x.index ∧ a = (x,v) := by
    intro i a member
    rw [arrived] at member
    by_cases here : i = x.index
    · subst here
      rw [Function.update_self,List.mem_append,List.mem_singleton] at member
      exact member.imp_right fun last => ⟨rfl,last⟩
    · rw [Function.update_of_ne here] at member
      exact .inl member
  have stored : x ∉ threw := by
    intro thrown
    obtain ⟨_,⟨w,before⟩,_⟩ := items.throwing x thrown
    exact pending (items.recorded.arrived _ _ before)
  have more : ∀ i, ∀ a ∈ c.shared.arrived i, a ∈ s.arrived i := by
    intro i a member
    rw [arrived]
    by_cases here : i = x.index
    · subst here
      rw [Function.update_self]
      exact List.mem_append_left _ member
    · rwa [Function.update_of_ne here]
  refine items.handler idle ?_ queues pushed result ops emitted stop more ?_ trivial (by simp [itemSetValue]) ?_ ?_
  · refine items.recorded.completes queues pushed result ops emitted zipped grows fun i a member => ?_
    rcases came i a member with before | ⟨_,rfl⟩
    · exact grows _ (items.recorded.arrived i a before)
    · simp [completed]
  · intro y w member
    rcases came _ _ member with before | ⟨_,same⟩
    · exact .inl before
    · obtain ⟨rfl,rfl⟩ := Prod.mk.inj same
      exact .inr (by simp [itemSetValue])
  · intro j member
    obtain rfl := List.mem_singleton.mp member
    refine ⟨rfl,?_,by simp [arrived],?_,stored⟩
    · rw [pushed]
      exact fun before => pending (items.recorded.pushed x before)
    · rw [result]
      by_contra there
      exact pending (items.recorded.results x there)
  · intro y left before
    rw [kept_congr queues emitted zipped completions]
    by_cases same : x = y
    · subst same
      rw [if_neg pending] at before
      rw [if_pos (by simp [completed]),if_neg stored]
      simp [itemSetValue,Instr.carries]
      omega
    · have : y ∈ s.completedItems ↔ y ∈ c.shared.completedItems := by simp [completed,Ne.symm same]
      simp only [this]
      simpa [itemSetValue,Instr.carries,same] using before

/-- The zipped operation of a tuple completes. -/
theorem Items.zippedCompletes (items : Items threw parties c) (idle : c.threads p = [])
    (running : x ∈ c.shared.emitted.map (·.trigger)) (fresh : x ∉ c.shared.completedZipped) (first : RequestsFirst new)
    (plain : ∀ j ∈ new, j ≠ .completeAllItemOps x → j = .requestStop ∨ j = .clearQueues)
    (once : ∀ y, new.countP (Instr.carries c.shared y) =
      if (.completeAllItemOps x : Instr n Value Error).carries c.shared y then 1 else 0) :
    Items threw (insert p parties)
      (c.put p { c.shared with completedZipped := c.shared.completedZipped ++ [x] } new) := by
  have cases : ∀ j ∈ new, j = .completeAllItemOps x ∨ j = .requestStop ∨ j = .clearQueues :=
    fun j member => or_iff_not_imp_left.mpr (plain j member)
  refine items.handler idle ?_ rfl rfl rfl rfl rfl rfl (fun _ _ came => came) (fun _ _ came => .inl came) first ?_ ?_ ?_
  · obtain ⟨queued,ops,emitted,triggers,zipped,arrived,results,pushed⟩ := items.recorded
    refine ⟨queued,ops,emitted,triggers,?_,arrived,results,pushed⟩
    intro y member
    rcases List.mem_append.mp member with before | last
    · exact zipped y before
    · exact List.mem_singleton.mp last ▸ running
  · intro j member y
    rcases cases j member with rfl | rfl | rfl <;> simp
  · intro j member
    rcases cases j member with rfl | rfl | rfl
    · obtain ⟨e,here,rfl⟩ := List.mem_map.mp running
      simp [Fits,items.recorded.emitted e here]
    all_goals trivial
  · intro y left before
    have count := runningWith_complete items.recorded.triggers items.recorded.emitted running fresh y
    simp only [once y,kept] at before count ⊢
    omega

theorem call_items {e : Event n Value Error} (items : Items threw parties c)
    (idle : c.threads ((machine n Value exception).party e) = []) (raised : Raised c.shared e s new) :
    Items threw (insert ((machine n Value exception).party e) parties)
      (c.put ((machine n Value exception).party e) s new) := by
  cases raised with
  | start =>
    refine items.handler_same idle ⟨rfl,rfl,rfl,rfl,rfl,rfl,rfl,rfl⟩ rfl rfl ?_ ?_
    · exact requestsFirst_of_plain (by simp)
    · intro j member
      rcases List.mem_cons.mp member with rfl | later
      · exact .inl rfl
      · obtain ⟨k,_,rfl⟩ := List.mem_map.mp later
        exact .inr (.inr (.inl ⟨k,rfl⟩))
  | setNext x =>
    exact items.handler_same idle ⟨rfl,rfl,rfl,rfl,rfl,rfl,rfl,rfl⟩ rfl rfl trivial (by simp)
  | itemValue x v _ pending =>
    exact items.itemValue idle pending rfl rfl rfl rfl rfl rfl rfl rfl rfl rfl
  | itemError x e _ pending =>
    refine items.itemStops idle pending rfl rfl rfl rfl rfl rfl rfl rfl rfl rfl trivial ?_ ?_
    · intro j member
      simp only [itemSetError,notifyError,notifyStop,List.mem_append,List.mem_cons,List.not_mem_nil,or_false] at member
      rcases member with (rfl | rfl | rfl) | rfl <;> simp
    · intro y
      simp [itemSetError,notifyError,notifyStop,List.countP_cons,Instr.carries]
  | itemStopped x _ pending =>
    refine items.itemStops idle pending rfl rfl rfl rfl rfl rfl rfl rfl rfl rfl trivial ?_ ?_
    · intro j member
      simp only [itemSetStopped,notifyStop,List.mem_append,List.mem_cons,List.not_mem_nil,or_false] at member
      rcases member with (rfl | rfl) | rfl <;> simp
    · intro y
      simp [itemSetStopped,notifyStop,List.countP_cons,Instr.carries]
  | zippedValue x running fresh =>
    exact items.zippedCompletes idle running fresh trivial (by simp [zippedSetValue])
      (fun y => List.countP_singleton)
  | zippedStopped x running fresh =>
    refine items.zippedCompletes idle running fresh trivial ?_ ?_
    · intro j member
      simp only [zippedSetStopped,notifyStop,List.mem_append,List.mem_cons,List.not_mem_nil,or_false] at member
      rcases member with (rfl | rfl) | rfl <;> simp
    · intro y
      simp only [zippedSetStopped,notifyStop,List.cons_append,List.nil_append,List.countP_cons,List.countP_nil]
      simp [Instr.carries]
  | childCompletes k signal =>
    exact items.handler_same idle ⟨rfl,rfl,rfl,rfl,rfl,rfl,rfl,rfl⟩ rfl rfl trivial (by simp [childComplete])
  | outerStop =>
    refine items.handler_same idle ⟨rfl,rfl,rfl,rfl,rfl,rfl,rfl,rfl⟩ rfl rfl ?_ ?_
    · split <;> trivial
    · split <;> simp

/-! ### What the steps of a run did -/

abbrev Step (n : Nat) (Value Error : Type) :=
  Config (Party n) (OperationBase n Value Error) (Instr n Value Error) × Label (Party n) (Event n Value Error)

/-- A stop was requested through `notify_stop`, and the queues were drained. -/
def Notified (steps : List (Step n Value Error)) : Prop :=
  ∃ step ∈ steps, (executed step).any Instr.drains = true

/-- How often `complete_` of the item was called. -/
def completeCalls (steps : List (Step n Value Error)) (x : Item n) : Nat :=
  steps.countP fun step => (executed step).any (Instr.completes x)

/-- How often the item receiver was completed. -/
def itemCompletions (s : OperationBase n Value Error) (x : Item n) : Nat := (s.itemCompletions.map (·.1)).count x

/-- Storing the value of the item threw. -/
def Threw (s : OperationBase n Value Error) (x : Item n) : Prop :=
  (∃ v, (x,v) ∈ s.arrived x.index) ∧ s.result x = none

/-- The item is in a tuple whose zipped operation runs. -/
def InRunningTuple (s : OperationBase n Value Error) (x : Item n) : Prop :=
  ∃ e ∈ s.emitted, e.trigger ∉ s.completedZipped ∧ e.itemOps x.index = x

instance (steps : List (Step n Value Error)) : Decidable (Notified steps) :=
  inferInstanceAs (Decidable (∃ step ∈ steps, (executed step).any Instr.drains = true))

variable {steps : List (Step n Value Error)}

/-- The invariant of a run: the items are where the state says, before the first
    drain the queues are as `ZipTrigger` describes them, after it they are empty,
    and what was pushed is completed by `complete_` only. -/
structure Tracked (steps : List (Step n Value Error))
    (c : Config (Party n) (OperationBase n Value Error) (Instr n Value Error)) : Prop where
  items : ∃ threw parties, Items threw parties c
  opened : ¬ Notified steps → ZipTrigger.Invariant c
  drained : Notified steps → Drained c
  calls : ∀ x, completeCalls steps x ≤ itemCompletions c.shared x
  pushed : ∀ x ∈ c.shared.pushed, completeCalls steps x = itemCompletions c.shared x

theorem Tracked.phase (tracked : Tracked steps c) : ZipTrigger.Invariant c ∨ Drained c := by
  by_cases notified : Notified steps
  · exact .inr (tracked.drained notified)
  · exact .inl (tracked.opened notified)

theorem notified_run (left : c.threads p = i :: rest) :
    Notified (steps ++ [(c,.run p)]) ↔ Notified steps ∨ i = .clearQueues := by
  have last : i.drains = true ↔ i = .clearQueues := by cases i <;> simp [Instr.drains]
  simp [Notified,or_and_right,exists_or,executed_run left,last]

theorem completeCalls_run (left : c.threads p = i :: rest) (x : Item n) :
    completeCalls (steps ++ [(c,.run p)]) x = completeCalls steps x + if i.completes x then 1 else 0 := by
  simp [completeCalls,List.countP_append,List.countP_singleton,executed_run left]

theorem notified_call {e : Event n Value Error} : Notified (steps ++ [(c,.call e)]) ↔ Notified steps := by
  simp [Notified,or_and_right,exists_or]

theorem completeCalls_call {e : Event n Value Error} (x : Item n) :
    completeCalls (steps ++ [(c,.call e)]) x = completeCalls steps x := by
  simp [completeCalls,List.countP_append]

/-- What a step adds to the completions and to the pushed items. -/
theorem ran_completions (ran : Ran exception s i s' new) (x : Item n) :
    (itemCompletions s' x = itemCompletions s x + (if i.completes x then 1 else 0) ∨
      i = .setStopped x ∧ s'.pushed = s.pushed ∧ itemCompletions s' x = itemCompletions s x + 1) ∧
    (s'.pushed = s.pushed ∨ ∃ y, i = .pushBack y ∧ s'.pushed = s.pushed ++ [y]) := by
  cases ran with
  | complete y signal _ =>
    refine ⟨.inl ?_,.inl rfl⟩
    simp [itemCompletions,Instr.completes,List.count_append,List.count_singleton]
  | setStopped y =>
    refine ⟨?_,.inl rfl⟩
    by_cases same : y = x
    · subst same
      exact .inr ⟨rfl,rfl,by simp [itemCompletions,List.count_append]⟩
    · exact .inl (by simp [itemCompletions,Instr.completes,List.count_append,List.count_singleton,same])
  | pushBack y => exact ⟨.inl (by simp [itemCompletions,Instr.completes]),.inr ⟨y,rfl,rfl⟩⟩
  | _ => exact ⟨.inl (by simp [itemCompletions,Instr.completes]),.inl rfl⟩

theorem run_tracked (tracked : Tracked steps c) (careful : Careful c (.run p)) (left : c.threads p = i :: rest)
    (ran : Ran exception c.shared i s new) : Tracked (steps ++ [(c,.run p)]) (c.put p s (new ++ rest)) := by
  obtain ⟨threw,parties,items⟩ := tracked.items
  refine ⟨?_,?_,?_,?_,?_⟩
  · obtain ⟨threw,next⟩ := run_items items tracked.phase careful left ran
    exact ⟨threw,_,next⟩
  · intro never
    rw [notified_run left,not_or] at never
    exact ZipTrigger.run_keeps (tracked.opened never.1) (guarded_of_careful careful left never.2) left ran
  · intro notified
    rcases (notified_run left).mp notified with before | rfl
    · exact drained_run (tracked.drained before) left ran
    · exact drains items careful left ran
  · intro x
    have before := tracked.calls x
    rw [completeCalls_run left,put_shared]
    rcases (ran_completions ran x).1 with more | ⟨rfl,_,more⟩
    · omega
    · simp only [more,Instr.completes,Bool.false_eq_true,if_false]
      omega
  · intro x member
    have here := items.fits p i (left ▸ List.mem_cons_self)
    rw [completeCalls_run left,put_shared]
    obtain ⟨completions,pushed⟩ := ran_completions ran x
    rcases pushed with same | ⟨y,rfl,more⟩
    · rw [put_shared,same] at member
      have before := tracked.pushed x member
      rcases completions with adds | ⟨rfl,_,_⟩
      · omega
      · exact absurd member here
    · rcases completions with adds | ⟨contra,_⟩
      · rw [put_shared,more,List.mem_append,List.mem_singleton] at member
        rw [adds]
        rcases member with before | rfl
        · rw [tracked.pushed x before]
        · -- an item that is pushed has not been completed
          have none := (items.alone (y := x) left (by simp [Instr.carries]) here.2.2).1
          have calls := tracked.calls x
          simp only [kept] at none
          simp only [itemCompletions] at calls ⊢
          omega
      · cases contra

theorem call_tracked {e : Event n Value Error} (tracked : Tracked steps c)
    (idle : c.threads ((machine n Value exception).party e) = []) (raised : Raised c.shared e s new) :
    Tracked (steps ++ [(c,.call e)]) (c.put ((machine n Value exception).party e) s new) := by
  obtain ⟨threw,parties,items⟩ := tracked.items
  have kept : s.pushed = c.shared.pushed ∧ s.itemCompletions = c.shared.itemCompletions ∧
      s.queues = c.shared.queues ∧ s.stopRequested = c.shared.stopRequested ∧ ∀ j ∈ new, j.exposed = false := by
    cases raised with
    | childCompletes k signal => exact ⟨rfl,rfl,rfl,rfl,by simp [childComplete,Instr.exposed]⟩
    | outerStop =>
      refine ⟨rfl,rfl,rfl,rfl,?_⟩
      split <;> simp [Instr.exposed]
    | start => exact ⟨rfl,rfl,rfl,rfl,by simp [Instr.exposed]⟩
    | _ => exact ⟨rfl,rfl,rfl,rfl,by
        simp [itemSetValue,itemSetError,itemSetStopped,zippedSetValue,zippedSetStopped,notifyError,notifyStop,
          Instr.exposed]⟩
  obtain ⟨pushed,completions,queues,stop,closed⟩ := kept
  refine ⟨⟨threw,_,call_items items idle raised⟩,?_,?_,?_,?_⟩
  · intro never
    rw [notified_call] at never
    exact ZipTrigger.call_keeps (tracked.opened never) idle raised
  · intro notified
    have before := tracked.drained (notified_call.mp notified)
    refine ⟨stop.trans before.stopped,fun k => (congrFun queues k).trans (before.empty k),?_⟩
    intro q j member
    rw [put_threads] at member
    split at member
    · exact closed j member
    · exact before.closed q j member
  · intro x
    rw [completeCalls_call]
    simpa [itemCompletions,completions] using tracked.calls x
  · intro x member
    rw [completeCalls_call]
    simpa [itemCompletions,completions] using tracked.pushed x (by simpa [pushed] using member)

theorem initial_tracked : Tracked [] (initial n Value Error) where
  items := by
    refine ⟨[],∅,?_,by simp,by simp,by simp [initial],by simp [initial],?_,by simp [initial],?_⟩
    · constructor <;> simp [initial]
    · exact fun _ => .inr trivial
    · intro y
      simp [initial,kept,runningWith,Config.total]
  opened _ := ZipTrigger.initial_invariant
  drained := by simp [Notified]
  calls := by simp [completeCalls]
  pushed := by simp [initial]

theorem tracked (run : Run (machine n Value exception) Careful (initial n Value Error) steps c) : Tracked steps c :=
  run.invariant initial_tracked
    (fun _ _ _ _ _ _ _ _ tracked careful left ran => run_tracked tracked careful left (ran_of_mem ran))
    (fun _ _ _ _ _ _ tracked _ idle accepted => call_tracked tracked idle (raised_of_accept accepted))

/-! ### What becomes of the items -/

/-- Once nobody is inside a handler, an item that completed is where the state
    has it. -/
theorem settled_places {threw : List (Item n)} {parties : Finset (Party n)} (items : Items threw parties c)
    (idle : ∀ p, c.threads p = []) (done : y ∈ c.shared.completedItems) :
    kept c.shared y = if y ∈ threw then 2 else 1 := by
  have placed := items.placed y
  rw [total_zero rfl idle,Nat.add_zero,if_pos done] at placed
  exact placed

theorem inRunningTuple_of_pos (some : 0 < runningWith s y) : InRunningTuple s y := by
  obtain ⟨e,member,running⟩ := List.countP_pos_iff.mp some
  exact ⟨e,member,by simpa using running⟩

/-- Accepts only steps that are careful for certain, when the parties outside of
    the given list are idle: the queues are counted anew while they are all empty. -/
def surelyCareful (among : List (Party n)) (c : Config (Party n) (OperationBase n Value Error) (Instr n Value Error)) :
    Label (Party n) (Event n Value Error) → Bool
  | .run p =>
    match c.threads p with
    | .clearQueues :: _ => among.all fun q => (c.threads q).all fun i => !i.exposed
    | .recount _ _ :: _ => decide (nonEmpty c.shared = ∅)
    | _ => true
  | .call _ => true

theorem careful_of_surely (among : List (Party n))
    (c : Config (Party n) (OperationBase n Value Error) (Instr n Value Error)) (l : Label (Party n) (Event n Value Error))
    (others : ∀ q ∉ among, c.threads q = []) (sure : surelyCareful among c l = true) : Careful c l := by
  cases l with
  | call e => trivial
  | run p =>
    simp only [Careful]
    split
    next left =>
      simp only [surelyCareful,left,List.all_eq_true,Bool.not_eq_true'] at sure
      intro q i member
      by_cases listed : q ∈ among
      · exact sure q listed i member
      · rw [others q listed] at member
        cases member
    next left =>
      have empty : nonEmpty c.shared = ∅ := by simpa [surelyCareful,left] using sure
      intro i x head
      have present : i ∈ nonEmpty c.shared := by
        simp only [nonEmpty,Finset.mem_filter,Finset.mem_univ,true_and]
        intro none
        simp [none] at head
      rw [empty] at present
      exact absurd present (Finset.notMem_empty i)
    next => trivial

-- named, so that the literals of `Fin 2` share one proof
local instance neZeroTwo : NeZero 2 := ⟨two_ne_zero⟩

/-- The threads of two items of two children, and of the operation itself. -/
def pair : List (Party 2) := [.operation,.item ⟨0,0⟩,.item ⟨1,0⟩]

/-- Both children are started, and each hands out an item. -/
def begin : List (Label (Party 2) (Event 2 Nat Nat) × Nat) :=
  [(.call .start,0)] ++ List.replicate 5 (.run .operation,0) ++
    [(.call (.setNext ⟨0,0⟩),0),(.call (.setNext ⟨1,0⟩),0)]

theorem idle_of_pair {c : Config (Party 2) (OperationBase 2 Nat Nat) (Instr 2 Nat Nat)}
    (others : ∀ q ∉ pair, c.threads q = []) (idle : (pair.all fun q => (c.threads q).isEmpty) = true) (q : Party 2) :
    c.threads q = [] := by
  by_cases listed : q ∈ pair
  · exact List.isEmpty_iff.mp (List.all_eq_true.mp idle q listed)
  · exact others q listed

/-- If no drain meets a thread between a test and what relies on it, and no queue
    is counted before its front item is announced: once a stop was requested
    through `notify_stop` and no thread is inside a handler, all queues are empty,
    and `complete_` of every item that was ever pushed has been called exactly
    once, unless the item is in a tuple whose zipped operation still runs. -/
theorem stop_leaves_no_item (run : Run (machine n Value exception) Careful (initial n Value Error) steps c)
    (notified : Notified steps) (idle : ∀ p, c.threads p = []) :
    (∀ i, c.shared.queues i = []) ∧
    ∀ x ∈ c.shared.pushed, completeCalls steps x = 1 ∨ InRunningTuple c.shared x := by
  have holds := tracked run
  obtain ⟨threw,parties,items⟩ := holds.items
  have empty := (holds.drained notified).empty
  refine ⟨empty,fun x member => ?_⟩
  have places := settled_places items idle (items.recorded.pushed x member)
  rw [if_neg fun thrown => (items.throwing x thrown).1 member] at places
  simp only [kept,empty,List.count_nil] at places
  by_cases running : runningWith c.shared x = 0
  · left
    rw [holds.pushed x member]
    simp only [itemCompletions]
    omega
  · exact .inr (inRunningTuple_of_pos (Nat.pos_of_ne_zero running))

/-- The first child's item waits when the second child's item stops. -/
theorem stop_leaves_no_item_waiting : ∃ steps c, Run (machine 2 Nat none) Careful (initial 2 Nat Nat) steps c ∧
    (⟨0,0⟩ : Item 2) ∈ c.shared.pushed ∧ ((∀ i, c.shared.queues i = []) ∧
    ∀ x ∈ c.shared.pushed, completeCalls steps x = 1 ∨ InRunningTuple c.shared x) := by
  obtain ⟨steps,c,run,others,found⟩ := exists_run_among (machine 2 Nat (none : Option Nat)) Careful (initial 2 Nat Nat)
    pair (surelyCareful pair) (careful_of_surely pair)
    (List.flatten [begin,[(.call (.itemValue ⟨0,0⟩ 3),0)],List.replicate 4 (.run (.item ⟨0,0⟩),0),
      [(.call (.itemStopped ⟨1,0⟩),0)],List.replicate 7 (.run (.item ⟨1,0⟩),0)])
    (fun _ => rfl) (by decide)
    (fun steps c => (pair.all fun q => (c.threads q).isEmpty) && decide (Notified steps) &&
      decide ((⟨0,0⟩ : Item 2) ∈ c.shared.pushed)) (by decide)
  simp only [Bool.and_eq_true,decide_eq_true_eq] at found
  exact ⟨steps,c,run,found.2,stop_leaves_no_item run found.1.2 (idle_of_pair others found.1.1)⟩

/-- The first child's item has tested the stop flag when the second child's item
    stops and drains the queues; it is pushed after that and never completed. -/
theorem item_slips_in_after_drain : ∃ steps c, Run (machine 2 Nat none) Any (initial 2 Nat Nat) steps c ∧
    Notified steps ∧ (∀ p, c.threads p = []) ∧ c.shared.queues 0 = [⟨0,0⟩] ∧ (⟨0,0⟩ : Item 2) ∈ c.shared.pushed ∧
    completeCalls steps ⟨0,0⟩ = 0 ∧ ¬ InRunningTuple c.shared ⟨0,0⟩ := by
  obtain ⟨steps,c,run,others,found⟩ := exists_run_among (machine 2 Nat (none : Option Nat)) Any (initial 2 Nat Nat)
    pair (fun _ _ => true) (fun _ _ _ _ => trivial)
    (List.flatten [begin,[(.call (.itemValue ⟨0,0⟩ 3),0)],List.replicate 2 (.run (.item ⟨0,0⟩),0),
      [(.call (.itemStopped ⟨1,0⟩),0)],List.replicate 5 (.run (.item ⟨1,0⟩),0),
      List.replicate 2 (.run (.item ⟨0,0⟩),0)])
    (fun _ => rfl) (by decide)
    (fun steps c => (pair.all fun q => (c.threads q).isEmpty) && decide (Notified steps) &&
      decide (c.shared.queues 0 = [⟨0,0⟩]) && decide ((⟨0,0⟩ : Item 2) ∈ c.shared.pushed) &&
      decide (completeCalls steps ⟨0,0⟩ = 0) && c.shared.emitted.isEmpty) (by decide)
  simp only [Bool.and_eq_true,decide_eq_true_eq,List.isEmpty_iff] at found
  obtain ⟨⟨⟨⟨⟨idle,notified⟩,queue⟩,pushed⟩,calls⟩,none⟩ := found
  exact ⟨steps,c,run,notified,idle_of_pair others idle,queue,pushed,calls,by simp [InRunningTuple,none]⟩

/-- Under the same condition: the receiver of an item is completed twice only if
    storing the value threw. When no thread is inside a handler and no zipped
    operation runs, an item that completed either waits in its queue in a zip that
    was not stopped through `notify_stop`, and its receiver is not completed yet,
    or its receiver is completed exactly once if and only if storing did not throw. -/
theorem item_completed_once (run : Run (machine n Value exception) Careful (initial n Value Error) steps c) :
    (∀ x, 2 ≤ itemCompletions c.shared x → Threw c.shared x) ∧
    ((∀ p, c.threads p = []) → (∀ e ∈ c.shared.emitted, e.trigger ∈ c.shared.completedZipped) →
      ∀ x ∈ c.shared.completedItems,
        (x ∈ c.shared.queues x.index ∧ ¬ Notified steps ∧ itemCompletions c.shared x = 0) ∨
        (itemCompletions c.shared x = 1 ↔ ¬ Threw c.shared x)) := by
  have holds := tracked run
  obtain ⟨threw,parties,items⟩ := holds.items
  constructor
  · intro x twice
    have placed := items.placed x
    simp only [kept,itemCompletions] at placed twice
    have thrown : x ∈ threw := by
      by_contra stored
      rw [if_neg stored] at placed
      split at placed <;> omega
    exact (items.throwing x thrown).2
  · intro idle completed x done
    have places := settled_places items idle done
    have none : runningWith c.shared x = 0 := by
      refine List.countP_eq_zero.mpr fun e member => ?_
      simp [completed e member]
    have threw_iff : x ∈ threw ↔ Threw c.shared x := by
      constructor
      · exact fun thrown => (items.throwing x thrown).2
      · rintro ⟨⟨v,came⟩,unset⟩
        rcases items.stored x v came with thrown | there | ⟨q,w,member⟩
        · exact thrown
        · exact absurd unset there
        · rw [idle q] at member
          cases member
    simp only [kept,none,Nat.add_zero] at places
    by_cases waits : x ∈ c.shared.queues x.index
    · left
      have once := items.queued_once waits
      have stored : x ∉ threw := fun thrown => (items.throwing x thrown).1 (items.recorded.queued _ x waits).2.1
      rw [if_neg stored] at places
      refine ⟨waits,fun notified => ?_,by simp only [itemCompletions]; omega⟩
      rw [(holds.drained notified).empty] at waits
      cases waits
    · right
      rw [List.count_eq_zero.mpr waits] at places
      rw [← threw_iff]
      simp only [itemCompletions]
      by_cases thrown : x ∈ threw
      · rw [if_pos thrown] at places
        simp only [thrown,not_true_eq_false,iff_false]
        omega
      · rw [if_neg thrown] at places
        simp only [thrown,not_false_eq_true,iff_true]
        omega

/-- The waiting item is completed once when the queues are drained. -/
theorem item_completed_once_drained : ∃ steps c, Run (machine 2 Nat none) Careful (initial 2 Nat Nat) steps c ∧
    itemCompletions c.shared ⟨0,0⟩ = 1 ∧
    (((⟨0,0⟩ : Item 2) ∈ c.shared.queues 0 ∧ ¬ Notified steps ∧ itemCompletions c.shared ⟨0,0⟩ = 0) ∨
      (itemCompletions c.shared ⟨0,0⟩ = 1 ↔ ¬ Threw c.shared ⟨0,0⟩)) := by
  obtain ⟨steps,c,run,others,found⟩ := exists_run_among (machine 2 Nat (none : Option Nat)) Careful (initial 2 Nat Nat)
    pair (surelyCareful pair) (careful_of_surely pair)
    (List.flatten [begin,[(.call (.itemValue ⟨0,0⟩ 3),0)],List.replicate 4 (.run (.item ⟨0,0⟩),0),
      [(.call (.itemStopped ⟨1,0⟩),0)],List.replicate 7 (.run (.item ⟨1,0⟩),0)])
    (fun _ => rfl) (by decide)
    (fun _ c => (pair.all fun q => (c.threads q).isEmpty) && decide (itemCompletions c.shared ⟨0,0⟩ = 1) &&
      c.shared.emitted.isEmpty && decide ((⟨0,0⟩ : Item 2) ∈ c.shared.completedItems)) (by decide)
  simp only [Bool.and_eq_true,decide_eq_true_eq,List.isEmpty_iff] at found
  obtain ⟨⟨⟨idle,once⟩,none⟩,done⟩ := found
  exact ⟨steps,c,run,once,(item_completed_once run).2 (idle_of_pair others idle) (by simp [none]) _ done⟩

/-- Storing the value throws: the handler of the exception completes the item, and
    the test of the stop flag after it completes the item once more. -/
theorem thrown_item_completed_twice : ∃ steps c, Run (machine 2 Nat (some 7)) Any (initial 2 Nat Nat) steps c ∧
    (∀ p, c.threads p = []) ∧ c.shared.emitted.length = 0 ∧ itemCompletions c.shared ⟨0,0⟩ = 2 := by
  obtain ⟨steps,c,run,others,found⟩ := exists_run_among (machine 2 Nat (some 7)) Any (initial 2 Nat Nat)
    pair (fun _ _ => true) (fun _ _ _ _ => trivial)
    (List.flatten [begin,[(.call (.itemValue ⟨0,0⟩ 3),0),(.run (.item ⟨0,0⟩),1)],
      List.replicate 9 (.run (.item ⟨0,0⟩),0)])
    (fun _ => rfl) (by decide)
    (fun _ c => (pair.all fun q => (c.threads q).isEmpty) && decide (c.shared.emitted.length = 0) &&
      decide (itemCompletions c.shared ⟨0,0⟩ = 2)) (by decide)
  simp only [Bool.and_eq_true,decide_eq_true_eq] at found
  exact ⟨steps,c,run,idle_of_pair others found.1.1,found.1.2,found.2⟩

end SendersIo.ZipItems
