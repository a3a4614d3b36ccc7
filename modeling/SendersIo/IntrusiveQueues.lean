import Mathlib.Data.Finset.Card
import SendersIo.IntrusiveLists
import SendersIo.OperationRuns

/-!
Intrusive queues as sequences. Several queues share the memory of the items, which have one
link each, and every operation does what it does to sequences: there is nothing that a queue
has to keep in step backwards, so that items may be joined in front of others as well.
-/
namespace SendersIo.IntrusiveQueues
open SendersIo.LinkedLists SendersIo.OperationRuns
open SendersIo.IntrusiveLists (chain_graft)

structure IntrusiveQueue where
  head : Nat
  tail : Nat
  deriving DecidableEq

/-- `intrusive_queue::empty`. -/
def IntrusiveQueue.empty (queue : IntrusiveQueue) : Bool := queue.head = 0

/-- `intrusive_queue::front`. -/
def IntrusiveQueue.front (queue : IntrusiveQueue) : Nat := queue.head

/-- `intrusive_queue::pop_front`, with the item that it returns. The links stay as they are, the
    one of the item included. -/
def popFront (next : Nat → Nat) (queue : IntrusiveQueue) : Nat × IntrusiveQueue :=
  let item := queue.head
  (item,⟨next item,if next item = 0 then 0 else queue.tail⟩)

/-- `intrusive_queue::push_front`. -/
def pushFront (next : Nat → Nat) (queue : IntrusiveQueue) (item : Nat) : (Nat → Nat) × IntrusiveQueue :=
  (Function.update next item queue.head,⟨item,if queue.tail = 0 then item else queue.tail⟩)

/-- `intrusive_queue::push_back`. -/
def pushBack (next : Nat → Nat) (queue : IntrusiveQueue) (item : Nat) : (Nat → Nat) × IntrusiveQueue :=
  let next := Function.update next item 0
  if queue.tail = 0 then (next,⟨item,item⟩) else (Function.update next queue.tail item,⟨queue.head,item⟩)

/-- `intrusive_queue::append`; the other queue has been moved into the argument. -/
def append (next : Nat → Nat) (queue other : IntrusiveQueue) : (Nat → Nat) × IntrusiveQueue :=
  if other.empty then (next,queue)
  else if queue.empty then (next,⟨other.head,other.tail⟩)
  else (Function.update next queue.tail other.head,⟨queue.head,other.tail⟩)

/-- `intrusive_queue::prepend`; the other queue has been moved into the argument. -/
def prepend (next : Nat → Nat) (queue other : IntrusiveQueue) : (Nat → Nat) × IntrusiveQueue :=
  if other.empty then (next,queue)
  else
    (Function.update next other.tail queue.head,
      ⟨other.head,if queue.tail = 0 then other.tail else queue.tail⟩)

/-- The loop of `intrusive_queue::make_reversed`: what it makes of the links, and the new head. -/
def reverseLoop : Nat → (Nat → Nat) → Nat → Nat → Option ((Nat → Nat) × Nat)
  | 0,_,_,_ => none
  | fuel + 1,next,list,newHead =>
    if list = 0 then some (next,newHead) else reverseLoop fuel (Function.update next list newHead) (next list) list

/-- `intrusive_queue::make_reversed`. -/
def makeReversed (fuel : Nat) (next : Nat → Nat) (list : Nat) : Option ((Nat → Nat) × IntrusiveQueue) :=
  (reverseLoop fuel next list 0).map fun (next,newHead) => (next,⟨newHead,list⟩)

/-- The items that `push_back` dereferences. -/
def pushBackDerefs (queue : IntrusiveQueue) (item : Nat) : List Nat :=
  if queue.tail = 0 then [item] else [item,queue.tail]

/-- The items that `append` dereferences. -/
def appendDerefs (queue other : IntrusiveQueue) : List Nat :=
  if other.empty then [] else if queue.empty then [] else [queue.tail]

/-- The items that `prepend` dereferences. -/
def prependDerefs (other : IntrusiveQueue) : List Nat := if other.empty then [] else [other.tail]

/-- The items that the loop of `make_reversed` dereferences. -/
def reverseDerefs : Nat → (Nat → Nat) → Nat → Nat → List Nat
  | 0,_,_,_ => []
  | fuel + 1,next,list,newHead =>
    if list = 0 then [] else list :: reverseDerefs fuel (Function.update next list newHead) (next list) list

/-! ### One queue -/

/-- The ends represent the sequence: the links lead through it from the head, and the tail is the
    last of it. -/
structure Represents (next : Nat → Nat) (queue : IntrusiveQueue) (l : List Nat) : Prop where
  forward : Chain next queue.head l
  last : queue.tail = l.getLast?.getD 0
  once : l.Nodup

variable {next next' : Nat → Nat} {queue other : IntrusiveQueue} {l l' : List Nat} {x list newHead fuel : Nat}

/-- A link that is not one of its nodes does not matter to a chain. -/
theorem chain_update {head value : Nat} (chain : Chain next head l) (outside : x ∉ l) :
    Chain (Function.update next x value) head l :=
  chain.congr fun y member => Function.update_of_ne (fun same : y = x => outside (same ▸ member)) _ _

theorem represents_empty (next : Nat → Nat) : Represents next ⟨0,0⟩ [] := ⟨rfl,rfl,List.nodup_nil⟩

theorem Represents.ne_zero (represents : Represents next queue l) : ∀ y ∈ l, y ≠ 0 := represents.forward.ne_zero

theorem Represents.head_eq_zero (represents : Represents next queue l) : queue.head = 0 ↔ l = [] :=
  chain_nil_iff represents.forward

theorem Represents.empty_iff (represents : Represents next queue l) : queue.empty = true ↔ l = [] := by
  rw [IntrusiveQueue.empty,decide_eq_true_iff,represents.head_eq_zero]

theorem Represents.front_eq (represents : Represents next queue l) : queue.front = l.headD 0 := by
  cases l with
  | nil => exact represents.head_eq_zero.mpr rfl
  | cons y l => exact represents.forward.1

/-- A queue with items has its tail among them. -/
theorem Represents.tail_mem (represents : Represents next queue l) (some : l ≠ []) :
    queue.tail ∈ l ∧ l.getLast? = Option.some queue.tail := by
  have last := List.getLast?_eq_some_getLast some
  rw [represents.last,last]
  exact ⟨List.getLast_mem some,rfl⟩

theorem Represents.tail_eq_zero (represents : Represents next queue l) : queue.tail = 0 ↔ l = [] := by
  constructor
  · intro none
    by_contra some
    exact represents.ne_zero _ (represents.tail_mem some).1 none
  · rintro rfl
    exact represents.last

/-- Links that are not those of its items do not matter to a queue. -/
theorem Represents.congr (represents : Represents next queue l) (same : ∀ y ∈ l, next' y = next y) :
    Represents next' queue l :=
  ⟨represents.forward.congr same,represents.last,represents.once⟩

/-- The link of the last item turned to another chain, and all other links kept. -/
theorem Represents.graft (represents : Represents next queue l) (some : l ≠ []) (head : Nat) {b : List Nat}
    (same : ∀ y ∈ l, y ≠ queue.tail → next' y = next y) (joint : next' queue.tail = head)
    (rest : Chain next' head b) : Chain next' queue.head (l ++ b) := by
  have last := (represents.tail_mem some).2
  have chain : Chain next queue.head (l ++ []) := by
    rw [List.append_nil]
    exact represents.forward
  have joined : Chain next' (if l = [] then head else queue.head) (l ++ b) := by
    refine chain_graft chain represents.once ?_ ?_ rest
    · intro y member inner
      exact same y member fun is => inner (is ▸ last)
    · intro y at_y
      rw [last] at at_y
      cases at_y
      exact joint
  rwa [if_neg some] at joined

theorem popFront_represents (represents : Represents next queue (x :: l)) :
    (popFront next queue).1 = x ∧ Represents next (popFront next queue).2 l := by
  obtain ⟨⟨rfl,_,later⟩,last,once⟩ := represents
  refine ⟨rfl,later,?_,(List.nodup_cons.mp once).2⟩
  simp only [popFront]
  cases l with
  | nil => rw [if_pos (show next queue.head = 0 from later)]; rfl
  | cons y l =>
    obtain ⟨first,real,_⟩ := later
    rw [if_neg (first ▸ real),last,List.getLast?_cons_cons]

theorem pushFront_represents (represents : Represents next queue l) (real : x ≠ 0) (fresh : x ∉ l) :
    Represents (pushFront next queue x).1 (pushFront next queue x).2 (x :: l) := by
  refine ⟨(chain_update represents.forward fresh).push (Function.update_self _ _ _) real,?_,
    List.nodup_cons.mpr ⟨fresh,represents.once⟩⟩
  simp only [pushFront]
  split
  · next none => rw [represents.tail_eq_zero.mp none]; rfl
  · next some =>
    obtain ⟨y,l,rfl⟩ := List.exists_cons_of_ne_nil fun empty => some (represents.tail_eq_zero.mpr empty)
    rw [List.getLast?_cons_cons]
    exact represents.last

theorem pushBack_represents (represents : Represents next queue l) (real : x ≠ 0) (fresh : x ∉ l) :
    Represents (pushBack next queue x).1 (pushBack next queue x).2 (l ++ [x]) := by
  have once : (l ++ [x]).Nodup := by
    rw [List.nodup_append]
    exact ⟨represents.once,List.nodup_singleton x,by
      simpa using fun y member (same : y = x) => fresh (same ▸ member)⟩
  have last : x = (l ++ [x]).getLast?.getD 0 := by simp
  unfold pushBack
  simp only
  split
  · next none =>
    obtain rfl := represents.tail_eq_zero.mp none
    exact ⟨⟨rfl,real,Function.update_self _ _ _⟩,last,once⟩
  · next some =>
    have items : l ≠ [] := fun empty => some (represents.tail_eq_zero.mpr empty)
    have other : x ≠ queue.tail := fun same => fresh (same ▸ (represents.tail_mem items).1)
    refine ⟨represents.graft items x ?_ (Function.update_self _ _ _) ⟨rfl,real,?_⟩,last,once⟩
    · intro y member inner
      exact (Function.update_of_ne inner _ _).trans
        (Function.update_of_ne (fun same : y = x => fresh (same ▸ member)) _ _)
    · exact (Function.update_of_ne other _ _).trans (Function.update_self _ _ _)

theorem append_represents (represents : Represents next queue l) (represents' : Represents next other l')
    (apart : ∀ y ∈ l, y ∉ l') :
    Represents (append next queue other).1 (append next queue other).2 (l ++ l') := by
  unfold append
  split
  · next none =>
    obtain rfl := represents'.empty_iff.mp none
    rwa [List.append_nil]
  · next some =>
    split
    · next none =>
      obtain rfl := represents.empty_iff.mp none
      exact represents'
    · next items =>
      have nonempty : l ≠ [] := fun empty => items (represents.empty_iff.mpr empty)
      have nonempty' : l' ≠ [] := fun empty => some (represents'.empty_iff.mpr empty)
      have tail := (represents.tail_mem nonempty).1
      refine ⟨represents.graft nonempty other.head ?_ (Function.update_self _ _ _) ?_,?_,?_⟩
      · exact fun y _ inner => Function.update_of_ne inner _ _
      · exact chain_update represents'.forward (apart _ tail)
      · rw [List.getLast?_append_of_ne_nil _ nonempty']
        exact represents'.last
      · exact List.nodup_append.mpr ⟨represents.once,represents'.once,
          fun y member z member' same => apart y member (same ▸ member')⟩

theorem prepend_represents (represents : Represents next queue l) (represents' : Represents next other l')
    (apart : ∀ y ∈ l, y ∉ l') :
    Represents (prepend next queue other).1 (prepend next queue other).2 (l' ++ l) := by
  unfold prepend
  split
  · next none =>
    obtain rfl := represents'.empty_iff.mp none
    exact represents
  · next some =>
    have nonempty : l' ≠ [] := fun empty => some (represents'.empty_iff.mpr empty)
    have tail := (represents'.tail_mem nonempty).1
    refine ⟨represents'.graft nonempty queue.head ?_ (Function.update_self _ _ _) ?_,?_,?_⟩
    · exact fun y _ inner => Function.update_of_ne inner _ _
    · exact chain_update represents.forward fun member => apart _ member tail
    · simp only
      split
      · next none => rw [represents.tail_eq_zero.mp none,List.append_nil,represents'.last]
      · next items =>
        rw [List.getLast?_append_of_ne_nil _ fun empty => items (represents.tail_eq_zero.mpr empty)]
        exact represents.last
    · exact List.nodup_append.mpr ⟨represents'.once,represents.once,
        fun y member z member' same => apart z member' (same ▸ member)⟩

/-- The loop turns what is left of a chain around in front of what it has turned already, and
    writes the links of the former only. -/
theorem reverseLoop_chain (chain : Chain next list l) (turned : Chain next newHead l') (once : l.Nodup)
    (apart : ∀ y ∈ l, y ∉ l') (enough : l.length < fuel) :
    (∃ next' head, reverseLoop fuel next list newHead = some (next',head) ∧ Chain next' head (l.reverse ++ l') ∧
      ∀ y ∉ l, next' y = next y) ∧ reverseDerefs fuel next list newHead = l := by
  induction l generalizing next list newHead l' fuel with
  | nil =>
    obtain ⟨fuel,rfl⟩ := Nat.exists_eq_succ_of_ne_zero (Nat.ne_of_gt enough)
    have none : list = 0 := chain
    simp only [reverseLoop,reverseDerefs,if_pos none]
    exact ⟨⟨next,newHead,rfl,turned,fun _ _ => rfl⟩,trivial⟩
  | cons y l ih =>
    obtain ⟨fuel,rfl⟩ := Nat.exists_eq_succ_of_ne_zero (Nat.ne_of_gt (Nat.lt_of_le_of_lt (Nat.zero_le _) enough))
    obtain ⟨rfl,real,later⟩ := chain
    obtain ⟨absent,once⟩ := List.nodup_cons.mp once
    have ahead : Chain (Function.update next list newHead) (next list) l := chain_update later absent
    have behind : Chain (Function.update next list newHead) list (list :: l') :=
      (chain_update turned (apart list (by simp))).push (Function.update_self _ _ _) real
    have separate : ∀ z ∈ l, z ∉ list :: l' := by
      intro z member inside
      rcases List.mem_cons.mp inside with rfl | inside
      · exact absent member
      · exact apart z (List.mem_cons_of_mem _ member) inside
    obtain ⟨⟨next',head,result,reversed,kept⟩,visited⟩ := ih ahead behind once separate (by simpa using enough)
    simp only [reverseLoop,reverseDerefs,if_neg real,visited]
    refine ⟨⟨next',head,result,by simpa using reversed,?_⟩,trivial⟩
    intro z outside
    obtain ⟨different,outside⟩ := not_or.mp (by simpa using outside)
    rw [kept z outside,Function.update_of_ne different]

/-- A chain without repetition is turned around. -/
theorem makeReversed_represents (chain : Chain next list l) (once : l.Nodup) (enough : l.length < fuel) :
    ∃ next' queue, makeReversed fuel next list = some (next',queue) ∧ Represents next' queue l.reverse ∧
      ∀ y ∉ l, next' y = next y := by
  obtain ⟨⟨next',head,result,reversed,kept⟩,_⟩ :=
    reverseLoop_chain chain (show Chain next 0 [] from rfl) once (by simp) enough
  rw [List.append_nil] at reversed
  refine ⟨next',⟨head,list⟩,by rw [makeReversed,result]; rfl,⟨reversed,?_,List.nodup_reverse.mpr once⟩,kept⟩
  cases l with
  | nil => exact chain
  | cons y l =>
    rw [List.getLast?_reverse]
    exact chain.1

/-! ### All queues -/

/-- The links of the items, and the queues. -/
structure Queues where
  next : Nat → Nat
  queues : Nat → IntrusiveQueue

/-- The operations on the queues; `construct` and `assign` are the two moves, and `makeReversed`
    makes a queue of what another one links to and its owner forgets. -/
inductive Op where
  | pushFront (i item : Nat)
  | pushBack (i item : Nat)
  | popFront (i : Nat)
  | append (i j : Nat)
  | prepend (i j : Nat)
  | construct (i j : Nat)
  | assign (i j : Nat)
  | makeReversed (i j : Nat)

/-- The queue `i` after one of its operations. -/
def Queues.put (s : Queues) (i : Nat) (result : (Nat → Nat) × IntrusiveQueue) : Queues :=
  ⟨result.1,Function.update s.queues i result.2⟩

/-- A queue from which another one was move-constructed. -/
def Queues.release (s : Queues) (j : Nat) : Queues := { s with queues := Function.update s.queues j ⟨0,0⟩ }

/-- One operation. An assignment swaps the ends with those of its argument, and the argument is
    destroyed with what the queue had. -/
def Queues.step (fuel : Nat) (s : Queues) : Op → Option Queues
  | .pushFront i item => some (s.put i (pushFront s.next (s.queues i) item))
  | .pushBack i item => some (s.put i (pushBack s.next (s.queues i) item))
  | .popFront i => some (s.put i (s.next,(IntrusiveQueues.popFront s.next (s.queues i)).2))
  | .append i j => some ((s.release j).put i (append s.next ((s.release j).queues i) (s.queues j)))
  | .prepend i j => some ((s.release j).put i (prepend s.next ((s.release j).queues i) (s.queues j)))
  | .construct i j => some ((s.release j).put i (s.next,s.queues j))
  | .assign i j => some ((s.release j).put i (s.next,s.queues j))
  | .makeReversed i j => (makeReversed fuel s.next (s.queues j).front).map ((s.release j).put i)

/-- The items that an operation dereferences. -/
def Queues.derefs (fuel : Nat) (s : Queues) : Op → List Nat
  | .pushFront _ item => [item]
  | .pushBack i item => pushBackDerefs (s.queues i) item
  | .popFront i => [(s.queues i).head]
  | .append i j => appendDerefs ((s.release j).queues i) (s.queues j)
  | .prepend _ j => prependDerefs (s.queues j)
  | .construct _ _ => []
  | .assign _ _ => []
  | .makeReversed _ j => reverseDerefs fuel s.next (s.queues j).front 0

/-- The item that an operation returns, if it returns one. -/
def Queues.returns (s : Queues) : Op → Option Nat
  | .popFront i => some (IntrusiveQueues.popFront s.next (s.queues i)).1
  | _ => none

/-- The sequences of the items of all queues. -/
abbrev Sequences := Nat → List Nat

/-- What an operation is to do to the sequences. -/
def apply (m : Sequences) : Op → Sequences
  | .pushFront i item => Function.update m i (item :: m i)
  | .pushBack i item => Function.update m i (m i ++ [item])
  | .popFront i => Function.update m i (m i).tail
  | .append i j => Function.update (Function.update m j []) i (Function.update m j [] i ++ m j)
  | .prepend i j => Function.update (Function.update m j []) i (m j ++ Function.update m j [] i)
  | .construct i j => Function.update (Function.update m j []) i (m j)
  | .assign i j => Function.update (Function.update m j []) i (m j)
  | .makeReversed i j => Function.update (Function.update m j []) i (m j).reverse

/-- The item that an operation is to return. -/
def expected (m : Sequences) : Op → Option Nat
  | .popFront i => (m i).head?
  | _ => none

/-- The operations that may be called: a new item is one of those that there are and is in no
    queue, a queue with items loses its first one, and a queue is constructed from another one. -/
def Permitted (items : Finset Nat) (m : Sequences) : Op → Prop
  | .pushFront _ item => item ∈ items ∧ item ≠ 0 ∧ ∀ k, item ∉ m k
  | .pushBack _ item => item ∈ items ∧ item ≠ 0 ∧ ∀ k, item ∉ m k
  | .popFront i => m i ≠ []
  | .construct i j => i ≠ j
  | _ => True

/-- The items that an operation may dereference: its argument, and those of its queues. -/
def Own (m : Sequences) (item : Nat) : Op → Prop
  | .pushFront i x => item = x ∨ item ∈ m i
  | .pushBack i x => item = x ∨ item ∈ m i
  | .popFront i => item ∈ m i
  | .append i j => item ∈ m i ∨ item ∈ m j
  | .prepend i j => item ∈ m i ∨ item ∈ m j
  | .construct i j => item ∈ m i ∨ item ∈ m j
  | .assign i j => item ∈ m i ∨ item ∈ m j
  | .makeReversed _ j => item ∈ m j

/-- The queues represent the sequences, which share no item and have items that there are. -/
structure Refines (items : Finset Nat) (s : Queues) (m : Sequences) : Prop where
  represents : ∀ k, Represents s.next (s.queues k) (m k)
  apart : ∀ j k, j ≠ k → ∀ x ∈ m j, x ∉ m k
  known : ∀ k, ∀ x ∈ m k, x ∈ items

/-- The operations came to an end, and the queues represent the sequences. -/
def Agrees (items : Finset Nat) (s : Option Queues) (m : Sequences) : Prop := ∃ q, s = some q ∧ Refines items q m

/-- No null and no foreign item is dereferenced, and the item is returned that is to be. -/
def Safe (fuel : Nat) (s : Option Queues) (m : Sequences) (op : Op) : Prop :=
  ∃ q, s = some q ∧ (∀ x ∈ q.derefs fuel op, x ≠ 0 ∧ Own m x op) ∧ q.returns op = expected m op

variable {items : Finset Nat} {s : Queues} {m : Sequences} {i j : Nat} {op : Op}

theorem Refines.put (refines : Refines items s m) {r : (Nat → Nat) × IntrusiveQueue}
    (here : Represents r.1 r.2 l) (others : ∀ k, k ≠ i → ∀ y ∈ m k, r.1 y = s.next y)
    (fresh : ∀ k, k ≠ i → ∀ y ∈ l, y ∉ m k) (known : ∀ y ∈ l, y ∈ items) :
    Refines items (s.put i r) (Function.update m i l) := by
  refine ⟨?_,?_,?_⟩
  · intro k
    by_cases this : k = i
    · subst this
      simpa [Queues.put] using here
    · simp only [Queues.put,Function.update_of_ne this]
      exact (refines.represents k).congr (others k this)
  · intro j k other x mem
    by_cases first : j = i
    · subst first
      rw [Function.update_self] at mem
      rw [Function.update_of_ne (Ne.symm other)]
      exact fresh k (Ne.symm other) x mem
    · rw [Function.update_of_ne first] at mem
      by_cases second : k = i
      · subst second
        rw [Function.update_self]
        exact fun mem' => fresh j first x mem' mem
      · rw [Function.update_of_ne second]
        exact refines.apart j k other x mem
  · intro k x mem
    by_cases this : k = i
    · subst this
      exact known x (by simpa using mem)
    · rw [Function.update_of_ne this] at mem
      exact refines.known k x mem

theorem Refines.release (refines : Refines items s m) (j : Nat) :
    Refines items (s.release j) (Function.update m j []) := by
  have empty : Represents (s.next,(⟨0,0⟩ : IntrusiveQueue)).1 (s.next,(⟨0,0⟩ : IntrusiveQueue)).2 [] :=
    represents_empty s.next
  exact refines.put (i := j) empty (fun _ _ _ _ => rfl) (by simp) (by simp)

/-- The items of a queue that is moved are those of no queue that is left. -/
theorem Refines.moved (refines : Refines items s m) (j k : Nat) : ∀ y ∈ m j, y ∉ Function.update m j [] k := by
  intro y mem
  by_cases this : k = j
  · simp [this]
  · rw [Function.update_of_ne this]
    exact refines.apart j k (Ne.symm this) y mem

/-- A queue that gets the items of another one that was moved, next to its own ones, and writes no
    link of others. -/
theorem Refines.move (refines : Refines items s m) {r : (Nat → Nat) × IntrusiveQueue}
    (here : Represents r.1 r.2 l) (own : ∀ y ∈ l, y ∈ Function.update m j [] i ∨ y ∈ m j)
    (others : ∀ y, y ∉ Function.update m j [] i → y ∉ m j → r.1 y = s.next y) :
    Refines items ((s.release j).put i r) (Function.update (Function.update m j []) i l) := by
  have released := refines.release j
  refine released.put here ?_ ?_ ?_
  · intro k other y mem
    exact others y (released.apart k i other y mem) fun mem' => refines.moved j k y mem' mem
  · intro k other y mem
    rcases own y mem with mem | mem
    · exact released.apart i k (Ne.symm other) y mem
    · exact refines.moved j k y mem
  · intro y mem
    rcases own y mem with mem | mem
    · exact released.known i y mem
    · exact refines.known j y mem

/-- A queue has no more items than there are. -/
theorem Refines.length_le (refines : Refines items s m) (k : Nat) : (m k).length ≤ items.card := by
  rw [← List.toFinset_card_of_nodup (refines.represents k).once]
  exact Finset.card_le_card fun x mem => refines.known k x (List.mem_toFinset.mp mem)

theorem append_kept (represents : Represents next queue l) {y : Nat} (outside : y ∉ l) (other : IntrusiveQueue) :
    (append next queue other).1 y = next y := by
  unfold append
  split
  · rfl
  · split
    · rfl
    · next items =>
      have tail := (represents.tail_mem fun empty => items (represents.empty_iff.mpr empty)).1
      exact Function.update_of_ne (fun same : y = queue.tail => outside (same ▸ tail)) _ _

theorem prepend_kept (represents : Represents next other l) {y : Nat} (outside : y ∉ l) (queue : IntrusiveQueue) :
    (prepend next queue other).1 y = next y := by
  unfold prepend
  split
  · rfl
  · next items =>
    have tail := (represents.tail_mem fun empty => items (represents.empty_iff.mpr empty)).1
    exact Function.update_of_ne (fun same : y = other.tail => outside (same ▸ tail)) _ _

theorem pushBack_kept (represents : Represents next queue l) {y : Nat} (different : y ≠ x) (outside : y ∉ l) :
    (pushBack next queue x).1 y = next y := by
  unfold pushBack
  simp only
  split
  · exact Function.update_of_ne different _ _
  · next items =>
    have tail := (represents.tail_mem fun empty => items (represents.tail_eq_zero.mpr empty)).1
    exact (Function.update_of_ne (fun same : y = queue.tail => outside (same ▸ tail)) _ _).trans
      (Function.update_of_ne different _ _)

/-- A permitted operation comes to an end and does to the queues what it does to the sequences. -/
theorem refines_step (refines : Refines items s m) (permitted : Permitted items m op) (enough : items.card < fuel) :
    ∃ s', s.step fuel op = some s' ∧ Refines items s' (apply m op) := by
  cases op with
  | pushFront i x =>
    obtain ⟨known,real,fresh⟩ := permitted
    refine ⟨_,rfl,refines.put (pushFront_represents (refines.represents i) real (fresh i)) ?_ ?_ ?_⟩
    · exact fun k _ y mem => Function.update_of_ne (fun same : y = x => fresh k (same ▸ mem)) _ _
    · intro k other y mem
      rcases List.mem_cons.mp mem with rfl | mem
      · exact fresh k
      · exact refines.apart i k (Ne.symm other) y mem
    · exact fun y mem => (List.mem_cons.mp mem).elim (fun same => same ▸ known) (refines.known i y)
  | pushBack i x =>
    obtain ⟨known,real,fresh⟩ := permitted
    refine ⟨_,rfl,refines.put (pushBack_represents (refines.represents i) real (fresh i)) ?_ ?_ ?_⟩
    · exact fun k other y mem => pushBack_kept (refines.represents i) (fun same : y = x => fresh k (same ▸ mem))
        (refines.apart k i other y mem)
    · intro k other y mem
      rcases List.mem_append.mp mem with mem | mem
      · exact refines.apart i k (Ne.symm other) y mem
      · exact List.mem_singleton.mp mem ▸ fresh k
    · intro y mem
      rcases List.mem_append.mp mem with mem | mem
      · exact refines.known i y mem
      · exact List.mem_singleton.mp mem ▸ known
  | popFront i =>
    obtain ⟨x,rest,first⟩ := List.exists_cons_of_ne_nil permitted
    have represents := refines.represents i
    rw [first] at represents
    refine ⟨_,rfl,?_⟩
    change Refines items _ (Function.update m i (m i).tail)
    rw [first,List.tail_cons]
    have inside : ∀ y ∈ rest, y ∈ m i := fun y mem => first ▸ List.mem_cons_of_mem x mem
    exact refines.put (popFront_represents represents).2 (fun _ _ _ _ => rfl)
      (fun k other y mem => refines.apart i k (Ne.symm other) y (inside y mem))
      fun y mem => refines.known i y (inside y mem)
  | append i j =>
    have own := (refines.release j).represents i
    have joined := append_represents own (refines.represents j) fun y mem mem' => refines.moved j i y mem' mem
    exact ⟨_,rfl,refines.move joined (fun _ => List.mem_append.mp) fun y outside _ => append_kept own outside _⟩
  | prepend i j =>
    have own := (refines.release j).represents i
    have joined := prepend_represents own (refines.represents j) fun y mem mem' => refines.moved j i y mem' mem
    exact ⟨_,rfl,refines.move joined (fun _ mem => (List.mem_append.mp mem).symm)
      fun y _ outside => prepend_kept (refines.represents j) outside _⟩
  | construct i j => exact ⟨_,rfl,refines.move (refines.represents j) (fun _ => .inr) fun _ _ _ => rfl⟩
  | assign i j => exact ⟨_,rfl,refines.move (refines.represents j) (fun _ => .inr) fun _ _ _ => rfl⟩
  | makeReversed i j =>
    obtain ⟨next',queue,result,reversed,kept⟩ := makeReversed_represents (refines.represents j).forward
      (refines.represents j).once (Nat.lt_of_le_of_lt (refines.length_le j) enough)
    refine ⟨_,by rw [Queues.step,IntrusiveQueue.front,result]; rfl,?_⟩
    exact refines.move (r := (next',queue)) reversed (fun y mem => .inr (List.mem_reverse.mp mem))
      fun y _ outside => kept y outside

/-- A permitted operation dereferences its own items only. -/
theorem derefs_own (refines : Refines items s m) (permitted : Permitted items m op) (enough : items.card < fuel) :
    ∀ x ∈ s.derefs fuel op, x ≠ 0 ∧ Own m x op := by
  have real : ∀ k, ∀ y ∈ m k, y ≠ 0 := fun k => (refines.represents k).ne_zero
  intro y derefs
  cases op with
  | pushFront i x =>
    obtain rfl := List.mem_singleton.mp derefs
    exact ⟨permitted.2.1,.inl rfl⟩
  | pushBack i x =>
    simp only [Queues.derefs,pushBackDerefs] at derefs
    split at derefs
    · obtain rfl := List.mem_singleton.mp derefs
      exact ⟨permitted.2.1,.inl rfl⟩
    · next some =>
      have tail := ((refines.represents i).tail_mem fun empty =>
        some ((refines.represents i).tail_eq_zero.mpr empty)).1
      rcases List.mem_pair.mp derefs with rfl | rfl
      · exact ⟨permitted.2.1,.inl rfl⟩
      · exact ⟨real i _ tail,.inr tail⟩
  | popFront i =>
    obtain rfl := List.mem_singleton.mp derefs
    obtain ⟨x,rest,first⟩ := List.exists_cons_of_ne_nil permitted
    have head : (s.queues i).head ∈ m i := by
      have forward := (refines.represents i).forward
      rw [first] at forward ⊢
      exact forward.1 ▸ List.mem_cons_self
    exact ⟨real i _ head,head⟩
  | append i j =>
    simp only [Queues.derefs,appendDerefs] at derefs
    split at derefs
    · cases derefs
    · split at derefs
      · cases derefs
      · next some =>
        obtain rfl := List.mem_singleton.mp derefs
        have own := (refines.release j).represents i
        have tail := (own.tail_mem fun empty => some (own.empty_iff.mpr empty)).1
        by_cases this : i = j
        · subst this
          simp at tail
        · rw [Function.update_of_ne this] at tail
          exact ⟨real i _ tail,.inl tail⟩
  | prepend i j =>
    simp only [Queues.derefs,prependDerefs] at derefs
    split at derefs
    · cases derefs
    · next some =>
      obtain rfl := List.mem_singleton.mp derefs
      have tail := ((refines.represents j).tail_mem fun empty =>
        some ((refines.represents j).empty_iff.mpr empty)).1
      exact ⟨real j _ tail,.inr tail⟩
  | construct i j => cases derefs
  | assign i j => cases derefs
  | makeReversed i j =>
    have represents := refines.represents j
    have visited := (reverseLoop_chain represents.forward (show Chain s.next 0 [] from rfl) represents.once (by simp)
      (Nat.lt_of_le_of_lt (refines.length_le j) enough)).2
    rw [Queues.derefs,IntrusiveQueue.front,visited] at derefs
    exact ⟨real j y derefs,derefs⟩

theorem returns_expected (refines : Refines items s m) (permitted : Permitted items m op) :
    s.returns op = expected m op := by
  cases op with
  | popFront i =>
    obtain ⟨x,rest,first⟩ := List.exists_cons_of_ne_nil permitted
    have represents := refines.represents i
    rw [first] at represents
    rw [Queues.returns,expected,(popFront_represents represents).1,first]
    rfl
  | _ => rfl

/-! ### Runs -/

/-- The sequences of empty queues. -/
def noItems : Sequences := fun _ => []

/-- Empty queues, over any memory. -/
def emptyQueues (next : Nat → Nat) : Queues := ⟨next,fun _ => ⟨0,0⟩⟩

theorem emptyQueues_refines (items : Finset Nat) (next : Nat → Nat) : Refines items (emptyQueues next) noItems :=
  ⟨fun _ => represents_empty next,fun _ _ _ _ member => absurd member List.not_mem_nil,
    fun _ _ member => absurd member List.not_mem_nil⟩

/-- Every operation of a run comes to an end, keeps to its own items and returns the one that it
    is to return, and the queues represent the sequences before it and after it. -/
def Represented (items : Finset Nat) (fuel : Nat) (next : Nat → Nat) (ops : List Op) : Prop :=
  Correct (fun s op => s.bind (Queues.step fuel · op)) apply (Safe fuel) (Agrees items) (some (emptyQueues next)) noItems ops

/-- Whatever the items link to at first, every run of permitted operations on empty queues does what
    it does to sequences. -/
theorem queues_refine (items : Finset Nat) (next : Nat → Nat) (ops : List Op)
    (valid : Throughout apply (Permitted items) noItems ops) (enough : items.card < fuel) :
    Represented items fuel next ops := by
  refine (correct_iff (Agrees items) (fun _ _ => id) ?_ ?_
    ⟨_,rfl,emptyQueues_refines items next⟩ valid).mpr valid
  · rintro _ m op ⟨s,rfl,refines⟩ permitted _
    obtain ⟨s',stepped,kept⟩ := refines_step refines permitted enough
    exact ⟨⟨s,rfl,derefs_own refines permitted enough,returns_expected refines permitted⟩,s',stepped,kept⟩
  · exact fun _ _ _ _ permitted not => absurd permitted not

/-- Items at both ends of a queue that is turned around and joined in front of another one. -/
theorem queues_refine_reversed :
    Represented {5,7,9} 4 id
      [.pushBack 0 7,.pushFront 0 9,.makeReversed 1 0,.pushBack 0 5,.prepend 0 1,.popFront 0] :=
  queues_refine {5,7,9} id _
    (by simp [Throughout,Permitted,apply,noItems,Function.update_apply]) (by decide)

end SendersIo.IntrusiveQueues
