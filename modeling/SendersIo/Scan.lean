import Mathlib.Data.List.Nodup
import SendersIo.Interleaving
import SendersIo.Signals

/-!
`scan`. The items of the source may complete on several threads at once, unless the source
is known to run in lock step: then `scan_data` has no mutex. A call of the function object
may change the object and the value that it gets, also when it throws. However the calls
interleave, the items complete as if they had been called one after the other, each of them
between its own start and its own end.
-/
namespace SendersIo.Scan
open SendersIo.Interleaving SendersIo.Signals

variable {Fn Tp Arg Error : Type}

/-- What happens to an item: its sender completes, and then its receiver is completed. -/
inductive Entry (Tp Arg Error : Type) where
  | called (x : Nat) (r : Completion Arg Error)
  | completed (x : Nat) (r : Completion Tp Error)

/-- `scan_data`, with what has happened so far: the items whose values have been passed to
    the function object, in this order, and the history of all of them. -/
structure Data (Fn Tp Arg Error : Type) where
  value : Tp
  fn : Fn
  mutex : Option Nat
  applied : List (Nat × Arg)
  history : List (Entry Tp Arg Error)

/-- The steps of `item_receiver`: `scan_data::emplace`, and the completion of the receiver. -/
inductive Instr (Tp Arg Error : Type) where
  | lock
  | call (a : Arg)
  | assign (v : Tp)
  | copyValue
  | unlock
  | complete (r : Completion Tp Error)

/-- The end of `emplace`, by its return or by an exception, and the completion of the receiver. -/
def leave (lockStep : Bool) (r : Completion Tp Error) : List (Instr Tp Arg Error) :=
  if lockStep then [.complete r] else [.unlock,.complete r]

/-- `item_receiver`: values are scanned, all else is passed on. -/
def handler (lockStep : Bool) : Completion Arg Error → List (Instr Tp Arg Error)
  | .value a => if lockStep then [.call a] else [.lock,.call a]
  | .error e => [.complete (.error e)]
  | .stopped => [.complete .stopped]

/-- One step of the item `x`. The function object gets itself and the value by reference. -/
def exec (invoke : Fn → Tp → Arg → Except Error Tp × Fn × Tp) (lockStep : Bool) (x : Nat) :
    Instr Tp Arg Error → Data Fn Tp Arg Error → List (Data Fn Tp Arg Error × List (Instr Tp Arg Error))
  | .lock,s => if s.mutex.isNone then [({ s with mutex := some x },[])] else []
  | .call a,s =>
    let (result,fn,value) := invoke s.fn s.value a
    let s := { s with fn := fn, value := value, applied := s.applied ++ [(x,a)] }
    match result with
    | .ok v => [(s,[.assign v,.copyValue])]
    | .error e => [(s,leave lockStep (.error e))]
  | .assign v,s => [({ s with value := v },[])]
  | .copyValue,s => [(s,leave lockStep (.value s.value))]
  | .unlock,s => [({ s with mutex := none },[])]
  | .complete r,s => [({ s with history := s.history ++ [.completed x r] },[])]

def Entry.item? : Entry Tp Arg Error → Option Nat
  | .called x _ => some x
  | .completed _ _ => none

/-- The items whose senders have completed. -/
def Data.items (s : Data Fn Tp Arg Error) : List Nat := s.history.filterMap Entry.item?

/-- The sender of an item completes once. -/
def accept (lockStep : Bool) (e : Nat × Completion Arg Error) (s : Data Fn Tp Arg Error) :
    Option (Data Fn Tp Arg Error × List (Instr Tp Arg Error)) :=
  if e.1 ∈ s.items then none
  else some ({ s with history := s.history ++ [.called e.1 e.2] },handler lockStep e.2)

def machine (invoke : Fn → Tp → Arg → Except Error Tp × Fn × Tp) (lockStep : Bool) :
    Machine Nat (Data Fn Tp Arg Error) (Instr Tp Arg Error) (Nat × Completion Arg Error) where
  exec := exec invoke lockStep
  accept := accept lockStep
  party e := e.1

def initial (fn : Fn) (init : Tp) : Config Nat (Data Fn Tp Arg Error) (Instr Tp Arg Error) :=
  ⟨⟨init,fn,none,[],[]⟩,fun _ => []⟩

/-- A source that runs in lock step completes an item only after the one before it is done. -/
def InStep (lockStep : Bool) (c : Config Nat (Data Fn Tp Arg Error) (Instr Tp Arg Error)) :
    Label Nat (Nat × Completion Arg Error) → Prop
  | .run _ => True
  | .call _ => lockStep = true → ∀ p, c.threads p = []

/-! ### One item after the other -/

/-- A whole call of `emplace`: the function object and the value after it, and how the receiver
    is completed. -/
def scanned (invoke : Fn → Tp → Arg → Except Error Tp × Fn × Tp) (s : Fn × Tp) (a : Arg) :
    (Fn × Tp) × Completion Tp Error :=
  match invoke s.1 s.2 a with
  | (.ok v,fn,_) => ((fn,v),.value v)
  | (.error e,fn,value) => ((fn,value),.error e)

/-- The function object and the value after some items. -/
def stateAfter (invoke : Fn → Tp → Arg → Except Error Tp × Fn × Tp) (s : Fn × Tp) (items : List (Nat × Arg)) :
    Fn × Tp :=
  items.foldl (fun s item => (scanned invoke s item.2).1) s

/-- How the receivers of the items are completed. -/
def results (invoke : Fn → Tp → Arg → Except Error Tp × Fn × Tp) (s : Fn × Tp) :
    List (Nat × Arg) → List (Nat × Completion Tp Error)
  | [] => []
  | item :: items => (item.1,(scanned invoke s item.2).2) :: results invoke (scanned invoke s item.2).1 items

/-- The completions that are passed on. -/
def Passes : Completion Arg Error → Completion Tp Error → Prop
  | .error e,.error e' => e = e'
  | .stopped,.stopped => True
  | _,_ => False

/-- The items complete as they do one after the other in the given order, in which an item that
    was done before another one started comes first. -/
structure Linearizes (invoke : Fn → Tp → Arg → Except Error Tp × Fn × Tp) (start : Fn × Tp)
    (history : List (Entry Tp Arg Error)) (order : List (Nat × Arg)) : Prop where
  once : (order.map Prod.fst).Nodup
  called : ∀ item ∈ order, .called item.1 (.value item.2) ∈ history
  answered : ∀ x r, .completed x r ∈ history →
    ((∃ a, .called x (.value a) ∈ history) ∧ (x,r) ∈ results invoke start order) ∨
      ∃ r', .called x r' ∈ history ∧ Passes r' r
  respects : ∀ before y r later, history = before ++ .called y r :: later →
    ∃ first second, order = first ++ second ∧ y ∉ first.map Prod.fst ∧
      ∀ x a r', .called x (.value a) ∈ before → .completed x r' ∈ before → x ∈ first.map Prod.fst

section
variable {invoke : Fn → Tp → Arg → Except Error Tp × Fn × Tp} {start : Fn × Tp} {items more : List (Nat × Arg)} {x : Nat}
  {a : Arg} {r : Completion Tp Error}

theorem results_append (items more : List (Nat × Arg)) :
    results invoke start (items ++ more) = results invoke start items ++ results invoke (stateAfter invoke start items) more := by
  induction items generalizing start with
  | nil => rfl
  | cons item items ih => simp [results,stateAfter,ih]

theorem stateAfter_last (items : List (Nat × Arg)) (item : Nat × Arg) :
    stateAfter invoke start (items ++ [item]) = (scanned invoke (stateAfter invoke start items) item.2).1 := by
  simp [stateAfter]

theorem mem_results_append (member : (x,r) ∈ results invoke start items) : (x,r) ∈ results invoke start (items ++ more) := by
  rw [results_append]
  exact List.mem_append_left _ member

theorem mem_results_last :
    (x,(scanned invoke (stateAfter invoke start items) a).2) ∈ results invoke start (items ++ [(x,a)]) := by
  rw [results_append]
  exact List.mem_append_right _ (List.mem_singleton_self _)

theorem item_of_results (member : (x,r) ∈ results invoke start items) : x ∈ items.map Prod.fst := by
  induction items generalizing start with
  | nil => cases member
  | cons item items ih =>
    rcases List.mem_cons.mp member with same | member
    · rw [(Prod.mk.inj same).1]
      exact List.mem_cons_self
    · exact List.mem_cons_of_mem _ (ih member)

end

/-! ### What every item is about to do -/

section
variable (invoke : Fn → Tp → Arg → Except Error Tp × Fn × Tp) (start : Fn × Tp) (lockStep : Bool)
  (s : Data Fn Tp Arg Error) (x : Nat)

/-- The item has a value, and it has not been passed to the function object. -/
def Fresh (a : Arg) : Prop := .called x (.value a) ∈ s.history ∧ x ∉ s.applied.map Prod.fst

/-- The item had a value, and this is what came of it. -/
def Scanned (r : Completion Tp Error) : Prop :=
  (∃ a, .called x (.value a) ∈ s.history) ∧ (x,r) ∈ results invoke start s.applied

/-- How the receiver of the item is to be completed. -/
def Answer (r : Completion Tp Error) : Prop :=
  Scanned invoke start s x r ∨ ∃ r', .called x r' ∈ s.history ∧ Passes r' r

/-- The function object and the value are those after the items that were passed on. -/
def Settled (v : Tp) : Prop := (s.fn,v) = stateAfter invoke start s.applied

/-- What an item has left outside of `emplace`. -/
inductive Outside : List (Instr Tp Arg Error) → Prop
  | idle : Outside []
  | waiting {a : Arg} (mutex : lockStep = false) (fresh : Fresh s x a) : Outside [.lock,.call a]
  | answering {r : Completion Tp Error} (answer : Answer invoke start s x r) : Outside [.complete r]

/-- What the item has left that is in `emplace`, or about to call it in lock step. -/
inductive Inside : List (Instr Tp Arg Error) → Prop
  | calling {a : Arg} (fresh : Fresh s x a) (settled : Settled invoke start s s.value) : Inside [.call a]
  | assigning {v : Tp} (settled : Settled invoke start s v) (result : Scanned invoke start s x (.value v)) :
      Inside [.assign v,.copyValue]
  | copying (settled : Settled invoke start s s.value) (result : Scanned invoke start s x (.value s.value)) :
      Inside [.copyValue]
  | leaving {r : Completion Tp Error} (mutex : lockStep = false) (settled : Settled invoke start s s.value)
      (result : Scanned invoke start s x r) : Inside [.unlock,.complete r]

end

/-- `h` is the item that is in `emplace`. -/
structure Invariant (invoke : Fn → Tp → Arg → Except Error Tp × Fn × Tp) (start : Fn × Tp) (lockStep : Bool)
    (c : Config Nat (Data Fn Tp Arg Error) (Instr Tp Arg Error)) (h : Option Nat) : Prop where
  mutex : lockStep = false → c.shared.mutex = h
  inside : ∀ x, h = some x → Inside invoke start lockStep c.shared x (c.threads x)
  outside : ∀ x, h ≠ some x → Outside invoke start lockStep c.shared x (c.threads x)
  settled : h = none → Settled invoke start c.shared c.shared.value
  unique : ∀ x r r', .called x r ∈ c.shared.history → .called x r' ∈ c.shared.history → r = r'
  underway : ∀ x r, .called x r ∈ c.shared.history → c.threads x = [] → ∃ r', .completed x r' ∈ c.shared.history
  linearizes : Linearizes invoke start c.shared.history c.shared.applied

section
variable {invoke : Fn → Tp → Arg → Except Error Tp × Fn × Tp} {start : Fn × Tp} {lockStep : Bool}
  {c : Config Nat (Data Fn Tp Arg Error) (Instr Tp Arg Error)} {h : Option Nat} {x y : Nat} {s s' : Data Fn Tp Arg Error}
  {i : Instr Tp Arg Error} {new rest prog : List (Instr Tp Arg Error)} {r : Completion Tp Error} {a : Arg}

/-- What a step of the item `x` adds to what has happened. -/
structure Grows (x : Nat) (s s' : Data Fn Tp Arg Error) : Prop where
  history : ∀ e ∈ s.history, e ∈ s'.history
  applied : ∃ more, s'.applied = s.applied ++ more ∧ ∀ item ∈ more, item.1 = x

theorem Grows.of_same (history : s'.history = s.history) (applied : s'.applied = s.applied) : Grows x s s' :=
  ⟨fun _ => by rw [history]; exact id,[],by rw [applied,List.append_nil],by simp⟩

theorem Grows.scanned (grows : Grows x s s') (before : Scanned invoke start s y r) : Scanned invoke start s' y r := by
  obtain ⟨⟨a,called⟩,result⟩ := before
  obtain ⟨more,applied,_⟩ := grows.applied
  exact ⟨⟨a,grows.history _ called⟩,applied ▸ mem_results_append result⟩

theorem Grows.answer (grows : Grows x s s') (before : Answer invoke start s y r) : Answer invoke start s' y r :=
  before.imp grows.scanned fun passed => passed.imp fun _ passes => ⟨grows.history _ passes.1,passes.2⟩

theorem Grows.fresh (grows : Grows x s s') (other : y ≠ x) (before : Fresh s y a) : Fresh s' y a := by
  obtain ⟨more,applied,only⟩ := grows.applied
  refine ⟨grows.history _ before.1,?_⟩
  rw [applied,List.map_append,List.mem_append,not_or]
  refine ⟨before.2,fun member => ?_⟩
  obtain ⟨item,inside,is⟩ := List.mem_map.mp member
  exact other (is.symm.trans (only item inside))

/-- What others have left outside of `emplace` is not affected by a step. -/
theorem Grows.outside (grows : Grows x s s') (other : y ≠ x) (before : Outside invoke start lockStep s y prog) :
    Outside invoke start lockStep s' y prog := by
  cases before with
  | idle => exact .idle
  | waiting mutex fresh => exact .waiting mutex (grows.fresh other fresh)
  | answering answer => exact .answering (grows.answer answer)

/-- The order stays a linearization when an item is passed to the function object that has not
    been. -/
theorem Linearizes.apply {history : List (Entry Tp Arg Error)} {order : List (Nat × Arg)}
    (linear : Linearizes invoke start history order) (called : .called x (.value a) ∈ history)
    (absent : x ∉ order.map Prod.fst) : Linearizes invoke start history (order ++ [(x,a)]) where
  once := by
    rw [List.map_append,List.nodup_append]
    exact ⟨linear.once,List.nodup_singleton x,by simpa using fun b member (same : b = x) => absent (same ▸ member)⟩
  called item member := by
    rcases List.mem_append.mp member with member | last
    · exact linear.called item member
    · rw [List.mem_singleton.mp last]
      exact called
  answered y r done := (linear.answered y r done).imp_left fun result => ⟨result.1,mem_results_append result.2⟩
  respects before y r later split := by
    obtain ⟨first,second,rfl,missing,earlier⟩ := linear.respects before y r later split
    exact ⟨first,second ++ [(x,a)],by simp,missing,earlier⟩

/-- The history is cut before its last entry, or where it was cut before. -/
theorem cut_last {e e' : Entry Tp Arg Error} {history before later : List (Entry Tp Arg Error)}
    (split : history ++ [e] = before ++ e' :: later) :
    history = before ∧ e = e' ∧ later = [] ∨ ∃ later', later = later' ++ [e] ∧ history = before ++ e' :: later' := by
  rcases List.eq_nil_or_concat later with rfl | ⟨later',last,rfl⟩
  · obtain ⟨same,is⟩ := List.append_inj' split rfl
    exact .inl ⟨same,List.singleton_inj.mp is,rfl⟩
  · rw [List.concat_eq_append,← List.cons_append,← List.append_assoc] at split
    obtain ⟨same,is⟩ := List.append_inj' split rfl
    exact .inr ⟨later',by rw [List.concat_eq_append,List.singleton_inj.mp is],same⟩

theorem Linearizes.complete {history : List (Entry Tp Arg Error)} {order : List (Nat × Arg)}
    (linear : Linearizes invoke start history order)
    (answer : ((∃ a, .called x (.value a) ∈ history) ∧ (x,r) ∈ results invoke start order) ∨
      ∃ r', .called x r' ∈ history ∧ Passes r' r) :
    Linearizes invoke start (history ++ [.completed x r]) order where
  once := linear.once
  called item member := List.mem_append_left _ (linear.called item member)
  answered y r' done := by
    have before := List.mem_append.mp done
    refine Or.imp (And.imp_left (Exists.imp fun _ => List.mem_append_left _))
      (Exists.imp fun _ => And.imp_left (List.mem_append_left _)) (?_ : _ ∨ _)
    rcases before with before | now
    · exact linear.answered y r' before
    · cases List.mem_singleton.mp now
      exact answer
  respects before y r' later split := by
    rcases cut_last split with ⟨_,is,_⟩ | ⟨later',_,split⟩
    · cases is
    · exact linear.respects before y r' later' split

theorem Linearizes.call {history : List (Entry Tp Arg Error)} {order : List (Nat × Arg)} {r' : Completion Arg Error}
    (linear : Linearizes invoke start history order) (absent : ∀ q, .called x q ∉ history)
    (unique : ∀ y q q', .called y q ∈ history → .called y q' ∈ history → q = q') :
    Linearizes invoke start (history ++ [.called x r']) order where
  once := linear.once
  called item member := List.mem_append_left _ (linear.called item member)
  answered y q done := by
    have before : .completed y q ∈ history := by simpa using done
    exact Or.imp (And.imp_left (Exists.imp fun _ => List.mem_append_left _))
      (Exists.imp fun _ => And.imp_left (List.mem_append_left _)) (linear.answered y q before)
  respects before y q later split := by
    rcases cut_last split with ⟨rfl,is,_⟩ | ⟨later',_,split⟩
    · cases is
      refine ⟨order,[],by simp,fun member => ?_,fun z a q' called done => ?_⟩
      · obtain ⟨item,inside,rfl⟩ := List.mem_map.mp member
        exact absent _ (linear.called item inside)
      -- what is done and had a value has been passed to the function object
      · rcases linear.answered z q' done with ⟨_,result⟩ | ⟨q,passed,passes⟩
        · exact item_of_results result
        · rw [unique z q _ passed called] at passes
          exact passes.elim
    · exact linear.respects before y q later' split

theorem Inside.not_idle (inside : Inside invoke start lockStep s x prog) : prog ≠ [] := by
  cases inside <;> simp

theorem inside_congr (fn : s'.fn = s.fn) (value : s'.value = s.value) (applied : s'.applied = s.applied)
    (history : ∀ e ∈ s.history, e ∈ s'.history) (before : Inside invoke start lockStep s y prog) :
    Inside invoke start lockStep s' y prog := by
  have settled : ∀ v, Settled invoke start s v → Settled invoke start s' v := fun v settled => by
    rwa [Settled,fn,applied]
  have scanned : ∀ r, Scanned invoke start s y r → Scanned invoke start s' y r := fun r result =>
    ⟨result.1.imp fun _ => history _,by rw [applied]; exact result.2⟩
  cases before with
  | calling fresh there =>
    exact .calling ⟨history _ fresh.1,by rw [applied]; exact fresh.2⟩ (by rw [value]; exact settled _ there)
  | assigning there result => exact .assigning (settled _ there) (scanned _ result)
  | copying there result =>
    exact .copying (by rw [value]; exact settled _ there) (by rw [value]; exact scanned _ result)
  | leaving mutex there result =>
    exact .leaving mutex (by rw [value]; exact settled _ there) (scanned _ result)

/-- A step of the item `x` that is in `emplace`, before or after it. -/
theorem Invariant.owner {h' : Option Nat} (inv : Invariant invoke start lockStep c h) (mine : h = none ∨ h = some x)
    (mine' : h' = none ∨ h' = some x) (grows : Grows x c.shared s) (history : s.history = c.shared.history)
    (mutex : lockStep = false → s.mutex = h') (inside : h' = some x → Inside invoke start lockStep s x prog)
    (outside : h' = none → Outside invoke start lockStep s x prog) (settled : h' = none → Settled invoke start s s.value)
    (busy : prog ≠ []) (linear : Linearizes invoke start s.history s.applied) :
    Invariant invoke start lockStep (c.put x s prog) h' where
  mutex := mutex
  inside y holds := by
    obtain rfl : y = x := by
      rcases mine' with rfl | rfl
      · cases holds
      · exact (Option.some.inj holds).symm
    rw [put_threads_self]
    exact inside holds
  outside y free := by
    by_cases this : y = x
    · subst this
      rw [put_threads_self]
      exact outside (mine'.resolve_right free)
    · rw [put_threads_ne c this]
      refine grows.outside this (inv.outside y ?_)
      rcases mine with rfl | rfl
      · simp
      · simpa using Ne.symm this
  settled := settled
  unique := by rw [put_shared,history]; exact inv.unique
  underway y q called idle := by
    rw [put_shared,history] at called ⊢
    rw [put_threads] at idle
    split at idle
    · exact absurd idle busy
    · exact inv.underway y q called idle
  linearizes := linear

/-- The receiver of an item is completed. -/
theorem Invariant.completed (inv : Invariant invoke start lockStep c h) (answer : Answer invoke start c.shared x r)
    (other : h ≠ some x) :
    Invariant invoke start lockStep
      (c.put x { c.shared with history := c.shared.history ++ [.completed x r] } []) h where
  mutex := inv.mutex
  inside y holds := by
    have different : y ≠ x := fun same => other (same ▸ holds)
    rw [put_threads_ne c different]
    exact inside_congr (s := c.shared) rfl rfl rfl (fun _ => List.mem_append_left _) (inv.inside y holds)
  outside y free := by
    rw [put_threads]
    split
    · exact .idle
    · next different =>
      have grows : Grows x c.shared { c.shared with history := c.shared.history ++ [.completed x r] } :=
        ⟨fun _ => List.mem_append_left _,[],by simp,by simp⟩
      exact grows.outside different (inv.outside y free)
  settled := inv.settled
  unique y q q' called called' :=
    inv.unique y q q' (by simpa using called) (by simpa using called')
  underway y q called idle := by
    have before : .called y q ∈ c.shared.history := by simpa using called
    rw [put_threads] at idle
    split at idle
    · next same => exact ⟨r,by simp [same]⟩
    · obtain ⟨r',done⟩ := inv.underway y q before idle
      exact ⟨r',List.mem_append_left _ done⟩
  linearizes := inv.linearizes.complete answer

/-- `emplace` returns or throws. -/
theorem Invariant.left (inv : Invariant invoke start lockStep c (some x)) (grows : Grows x c.shared s)
    (history : s.history = c.shared.history) (mutex : s.mutex = c.shared.mutex)
    (settled : Settled invoke start s s.value) (result : Scanned invoke start s x r)
    (linear : Linearizes invoke start s.history s.applied) :
    ∃ h', Invariant invoke start lockStep (c.put x s (leave lockStep r)) h' := by
  cases kind : lockStep with
  | false =>
    subst kind
    refine ⟨some x,inv.owner (.inr rfl) (.inr rfl) grows history (fun unlocked => by rw [mutex,inv.mutex unlocked])
      (fun _ => .leaving rfl settled result) (by simp) (by simp) (by simp [leave]) linear⟩
  | true =>
    subst kind
    exact ⟨none,inv.owner (.inr rfl) (.inl rfl) grows history (by simp) (by simp) (fun _ => .answering (.inl result))
      (fun _ => settled) (by simp [leave]) linear⟩

/-- The steps of the item that is in `emplace`. -/
theorem Invariant.inside_run (inv : Invariant invoke start lockStep c (some x)) (left : c.threads x = i :: rest)
    (ran : (s,new) ∈ exec invoke lockStep x i c.shared) :
    ∃ h', Invariant invoke start lockStep (c.put x s (new ++ rest)) h' := by
  have there := inv.inside x rfl
  rw [left] at there
  cases there with
  | @calling a fresh settled =>
    have now : ∀ f v out, invoke c.shared.fn c.shared.value a = (out,f,v) →
        scanned invoke (stateAfter invoke start c.shared.applied) a =
          match out with
          | .ok v' => ((f,v'),.value v')
          | .error e => ((f,v),.error e) := by
      intro f v out is
      rw [scanned,← settled,is]
      cases out <;> rfl
    have linear := inv.linearizes.apply fresh.1 fresh.2
    rcases called : invoke c.shared.fn c.shared.value a with ⟨out,f,v⟩
    have grows : Grows x c.shared { c.shared with
        fn := f, value := v, applied := c.shared.applied ++ [(x,a)] } :=
      ⟨fun _ => id,[(x,a)],rfl,by simp⟩
    have result : (x,(scanned invoke (stateAfter invoke start c.shared.applied) a).2) ∈
        results invoke start (c.shared.applied ++ [(x,a)]) := mem_results_last
    have state : stateAfter invoke start (c.shared.applied ++ [(x,a)]) =
        (scanned invoke (stateAfter invoke start c.shared.applied) a).1 := stateAfter_last c.shared.applied (x,a)
    rw [now f v out called] at result state
    simp only [exec,called] at ran
    cases out with
    | ok v' =>
      obtain ⟨rfl,rfl⟩ := Prod.mk.inj (List.mem_singleton.mp ran)
      exact ⟨some x,inv.owner (.inr rfl) (.inr rfl) grows rfl inv.mutex
        (fun _ => .assigning state.symm ⟨⟨a,fresh.1⟩,result⟩) (by simp) (by simp) (by simp) linear⟩
    | error e =>
      obtain ⟨rfl,rfl⟩ := Prod.mk.inj (List.mem_singleton.mp ran)
      rw [List.append_nil]
      exact inv.left grows rfl rfl state.symm ⟨⟨a,fresh.1⟩,result⟩ linear
  | @assigning v settled result =>
    obtain ⟨rfl,rfl⟩ := Prod.mk.inj (List.mem_singleton.mp ran)
    exact ⟨some x,inv.owner (.inr rfl) (.inr rfl) (.of_same rfl rfl) rfl inv.mutex (fun _ => .copying settled result)
      (by simp) (by simp) (by simp) inv.linearizes⟩
  | copying settled result =>
    obtain ⟨rfl,rfl⟩ := Prod.mk.inj (List.mem_singleton.mp ran)
    rw [List.append_nil]
    exact inv.left (.of_same rfl rfl) rfl rfl settled result inv.linearizes
  | leaving mutex settled result =>
    obtain ⟨rfl,rfl⟩ := Prod.mk.inj (List.mem_singleton.mp ran)
    exact ⟨none,inv.owner (.inr rfl) (.inl rfl) (.of_same rfl rfl) rfl (fun _ => rfl) (by simp)
      (fun _ => .answering (.inl result)) (fun _ => settled) (by simp) inv.linearizes⟩

theorem Invariant.run (inv : Invariant invoke start lockStep c h) (left : c.threads x = i :: rest)
    (ran : (s,new) ∈ exec invoke lockStep x i c.shared) :
    ∃ h', Invariant invoke start lockStep (c.put x s (new ++ rest)) h' := by
  by_cases mine : h = some x
  · subst mine
    exact inv.inside_run left ran
  · have there := inv.outside x mine
    rw [left] at there
    cases there with
    | @waiting a mutex fresh =>
      simp only [exec] at ran
      split at ran
      · next free =>
        obtain ⟨rfl,rfl⟩ := Prod.mk.inj (List.mem_singleton.mp ran)
        have nobody : h = none := by
          rw [← inv.mutex mutex]
          simpa using free
        exact ⟨some x,inv.owner (.inl nobody) (.inr rfl) (.of_same rfl rfl) rfl (fun _ => rfl)
          (fun _ => .calling fresh (inv.settled nobody)) (by simp) (by simp) (by simp) inv.linearizes⟩
      · cases ran
    | answering answer =>
      obtain ⟨rfl,rfl⟩ := Prod.mk.inj (List.mem_singleton.mp ran)
      exact ⟨h,inv.completed answer mine⟩

theorem mem_items : x ∈ s.items ↔ ∃ q, .called x q ∈ s.history := by
  rw [Data.items,List.mem_filterMap]
  constructor
  · rintro ⟨e,member,is⟩
    cases e with
    | called y q =>
      cases is
      exact ⟨q,member⟩
    | completed => cases is
  · rintro ⟨q,member⟩
    exact ⟨_,member,rfl⟩

/-- The history of an item begins. -/
def Data.begin (s : Data Fn Tp Arg Error) (x : Nat) (q : Completion Arg Error) : Data Fn Tp Arg Error :=
  { s with history := s.history ++ [.called x q] }

theorem begin_grows (s : Data Fn Tp Arg Error) (x : Nat) (q : Completion Arg Error) : Grows x s (s.begin x q) :=
  ⟨fun _ => List.mem_append_left _,[],by simp [Data.begin],by simp⟩

theorem called_begin {q p : Completion Arg Error} (called : .called y p ∈ (s.begin x q).history) :
    .called y p ∈ s.history ∨ y = x ∧ p = q := by
  rcases List.mem_append.mp called with before | now
  · exact .inl before
  · cases List.mem_singleton.mp now
    exact .inr ⟨rfl,rfl⟩

/-- The sender of an item completes; in lock step the item may be in `emplace` at once. -/
theorem Invariant.begin {h' : Option Nat} {q : Completion Arg Error} (inv : Invariant invoke start lockStep c h)
    (absent : ∀ p, .called x p ∉ c.shared.history) (change : h' = h ∨ h = none ∧ h' = some x)
    (mutex : lockStep = false → h' = h)
    (inside : h' = some x → Inside invoke start lockStep (c.shared.begin x q) x prog)
    (outside : h' ≠ some x → Outside invoke start lockStep (c.shared.begin x q) x prog) (busy : prog ≠ []) :
    Invariant invoke start lockStep (c.put x (c.shared.begin x q) prog) h' where
  mutex unlocked := (inv.mutex unlocked).trans (mutex unlocked).symm
  inside y holds := by
    rw [put_threads]
    split
    · next same => exact same ▸ inside (same ▸ holds)
    · next different =>
      rcases change with rfl | ⟨_,rfl⟩
      · exact inside_congr (s := c.shared) rfl rfl rfl (fun _ => List.mem_append_left _) (inv.inside y holds)
      · exact absurd (Option.some.inj holds).symm different
  outside y holds := by
    rw [put_threads]
    split
    · next same => exact same ▸ outside (same ▸ holds)
    · next different =>
      refine (begin_grows _ x q).outside different (inv.outside y ?_)
      rcases change with rfl | ⟨rfl,_⟩
      · exact holds
      · simp
  settled nobody := by
    rcases change with rfl | ⟨_,rfl⟩
    · exact inv.settled nobody
    · cases nobody
  unique y p p' called called' := by
    rcases called_begin called with before | ⟨rfl,rfl⟩
    · rcases called_begin called' with before' | ⟨rfl,rfl⟩
      · exact inv.unique y p p' before before'
      · exact absurd before (absent p)
    · rcases called_begin called' with before' | ⟨_,rfl⟩
      · exact absurd before' (absent p')
      · rfl
  underway y p called idle := by
    rw [put_threads] at idle
    split at idle
    · exact absurd idle busy
    · next different =>
      rcases called_begin called with before | ⟨same,_⟩
      · obtain ⟨r',done⟩ := inv.underway y p before idle
        exact ⟨r',List.mem_append_left _ done⟩
      · exact absurd same different
  linearizes := inv.linearizes.call absent inv.unique

theorem Invariant.call {e : Nat × Completion Arg Error} (inv : Invariant invoke start lockStep c h)
    (inStep : InStep lockStep c (.call e)) (idle : c.threads e.1 = []) (accepted : accept lockStep e c.shared = some (s,prog)) :
    ∃ h', Invariant invoke start lockStep (c.put e.1 s prog) h' := by
  obtain ⟨x,q⟩ := e
  unfold accept at accepted
  split at accepted
  · cases accepted
  next fresh =>
  cases accepted
  change ∃ h', Invariant invoke start lockStep (c.put x (c.shared.begin x q) (handler lockStep q)) h'
  have absent : ∀ p, .called x p ∉ c.shared.history := fun p member => fresh (mem_items.mpr ⟨p,member⟩)
  have free : h ≠ some x := by
    rintro rfl
    exact (inv.inside x rfl).not_idle idle
  have here : .called x q ∈ (c.shared.begin x q).history := List.mem_append_right _ (List.mem_singleton_self _)
  have unapplied : x ∉ c.shared.applied.map Prod.fst := by
    intro member
    obtain ⟨item,inside,rfl⟩ := List.mem_map.mp member
    exact absent _ (inv.linearizes.called item inside)
  have passed : ∀ r : Completion Tp Error, Passes q r →
      ∃ h', Invariant invoke start lockStep (c.put x (c.shared.begin x q) [.complete r]) h' := fun r passes =>
    ⟨h,inv.begin absent (.inl rfl) (fun _ => rfl) (fun mine => absurd mine free)
      (fun _ => .answering (.inr ⟨q,here,passes⟩)) (by simp)⟩
  cases q with
  | error e => exact passed (.error e) rfl
  | stopped => exact passed .stopped trivial
  | value a =>
    cases kind : lockStep with
    | false =>
      subst kind
      exact ⟨h,inv.begin absent (.inl rfl) (fun _ => rfl) (fun mine => absurd mine free)
        (fun _ => .waiting rfl ⟨here,unapplied⟩) (by simp [handler])⟩
    | true =>
      subst kind
      have nobody : h = none := by
        cases h with
        | none => rfl
        | some y => exact absurd (inStep rfl y) (inv.inside y rfl).not_idle
      exact ⟨some x,inv.begin absent (.inr ⟨nobody,rfl⟩) (by simp)
        (fun _ => .calling ⟨here,unapplied⟩ (inv.settled nobody)) (by simp) (by simp [handler])⟩

/-! ### Once -/

def Entry.completes (x : Nat) : Entry Tp Arg Error → Bool
  | .called _ _ => false
  | .completed y _ => y = x

/-- How often the receiver of an item has been completed. -/
def Data.completions (s : Data Fn Tp Arg Error) (x : Nat) : Nat := s.history.countP (Entry.completes x)

/-- How often the receiver is completed by what begins with a step. -/
def Instr.completions : Instr Tp Arg Error → Nat
  | .call _ | .copyValue | .complete _ => 1
  | .lock | .assign _ | .unlock => 0

def owed (prog : List (Instr Tp Arg Error)) : Nat := (prog.map Instr.completions).sum

@[simp] theorem owed_nil : owed ([] : List (Instr Tp Arg Error)) = 0 := rfl

@[simp] theorem owed_cons (i : Instr Tp Arg Error) (prog : List (Instr Tp Arg Error)) :
    owed (i :: prog) = i.completions + owed prog := rfl

@[simp] theorem owed_append (prog more : List (Instr Tp Arg Error)) : owed (prog ++ more) = owed prog + owed more := by
  simp [owed]

@[simp] theorem owed_leave : owed (leave lockStep r : List (Instr Tp Arg Error)) = 1 := by
  cases lockStep <;> rfl

@[simp] theorem owed_handler (q : Completion Arg Error) :
    owed (handler lockStep q : List (Instr Tp Arg Error)) = 1 := by
  cases q <;> cases lockStep <;> rfl

/-- Each item that has started was completed, or has one completion left. -/
def Single (c : Config Nat (Data Fn Tp Arg Error) (Instr Tp Arg Error)) : Prop :=
  ∀ x, c.shared.completions x + owed (c.threads x) = if x ∈ c.shared.items then 1 else 0

/-- A step leaves as many completions as it had, or makes one. -/
theorem exec_owed (ran : (s,new) ∈ exec invoke lockStep x i c.shared) :
    s.items = c.shared.items ∧ s.completions x + owed new = c.shared.completions x + i.completions ∧
      ∀ y, y ≠ x → s.completions y = c.shared.completions y := by
  cases i with
  | lock =>
    simp only [exec] at ran
    split at ran
    · cases List.mem_singleton.mp ran
      exact ⟨rfl,rfl,fun _ _ => rfl⟩
    · cases ran
  | call a =>
    rcases called : invoke c.shared.fn c.shared.value a with ⟨v | e,f,out⟩
    all_goals
      simp only [exec,called] at ran
      cases List.mem_singleton.mp ran
    · exact ⟨rfl,by simp [Data.completions,Instr.completions],fun _ _ => rfl⟩
    · exact ⟨rfl,by simp [Data.completions,Instr.completions],fun _ _ => rfl⟩
  | copyValue =>
    cases List.mem_singleton.mp ran
    exact ⟨rfl,by simp [Instr.completions],fun _ _ => rfl⟩
  | complete r =>
    cases List.mem_singleton.mp ran
    refine ⟨by simp [Data.items,Entry.item?],by simp [Data.completions,Entry.completes,Instr.completions],
      fun y other => ?_⟩
    simp [Data.completions,Entry.completes,Ne.symm other]
  | assign v =>
    cases List.mem_singleton.mp ran
    exact ⟨rfl,rfl,fun _ _ => rfl⟩
  | unlock =>
    cases List.mem_singleton.mp ran
    exact ⟨rfl,rfl,fun _ _ => rfl⟩

theorem Single.run (single : Single c) (left : c.threads x = i :: rest)
    (ran : (s,new) ∈ exec invoke lockStep x i c.shared) : Single (c.put x s (new ++ rest)) := by
  obtain ⟨items,mine,others⟩ := exec_owed ran
  intro y
  have before := single y
  rw [put_threads,put_shared,items,← before]
  split
  · next same =>
    subst same
    rw [left,owed_append,owed_cons]
    omega
  · next different => rw [others y different]

theorem Single.call {e : Nat × Completion Arg Error} (single : Single c) (idle : c.threads e.1 = [])
    (accepted : accept lockStep e c.shared = some (s,prog)) : Single (c.put e.1 s prog) := by
  unfold accept at accepted
  split at accepted
  · cases accepted
  next fresh =>
  cases accepted
  intro y
  have before := single y
  rw [put_threads]
  split
  · next same =>
    subst same
    rw [idle,if_neg fresh] at before
    simp_all [Data.completions,Data.items,Entry.completes,Entry.item?]
  · next different => simpa [Data.completions,Data.items,Entry.completes,Entry.item?,different] using before

/-! ### Runs -/

theorem reach_single {fn : Fn} {init : Tp} (reach : Reach (machine invoke lockStep) (InStep lockStep) (initial fn init) c) :
    Single c :=
  reach.invariant (fun _ => by simp [initial,Data.completions,Data.items])
    (fun _ _ _ _ _ _ single _ left ran => single.run left ran)
    (fun _ _ _ _ single _ idle accepted => single.call idle accepted)

theorem initial_invariant (fn : Fn) (init : Tp) :
    Invariant invoke (fn,init) lockStep (initial fn init : Config Nat (Data Fn Tp Arg Error) (Instr Tp Arg Error)) none where
  mutex _ := rfl
  inside := by simp
  outside _ _ := .idle
  settled _ := rfl
  unique := by simp [initial]
  underway := by simp [initial]
  linearizes := ⟨List.nodup_nil,by simp [initial],by simp [initial],by simp [initial]⟩

theorem reach_invariant {fn : Fn} {init : Tp} (reach : Reach (machine invoke lockStep) (InStep lockStep) (initial fn init) c) :
    ∃ h, Invariant invoke (fn,init) lockStep c h := by
  refine reach.invariant (I := fun c => ∃ h, Invariant invoke (fn,init) lockStep c h) ⟨none,initial_invariant fn init⟩ ?_ ?_
  · rintro c x i rest s new ⟨h,inv⟩ _ left ran
    exact inv.run left ran
  · rintro c e s prog ⟨h,inv⟩ ok idle accepted
    exact inv.call ok idle accepted

/-- The item that is in `emplace` never waits. -/
theorem inside_next (inside : Inside invoke start lockStep c.shared x (c.threads x)) :
    ∃ c', c' ∈ (machine invoke lockStep).next c (.run x) := by
  generalize left : c.threads x = prog at inside
  cases inside with
  | @calling a fresh settled =>
    refine next_of_exec _ left ?_
    rcases called : invoke c.shared.fn c.shared.value a with ⟨out | out,f,v⟩
    · exact ⟨_,by simp only [machine,exec,called]; exact List.mem_singleton_self _⟩
    · exact ⟨_,by simp only [machine,exec,called]; exact List.mem_singleton_self _⟩
  | assigning settled result => exact next_of_exec _ left ⟨_,List.mem_singleton_self _⟩
  | copying settled result => exact next_of_exec _ left ⟨_,List.mem_singleton_self _⟩
  | leaving mutex settled result => exact next_of_exec _ left ⟨_,List.mem_singleton_self _⟩

/-- While items are not done, one of them can go on. -/
theorem Invariant.next (inv : Invariant invoke start lockStep c h) (busy : c.threads x ≠ []) :
    ∃ y c', c' ∈ (machine invoke lockStep).next c (.run y) := by
  cases h with
  | some y => exact ⟨y,inside_next (inv.inside y rfl)⟩
  | none =>
    refine ⟨x,?_⟩
    have there := inv.outside x (by simp)
    generalize left : c.threads x = prog at there
    cases there with
    | idle => exact absurd left busy
    | waiting mutex fresh =>
      exact next_of_exec _ left ⟨_,by simp only [machine,exec,inv.mutex mutex]; exact List.mem_singleton_self _⟩
    | answering answer => exact next_of_exec _ left ⟨_,List.mem_singleton_self _⟩

/-- However the items of `scan` interleave, with a mutex or in lock step, they complete as they do one
    after the other in some order, in which an item that was done before another one started
    comes first. No item is completed twice. While items are not done one of them can go on; and
    when all are done, every item has been completed, and the function object and the value are
    those after all of them. -/
theorem scan_linearizable {fn : Fn} {init : Tp}
    (reach : Reach (machine invoke lockStep) (InStep lockStep) (initial fn init) c) :
    (∃ order, Linearizes invoke (fn,init) c.shared.history order ∧
      ((∀ x, c.threads x = []) → (c.shared.fn,c.shared.value) = stateAfter invoke (fn,init) order ∧
        ∀ x q, .called x q ∈ c.shared.history → ∃ r, .completed x r ∈ c.shared.history)) ∧
    (∀ x, c.shared.completions x ≤ 1) ∧
    ∀ x, c.threads x ≠ [] → ∃ y c', c' ∈ (machine invoke lockStep).next c (.run y) := by
  obtain ⟨h,inv⟩ := reach_invariant reach
  refine ⟨⟨c.shared.applied,inv.linearizes,fun idle => ⟨inv.settled ?_,?_⟩⟩,fun x => ?_,fun x => inv.next⟩
  · cases h with
    | none => rfl
    | some x => exact absurd (idle x) (inv.inside x rfl).not_idle
  · exact fun x q called => inv.underway x q called (idle x)
  · have single := reach_single reach x
    split at single <;> omega

end

/-- A sum that counts its calls, and does not take zero: it throws then, and has changed the value. -/
def countedSum (calls value a : Nat) : Except Unit Nat × Nat × Nat :=
  if a = 0 then (.error (),calls + 1,value + 100) else (.ok (value + a),calls + 1,value)

/-- The second item overtakes the first one, and throws. -/
theorem scan_linearizable_overtaken : ∃ c, Reach (machine countedSum false) (InStep false) (initial 0 0) c ∧
    c.shared.fn = 2 ∧ c.shared.value = 107 ∧ (∃ order, Linearizes countedSum (0,0) c.shared.history order) ∧
      ∀ x, c.shared.completions x ≤ 1 := by
  obtain ⟨c,reach,found⟩ := exists_of_follow (machine countedSum false) (InStep false) (initial 0 0) (fun _ _ => true)
    (fun c l _ => by cases l <;> simp [InStep])
    [(.call (0,.value 7),0),(.call (1,.value 0),0),(.run 1,0),(.run 1,0),(.run 1,0),(.run 1,0),(.run 0,0),(.run 0,0),
      (.run 0,0),(.run 0,0),(.run 0,0),(.run 0,0)]
    (fun c => c.shared.fn = 2 && c.shared.value = 107) (by decide)
  obtain ⟨calls,value⟩ : c.shared.fn = 2 ∧ c.shared.value = 107 := by simpa using found
  obtain ⟨order,linear,_⟩ := (scan_linearizable reach).1
  exact ⟨c,reach,calls,value,⟨order,linear⟩,(scan_linearizable reach).2.1⟩

end SendersIo.Scan
