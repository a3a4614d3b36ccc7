import Mathlib.Data.List.Nodup
import Mathlib.Tactic.Common
import SendersIo.Interleaving
import SendersIo.Signals

/-!
Forking of the items of a sequence. Every item runs in an operation of its own
that is allocated when the item arrives and deletes itself when it is done. A
reference counter keeps the shared operation alive: one reference for the
upstream sequence and one for every item. Whoever gives back the last reference
completes the outer receiver. The callback on the outer stop token gives back a
reference as well, one that it never took.
-/
namespace SendersIo.Fork
open SendersIo.Interleaving SendersIo.Signals
set_option linter.unusedSimpArgs false

/-- How far the upstream sequence is: it completes, and then gives back its
    reference. -/
inductive Upstream where
  | unstarted
  | running
  | completing
  | released
  deriving DecidableEq

/-- How far an item is. `setup` lasts from `increase_ref` until `async_new`
    completes; an item operation exists from `allocated` to `deleting`. -/
inductive Phase where
  | fresh
  | refused
  | setup
  | failed
  | allocated
  | running
  | completed
  | deleting
  | deleted
  | released
  deriving DecidableEq

/-- `fork_::operation_base` and what happened to it so far. `holders` are the
    items whose `increase_ref` succeeded and that have not been released. -/
structure OperationBase (Error : Type) where
  refCounter : Int
  isStopRequested : Bool
  completionType : Nat
  error : Option Error
  stopRequested : Bool
  stopCallback : Bool
  outerStopRequested : Bool
  upstream : Upstream
  phase : Nat → Phase
  holders : List Nat
  completions : List (Signal Error)

inductive Party where
  | upstream
  | item (x : Nat)
  | stopCallback
  deriving DecidableEq

/-- The atomic steps of the handlers. -/
inductive Instr (Error : Type) where
  | compareExchangeError (e : Error)
  | emplaceError (e : Error)
  | compareExchangeEmplaced
  | storeStopped
  | exchangeStop
  | requestStop
  | decreaseRef
  | resetCallback
  | loadCompletionType
  | complete (ctype : Nat)
  | startItem
  | startDelete

inductive Event (Error : Type) where
  | setNext (x : Nat)
  | newValue (x : Nat)
  | newError (x : Nat) (e : Error)
  | newStopped (x : Nat)
  | nextValue (x : Nat)
  | nextStopped (x : Nat)
  | deleteValue (x : Nat)
  | upstreamValue
  | upstreamError (e : Error)
  | upstreamStopped
  | outerStop

variable {Error : Type}

/-- `operation_base::increase_ref`: the loop ends with an exchange that succeeds
    on a counter other than zero, or fails because the counter is zero. -/
def increaseRef (s : OperationBase Error) : Option (OperationBase Error) :=
  if s.refCounter = 0 then none else some { s with refCounter := s.refCounter + 1 }

/-- `operation_base::request_stop`, then `operation_base::decrease_ref`. -/
def stopAndRelease : List (Instr Error) := [.exchangeStop,.decreaseRef]

/-- `receiver::set_error`, and what `set_next` does upon an error of the setup. -/
def setError (e : Error) : List (Instr Error) := .compareExchangeError e :: stopAndRelease

/-- `receiver::set_stopped`. -/
def setStopped : List (Instr Error) := .storeStopped :: stopAndRelease

/-- `operation_base::complete`. -/
def complete : List (Instr Error) := [.resetCallback,.loadCompletionType]

/-- The party that executes `decrease_ref` gives back its reference, if it has one. -/
def release (s : OperationBase Error) : Party → OperationBase Error
  | .upstream => { s with upstream := .released }
  | .item x =>
    if x ∈ s.holders then
      { s with holders := s.holders.erase x, phase := Function.update s.phase x .released }
    else s
  | .stopCallback => s

/-- The completion of `next_rcvr_` for a completion type. -/
def send (s : OperationBase Error) : Nat → List (Signal Error)
  | 3 => [.stopped]
  -- the visitor does nothing for `std::monostate`
  | 2 => (s.error.map .error).toList
  | _ => [setValueUnlessStopped s.outerStopRequested]

def exec (p : Party) : Instr Error → OperationBase Error → List (OperationBase Error × List (Instr Error))
  | .compareExchangeError e,s =>
    if s.completionType = 0 then [({ s with completionType := 1 },[.emplaceError e,.compareExchangeEmplaced])]
    else [(s,[])]
  | .emplaceError e,s => [({ s with error := some e },[])]
  | .compareExchangeEmplaced,s => [(if s.completionType = 1 then { s with completionType := 2 } else s,[])]
  | .storeStopped,s => [({ s with completionType := 3 },[])]
  | .exchangeStop,s => [({ s with isStopRequested := true },if s.isStopRequested then [] else [.requestStop])]
  | .requestStop,s => [({ s with stopRequested := true },[])]
  | .decreaseRef,s =>
    [(release { s with refCounter := s.refCounter - 1 } p,if s.refCounter = 1 then complete else [])]
  | .resetCallback,s => [({ s with stopCallback := false },[])]
  | .loadCompletionType,s => [(s,[.complete s.completionType])]
  | .complete ctype,s => [({ s with completions := s.completions ++ send s ctype },[])]
  | .startItem,s =>
    match p with
    | .item x =>
      [({ s with phase := Function.update s.phase x (if s.stopRequested then .deleting else .running) },[])]
    | _ => []
  | .startDelete,s =>
    match p with
    | .item x => [({ s with phase := Function.update s.phase x .deleting },[])]
    | _ => []

/-- An item moves from one phase to another and runs a handler. -/
def move (s : OperationBase Error) (x : Nat) (before after : Phase) (prog : List (Instr Error)) :
    Option (OperationBase Error × List (Instr Error)) :=
  if s.phase x = before then some ({ s with phase := Function.update s.phase x after },prog) else none

/-- The upstream sequence completes with a handler. -/
def completeUpstream (s : OperationBase Error) (prog : List (Instr Error)) :
    Option (OperationBase Error × List (Instr Error)) :=
  if s.upstream = .running then some ({ s with upstream := .completing },prog) else none

/-- What the environment may do. The upstream sequence hands out items until it
    completes, and starts at once the sender that `set_next` returns; item
    senders, `async_new`, the item operations and `async_delete` complete once. -/
def accept : Event Error → OperationBase Error → Option (OperationBase Error × List (Instr Error))
  | .setNext x,s =>
    if s.upstream = .running ∧ s.phase x = .fresh then
      match increaseRef s with
      | some s' => some ({ s' with phase := Function.update s.phase x .setup, holders := x :: s.holders },[])
      | none => some ({ s with phase := Function.update s.phase x .refused },stopAndRelease)
    else none
  | .newValue x,s => move s x .setup .allocated [.startItem]
  | .newError x e,s => move s x .setup .failed (setError e)
  | .newStopped x,s => move s x .setup .failed stopAndRelease
  | .nextValue x,s => move s x .running .completed [.startDelete]
  | .nextStopped x,s => move s x .running .completed [.exchangeStop,.startDelete]
  | .deleteValue x,s => move s x .deleting .deleted [.decreaseRef]
  | .upstreamValue,s => completeUpstream s [.decreaseRef]
  | .upstreamError e,s => completeUpstream s (setError e)
  | .upstreamStopped,s => completeUpstream s setStopped
  | .outerStop,s =>
    if s.outerStopRequested then none
    else some ({ s with outerStopRequested := true },if s.stopCallback then stopAndRelease else [])

def machine (Error : Type) : Machine Party (OperationBase Error) (Instr Error) (Event Error) where
  exec := exec
  accept := accept
  party
    | .setNext x | .newValue x | .newError x _ | .newStopped x => .item x
    | .nextValue x | .nextStopped x | .deleteValue x => .item x
    | .upstreamValue | .upstreamError _ | .upstreamStopped => .upstream
    | .outerStop => .stopCallback

/-- A constructed operation. -/
def constructed (Error : Type) : OperationBase Error :=
  ⟨0,false,0,none,false,false,false,.unstarted,fun _ => .fresh,[],[]⟩

/-- `operation::start`. A token that is already requested calls the stop callback
    while it is registered. -/
def start (outerStopRequested : Bool) : OperationBase Error :=
  if outerStopRequested then
    { constructed Error with
      refCounter := -1, isStopRequested := true, stopRequested := true, outerStopRequested := true,
      completions := [.stopped] }
  else { constructed Error with refCounter := 1, stopCallback := true, upstream := .running }

def initial (Error : Type) : Config Party (OperationBase Error) (Instr Error) := ⟨start false,fun _ => []⟩

/-- The callback on the outer stop token does not fire: the token is requested
    only after the callback was reset, if at all. -/
def NoStopCallback (c : Config Party (OperationBase Error) (Instr Error)) : Label Party (Event Error) → Prop
  | .call .outerStop => c.shared.stopCallback = false
  | _ => True

/-! ### What a party has left -/

/-- Instructions that touch neither the counter nor an item nor the receiver. -/
def Light : Instr Error → Prop
  | .compareExchangeError _ | .emplaceError _ | .compareExchangeEmplaced => True
  | .storeStopped | .exchangeStop | .requestStop => True
  | _ => False

/-- Light instructions and then the given one. -/
def Until (last : Instr Error) (prog : List (Instr Error)) : Prop :=
  ∃ l, (∀ i ∈ l, Light i) ∧ prog = l ++ [last]

/-- A party that gave back the last reference and completes the receiver. -/
def Finishing (prog : List (Instr Error)) : Prop :=
  prog = complete ∨ prog = [.loadCompletionType] ∨ ∃ ctype, prog = [.complete ctype]

/-- The phases in which an item has a reference. -/
def Holding : Phase → Prop
  | .fresh | .refused | .released => False
  | _ => True

/-- The phases in which an item operation exists. -/
def Allocated : Phase → Prop
  | .allocated | .running | .completed | .deleting => True
  | _ => False

inductive UpstreamLeft : Upstream → List (Instr Error) → Prop
  | running : UpstreamLeft .running []
  | completing {prog : List (Instr Error)} : Until .decreaseRef prog → UpstreamLeft .completing prog
  | finishing {prog : List (Instr Error)} : Finishing prog → UpstreamLeft .released prog
  | released : UpstreamLeft .released []

inductive ItemLeft : Phase → List (Instr Error) → Prop
  | fresh : ItemLeft .fresh []
  | setup : ItemLeft .setup []
  | failed {prog : List (Instr Error)} : Until .decreaseRef prog → ItemLeft .failed prog
  | allocated : ItemLeft .allocated [.startItem]
  | running : ItemLeft .running []
  | completed {prog : List (Instr Error)} : Until .startDelete prog → ItemLeft .completed prog
  | deleting : ItemLeft .deleting []
  | deleted : ItemLeft .deleted [.decreaseRef]
  | finishing {prog : List (Instr Error)} : Finishing prog → ItemLeft .released prog
  | released : ItemLeft .released []

/-- The error is stored before the completion type says so; `known` says that it
    is stored already. -/
def Emplaced : Prop → List (Instr Error) → Prop
  | _,[] => True
  | _,.emplaceError _ :: rest => Emplaced True rest
  | known,.compareExchangeEmplaced :: rest => known ∧ Emplaced known rest
  | known,.complete ctype :: rest => (ctype = 2 → known) ∧ Emplaced known rest
  | known,_ :: rest => Emplaced known rest

theorem emplaced_mono {known later : Prop} (grows : known → later) {prog : List (Instr Error)}
    (emplaced : Emplaced known prog) : Emplaced later prog := by
  induction prog generalizing known later with
  | nil => trivial
  | cons i rest ih =>
    cases i with
    | emplaceError e => exact emplaced
    | compareExchangeEmplaced => exact ⟨grows emplaced.1,ih grows emplaced.2⟩
    | complete ctype => exact ⟨fun two => grows (emplaced.1 two),ih grows emplaced.2⟩
    | _ => exact ih grows emplaced

theorem until_cons {last i : Instr Error} {rest : List (Instr Error)} (shape : Until last (i :: rest)) :
    (Light i ∧ Until last rest) ∨ (i = last ∧ rest = []) := by
  obtain ⟨l,light,same⟩ := shape
  cases l with
  | nil => exact .inr (by simpa using same)
  | cons j l =>
    obtain ⟨rfl,rfl⟩ := List.cons.inj same
    exact .inl ⟨light i (by simp),l,fun k member => light k (by simp [member]),rfl⟩

theorem until_append {last : Instr Error} {new rest : List (Instr Error)} (light : ∀ i ∈ new, Light i)
    (shape : Until last rest) : Until last (new ++ rest) := by
  obtain ⟨l,more,rfl⟩ := shape
  refine ⟨new ++ l,?_,by simp⟩
  intro i member
  rcases List.mem_append.mp member with first | second
  · exact light i first
  · exact more i second

theorem until_last (last : Instr Error) : Until last [last] := ⟨[],by simp,rfl⟩

theorem until_stopAndRelease : Until .decreaseRef (stopAndRelease : List (Instr Error)) :=
  ⟨[.exchangeStop],by simp [Light],rfl⟩

theorem until_not_finishing {last : Instr Error} (other : last = .decreaseRef ∨ last = .startDelete)
    {prog : List (Instr Error)} (shape : Until last prog) : ¬ Finishing prog := by
  obtain ⟨l,_,rfl⟩ := shape
  rintro (same | same | ⟨ctype,same⟩)
  · have := congrArg List.getLast? same
    rcases other with rfl | rfl <;> simp [complete] at this
  · have := congrArg List.getLast? same
    rcases other with rfl | rfl <;> simp at this
  · have := congrArg List.getLast? same
    rcases other with rfl | rfl <;> simp at this

/-! ### The invariant -/

variable {c : Config Party (OperationBase Error) (Instr Error)}

/-- The counter counts the references, and every party has left what its
    progress requires. -/
structure Counted (c : Config Party (OperationBase Error) (Instr Error)) : Prop where
  counter : c.shared.refCounter = (if c.shared.upstream = .released then 0 else 1) + c.shared.holders.length
  distinct : c.shared.holders.Nodup
  holding : ∀ x, x ∈ c.shared.holders ↔ Holding (c.shared.phase x)
  upstream : UpstreamLeft c.shared.upstream (c.threads .upstream)
  items : ∀ x, ItemLeft (c.shared.phase x) (c.threads (.item x))
  callback : c.threads .stopCallback = []

/-- An error that is announced is there. -/
structure Erred (c : Config Party (OperationBase Error) (Instr Error)) : Prop where
  stored : c.shared.completionType = 2 → c.shared.error.isSome = true
  emplaced : ∀ p, Emplaced (c.shared.error.isSome = true) (c.threads p)

/-- The receiver is completed by the party that gave back the last reference. -/
structure Finish (c : Config Party (OperationBase Error) (Instr Error)) : Prop where
  finisher : ∀ p, Finishing (c.threads p) → c.shared.refCounter = 0 ∧ c.shared.completions = []
  single : ∀ p q, Finishing (c.threads p) → Finishing (c.threads q) → p = q
  unfinished : c.shared.completions = [] → c.shared.refCounter = 0 → ∃ p, Finishing (c.threads p)
  once : c.shared.completions.length ≤ 1
  finished : c.shared.completions ≠ [] → c.shared.refCounter = 0

structure Invariant (c : Config Party (OperationBase Error) (Instr Error)) : Prop where
  counted : Counted c
  erred : Erred c
  finish : Finish c

section
variable {p : Party} {i : Instr Error} {rest new : List (Instr Error)} {s : OperationBase Error}

theorem erred_put (erred : Erred c) (stored : s.completionType = 2 → s.error.isSome = true)
    (grows : c.shared.error.isSome = true → s.error.isSome = true) {prog : List (Instr Error)}
    (emplaced : Emplaced (s.error.isSome = true) prog) : Erred (c.put p s prog) where
  stored := stored
  emplaced q := by
    rw [put_threads]
    split
    · exact emplaced
    · exact emplaced_mono grows (erred.emplaced q)

/-- A step that neither finishes nor changes the counter or the completions. -/
theorem finish_put (finish : Finish c) (counter : s.refCounter = c.shared.refCounter)
    (completions : s.completions = c.shared.completions) {prog : List (Instr Error)}
    (before : ¬ Finishing (c.threads p)) (after : ¬ Finishing prog) : Finish (c.put p s prog) := by
  have same : ∀ q, Finishing ((c.put p s prog).threads q) ↔ Finishing (c.threads q) := by
    intro q
    rw [put_threads]
    split
    · rename_i here; subst here; simp [before,after]
    · rfl
  obtain ⟨finisher,single,unfinished,once,finished⟩ := finish
  constructor
  · intro q at_q; simpa [counter,completions] using finisher q ((same q).mp at_q)
  · intro q r at_q at_r; exact single q r ((same q).mp at_q) ((same r).mp at_r)
  · intro empty zero
    obtain ⟨q,at_q⟩ := unfinished (by simpa [completions] using empty) (by simpa [counter] using zero)
    exact ⟨q,(same q).mpr at_q⟩
  · simpa [completions] using once
  · simpa [counter,completions] using finished

theorem exec_light (light : Light i) (ran : (s,new) ∈ exec p i c.shared) :
    s.refCounter = c.shared.refCounter ∧ s.upstream = c.shared.upstream ∧ s.phase = c.shared.phase ∧
      s.holders = c.shared.holders ∧ s.completions = c.shared.completions ∧ ∀ j ∈ new, Light j := by
  cases i <;> simp only [Light] at light
  case compareExchangeError e =>
    simp only [exec] at ran
    split at ran <;> simp only [List.mem_singleton,Prod.mk.injEq] at ran <;> obtain ⟨rfl,rfl⟩ := ran <;> simp [Light]
  case compareExchangeEmplaced =>
    obtain ⟨rfl,rfl⟩ := Prod.mk.inj (List.mem_singleton.mp ran)
    split <;> simp
  case exchangeStop =>
    obtain ⟨rfl,rfl⟩ := Prod.mk.inj (List.mem_singleton.mp ran)
    refine ⟨rfl,rfl,rfl,rfl,rfl,?_⟩
    split <;> simp [Light]
  all_goals
    obtain ⟨rfl,rfl⟩ := Prod.mk.inj (List.mem_singleton.mp ran)
    simp

theorem light_erred (erred : Erred c) (left : c.threads p = i :: rest) (light : Light i)
    (ran : (s,new) ∈ exec p i c.shared) : Erred (c.put p s (new ++ rest)) := by
  have emplaced := erred.emplaced p
  rw [left] at emplaced
  cases i <;> simp only [Light] at light
  case compareExchangeError e =>
    simp only [exec] at ran
    split at ran <;> simp only [List.mem_singleton,Prod.mk.injEq] at ran <;> obtain ⟨rfl,rfl⟩ := ran
    · apply erred_put erred
      · intro two; cases two
      · exact id
      · exact ⟨trivial,emplaced_mono (fun _ => trivial) emplaced⟩
    · exact erred_put erred erred.stored id emplaced
  case emplaceError e =>
    obtain ⟨rfl,rfl⟩ := Prod.mk.inj (List.mem_singleton.mp ran)
    exact erred_put erred (fun _ => rfl) (fun _ => rfl) (emplaced_mono (fun _ => rfl) emplaced)
  case compareExchangeEmplaced =>
    obtain ⟨rfl,rfl⟩ := Prod.mk.inj (List.mem_singleton.mp ran)
    obtain ⟨known,emplaced⟩ := emplaced
    split
    · apply erred_put erred
      · exact fun _ => known
      · exact id
      · exact emplaced
    · exact erred_put erred erred.stored id emplaced
  case exchangeStop =>
    obtain ⟨rfl,rfl⟩ := Prod.mk.inj (List.mem_singleton.mp ran)
    apply erred_put erred
    · exact erred.stored
    · exact id
    · split
      · exact emplaced
      · exact emplaced
  case storeStopped =>
    obtain ⟨rfl,rfl⟩ := Prod.mk.inj (List.mem_singleton.mp ran)
    apply erred_put erred
    · intro two; cases two
    · exact id
    · exact emplaced
  case requestStop =>
    obtain ⟨rfl,rfl⟩ := Prod.mk.inj (List.mem_singleton.mp ran)
    apply erred_put erred
    · exact erred.stored
    · exact id
    · exact emplaced

end

/-! ### Every step keeps the invariant -/

section
variable {p : Party} {i : Instr Error} {rest new : List (Instr Error)} {s : OperationBase Error}

/-- Where a party is, as its instructions see it. -/
def PartyLeft (s : OperationBase Error) (prog : List (Instr Error)) : Party → Prop
  | .upstream => UpstreamLeft s.upstream prog
  | .item x => ItemLeft (s.phase x) prog
  | .stopCallback => prog = []

theorem Counted.party (counted : Counted c) (p : Party) : PartyLeft c.shared (c.threads p) p := by
  cases p with
  | upstream => exact counted.upstream
  | item x => exact counted.items x
  | stopCallback => exact counted.callback

/-- The next instruction of a party: a light one, the release of its reference,
    the start or the end of an item operation, or a step of the completion. -/
theorem party_cases (shape : PartyLeft s (i :: rest) p) :
    (Light i ∧ (∀ new, (∀ j ∈ new, Light j) → PartyLeft s (new ++ rest) p) ∧ ¬ Finishing (i :: rest) ∧
      ∀ new, (∀ j ∈ new, Light j) → ¬ Finishing (new ++ rest)) ∨
    (i = .decreaseRef ∧ rest = [] ∧ (p = .upstream ∧ s.upstream = .completing ∨
      ∃ x, p = .item x ∧ (s.phase x = .failed ∨ s.phase x = .deleted))) ∨
    (∃ x, p = .item x ∧ rest = [] ∧
      (i = .startItem ∧ s.phase x = .allocated ∨ i = .startDelete ∧ s.phase x = .completed)) ∨
    (Finishing (i :: rest) ∧ (p = .upstream ∧ s.upstream = .released ∨ ∃ x, p = .item x ∧ s.phase x = .released)) := by
  have light : ∀ {last : Instr Error}, (last = .decreaseRef ∨ last = .startDelete) → Until last (i :: rest) →
      (∀ prog, Until last prog → PartyLeft s prog p) → Light i → Until last rest →
      Light i ∧ (∀ new, (∀ j ∈ new, Light j) → PartyLeft s (new ++ rest) p) ∧ ¬ Finishing (i :: rest) ∧
        ∀ new, (∀ j ∈ new, Light j) → ¬ Finishing (new ++ rest) :=
    fun other whole left head tail => ⟨head,fun new more => left _ (until_append more tail),
      until_not_finishing other whole,fun new more => until_not_finishing other (until_append more tail)⟩
  cases p with
  | stopCallback => simp [PartyLeft] at shape
  | upstream =>
    simp only [PartyLeft] at shape
    generalize at_s : s.upstream = progress at shape
    cases shape with
    | completing whole =>
      rcases until_cons whole with ⟨head,tail⟩ | ⟨rfl,rfl⟩
      · exact .inl (light (.inl rfl) whole (fun _ shape => by simpa [PartyLeft,at_s] using .completing shape) head tail)
      · exact .inr (.inl ⟨rfl,rfl,.inl ⟨rfl,rfl⟩⟩)
    | finishing finishing => exact .inr (.inr (.inr ⟨finishing,.inl ⟨rfl,rfl⟩⟩))
  | item x =>
    simp only [PartyLeft] at shape
    generalize at_s : s.phase x = phase at shape
    cases shape with
    | failed whole =>
      rcases until_cons whole with ⟨head,tail⟩ | ⟨rfl,rfl⟩
      · exact .inl (light (.inl rfl) whole (fun _ shape => by simpa [PartyLeft,at_s] using .failed shape) head tail)
      · exact .inr (.inl ⟨rfl,rfl,.inr ⟨x,rfl,.inl at_s⟩⟩)
    | allocated => exact .inr (.inr (.inl ⟨x,rfl,rfl,.inl ⟨rfl,at_s⟩⟩))
    | completed whole =>
      rcases until_cons whole with ⟨head,tail⟩ | ⟨rfl,rfl⟩
      · exact .inl (light (.inr rfl) whole (fun _ shape => by simpa [PartyLeft,at_s] using .completed shape) head tail)
      · exact .inr (.inr (.inl ⟨x,rfl,rfl,.inr ⟨rfl,at_s⟩⟩))
    | deleted => exact .inr (.inl ⟨rfl,rfl,.inr ⟨x,rfl,.inr at_s⟩⟩)
    | finishing finishing => exact .inr (.inr (.inr ⟨finishing,.inr ⟨x,rfl,at_s⟩⟩))

theorem counted_put (counted : Counted c) (counter : s.refCounter = c.shared.refCounter)
    (upstream : s.upstream = c.shared.upstream) (phase : s.phase = c.shared.phase)
    (holders : s.holders = c.shared.holders) {prog : List (Instr Error)} (shape : PartyLeft c.shared prog p) :
    Counted (c.put p s prog) where
  counter := by simpa [counter,upstream,holders] using counted.counter
  distinct := by simpa [holders] using counted.distinct
  holding := by simpa [holders,phase] using counted.holding
  upstream := by
    rw [put_threads,put_shared,upstream]
    split
    · rename_i here; subst here; exact shape
    · exact counted.upstream
  items x := by
    rw [put_threads,put_shared,phase]
    split
    · rename_i here; subst here; exact shape
    · exact counted.items x
  callback := by
    rw [put_threads]
    split
    · rename_i here; subst here; exact shape
    · exact counted.callback

/-- An item moves on without giving back its reference. -/
theorem counted_move {x : Nat} {after : Phase} (counted : Counted c) (counter : s.refCounter = c.shared.refCounter)
    (upstream : s.upstream = c.shared.upstream) (phase : s.phase = Function.update c.shared.phase x after)
    (holders : s.holders = c.shared.holders) (same : Holding (c.shared.phase x) ↔ Holding after)
    {prog : List (Instr Error)} (shape : ItemLeft after prog) : Counted (c.put (.item x) s prog) where
  counter := by simpa [counter,upstream,holders] using counted.counter
  distinct := by simpa [holders] using counted.distinct
  holding y := by
    rw [put_shared,holders,phase,counted.holding y]
    by_cases here : y = x
    · subst here; simpa using same
    · simp [here]
  upstream := by simpa [put_threads,upstream] using counted.upstream
  items y := by
    rw [put_threads,put_shared,phase]
    by_cases here : y = x
    · subst here; simpa using shape
    · simpa [here] using counted.items y
  callback := by simpa [put_threads] using counted.callback

theorem light_keeps (inv : Invariant c) (left : c.threads p = i :: rest) (light : Light i)
    (ran : (s,new) ∈ exec p i c.shared) (shape : ∀ new, (∀ j ∈ new, Light j) → PartyLeft c.shared (new ++ rest) p)
    (before : ¬ Finishing (i :: rest)) (after : ∀ new, (∀ j ∈ new, Light j) → ¬ Finishing (new ++ rest)) :
    Invariant (c.put p s (new ++ rest)) := by
  obtain ⟨counter,upstream,phase,holders,completions,more⟩ := exec_light light ran
  exact ⟨counted_put inv.counted counter upstream phase holders (shape new more),light_erred inv.erred left light ran,
    finish_put inv.finish counter completions (by rw [left]; exact before) (after new more)⟩

/-- Steps that begin or end an item operation. -/
theorem item_keeps {x : Nat} {after : Phase} (inv : Invariant c) (left : c.threads (.item x) = [i])
    (item : i = .startItem ∨ i = .startDelete)
    (same : Holding (c.shared.phase x) ↔ Holding after) (next : ItemLeft after ([] : List (Instr Error))) :
    Invariant (c.put (.item x) { c.shared with phase := Function.update c.shared.phase x after } []) := by
  refine ⟨?_,?_,?_⟩
  · apply counted_move inv.counted <;> first | rfl | assumption
  · apply erred_put inv.erred
    · exact inv.erred.stored
    · exact id
    · trivial
  · apply finish_put inv.finish
    · rfl
    · rfl
    · rw [left]
      rcases item with rfl | rfl <;> simp [Finishing,complete]
    · simp [Finishing,complete]

/-- While somebody holds a reference, nobody finishes. -/
theorem Finish.open_ (finish : Finish c) (held : c.shared.refCounter ≠ 0) :
    c.shared.completions = [] ∧ ∀ q, ¬ Finishing (c.threads q) := by
  constructor
  · by_contra completed
    exact held (finish.finished completed)
  · exact fun q at_q => held (finish.finisher q at_q).1

theorem finish_open {d : Config Party (OperationBase Error) (Instr Error)} (held : d.shared.refCounter ≠ 0)
    (empty : d.shared.completions = []) (none : ∀ q, ¬ Finishing (d.threads q)) : Finish d where
  finisher q at_q := absurd at_q (none q)
  single q _ at_q := absurd at_q (none q)
  unfinished _ zero := absurd zero held
  once := by simp [empty]
  finished completed := absurd empty completed

/-- The release of a reference: the last one makes its party finish. -/
theorem finish_release (finish : Finish c) (held : c.shared.refCounter ≠ 0)
    (counter : s.refCounter = c.shared.refCounter - 1) (completions : s.completions = c.shared.completions) :
    Finish (c.put p s ((if c.shared.refCounter = 1 then complete else []) ++ [])) := by
  obtain ⟨empty,none⟩ := finish.open_ held
  by_cases last : c.shared.refCounter = 1
  · rw [if_pos last]
    have at_p : ∀ q, Finishing ((c.put p s (complete ++ [])).threads q) → q = p := by
      intro q at_q
      by_contra other
      rw [put_threads_ne c other] at at_q
      exact none q at_q
    refine ⟨?_,?_,fun _ _ => ⟨p,by simp [Finishing]⟩,by simp [completions,empty],by simp [completions,empty]⟩
    · intro q _
      exact ⟨by simp only [put_shared]; omega,by simpa [completions] using empty⟩
    · intro q r at_q at_r
      rw [at_p q at_q,at_p r at_r]
  · rw [if_neg last]
    refine finish_open ?_ (by simpa [completions] using empty) ?_
    · simp only [put_shared]; omega
    · intro q
      rw [put_threads]
      split
      · simp [Finishing,complete]
      · exact none q

theorem erred_release (erred : Erred c) (type : s.completionType = c.shared.completionType)
    (error : s.error = c.shared.error) :
    Erred (c.put p s ((if c.shared.refCounter = 1 then complete else []) ++ [])) := by
  apply erred_put erred
  · simpa [type,error] using erred.stored
  · simp [error]
  · split <;> trivial

theorem decreaseRef_upstream_keeps (inv : Invariant c) (completing : c.shared.upstream = .completing)
    (ran : (s,new) ∈ exec .upstream .decreaseRef c.shared) : Invariant (c.put .upstream s (new ++ [])) := by
  obtain ⟨rfl,rfl⟩ := Prod.mk.inj (List.mem_singleton.mp ran)
  have counter := inv.counted.counter
  rw [completing] at counter
  simp only [reduceCtorEq,if_false] at counter
  have held : c.shared.refCounter ≠ 0 := by omega
  refine ⟨⟨?_,inv.counted.distinct,inv.counted.holding,?_,?_,?_⟩,?_,?_⟩
  · simp only [release,put_shared,if_true]; omega
  · simp only [release,put_shared,put_threads_self]
    split
    · exact .finishing (.inl rfl)
    · exact .released
  · simpa [put_threads,release] using inv.counted.items
  · simpa [put_threads] using inv.counted.callback
  · exact erred_release inv.erred rfl rfl
  · exact finish_release inv.finish held rfl rfl

theorem decreaseRef_item_keeps {x : Nat} (inv : Invariant c) (member : x ∈ c.shared.holders)
    (ran : (s,new) ∈ exec (.item x) .decreaseRef c.shared) : Invariant (c.put (.item x) s (new ++ [])) := by
  obtain ⟨rfl,rfl⟩ := Prod.mk.inj (List.mem_singleton.mp ran)
  have counter := inv.counted.counter
  have length := List.length_erase_of_mem member
  have positive := List.length_pos_of_mem member
  have held : c.shared.refCounter ≠ 0 := by split at counter <;> omega
  simp only [release,member,if_true]
  refine ⟨⟨?_,inv.counted.distinct.erase x,?_,?_,?_,?_⟩,?_,?_⟩
  · simp only [put_shared]
    split at counter <;> rename_i h <;> simp only [h,if_true,if_false] <;> omega
  · intro y
    rw [put_shared,inv.counted.distinct.mem_erase_iff,inv.counted.holding y]
    by_cases here : y = x
    · subst here; simp [Holding]
    · simp [here]
  · simpa [put_threads] using inv.counted.upstream
  · intro y
    rw [put_threads,put_shared]
    by_cases here : y = x
    · subst here
      simp only [Function.update_self,if_true]
      split
      · exact .finishing (.inl rfl)
      · exact .released
    · simpa [here] using inv.counted.items y
  · simpa [put_threads] using inv.counted.callback
  · exact erred_release inv.erred rfl rfl
  · exact finish_release inv.finish held rfl rfl

/-- The steps of `complete` before the receiver gets its signal. -/
theorem finishing_keeps {prog : List (Instr Error)} (inv : Invariant c) (at_p : Finishing (c.threads p))
    (shape : PartyLeft c.shared prog p) (after : Finishing prog)
    (emplaced : Emplaced (c.shared.error.isSome = true) prog) (counter : s.refCounter = c.shared.refCounter)
    (upstream : s.upstream = c.shared.upstream) (phase : s.phase = c.shared.phase)
    (holders : s.holders = c.shared.holders) (completions : s.completions = c.shared.completions)
    (type : s.completionType = c.shared.completionType) (error : s.error = c.shared.error) :
    Invariant (c.put p s prog) := by
  have same : ∀ q, Finishing ((c.put p s prog).threads q) ↔ Finishing (c.threads q) := by
    intro q
    rw [put_threads]
    split
    · rename_i here; subst here; simp [at_p,after]
    · rfl
  obtain ⟨finisher,single,unfinished,once,finished⟩ := inv.finish
  refine ⟨counted_put inv.counted counter upstream phase holders shape,?_,⟨?_,?_,?_,?_,?_⟩⟩
  · apply erred_put inv.erred
    · simpa [type,error] using inv.erred.stored
    · simp [error]
    · simpa [error] using emplaced
  · intro q at_q; simpa [counter,completions] using finisher q ((same q).mp at_q)
  · intro q r at_q at_r; exact single q r ((same q).mp at_q) ((same r).mp at_r)
  · exact fun _ _ => ⟨p,by simpa using after⟩
  · simpa [completions] using once
  · simpa [counter,completions] using finished

theorem send_length {ctype : Nat} (known : ctype = 2 → c.shared.error.isSome = true) :
    (send c.shared ctype).length = 1 := by
  unfold send
  split
  · rfl
  · obtain ⟨e,error⟩ := Option.isSome_iff_exists.mp (known rfl)
    simp [error]
  · rfl

theorem complete_keeps {ctype : Nat} (inv : Invariant c) (left : c.threads p = [.complete ctype])
    (shape : PartyLeft c.shared [] p) :
    Invariant (c.put p { c.shared with completions := c.shared.completions ++ send c.shared ctype } []) := by
  have at_p : Finishing (c.threads p) := .inr (.inr ⟨ctype,left⟩)
  obtain ⟨zero,empty⟩ := inv.finish.finisher p at_p
  have emplaced := inv.erred.emplaced p
  rw [left] at emplaced
  have one := send_length emplaced.1
  have none : ∀ q, ¬ Finishing ((c.put p { c.shared with
      completions := c.shared.completions ++ send c.shared ctype } []).threads q) := by
    intro q
    rw [put_threads]
    split
    · simp [Finishing,complete]
    · rename_i other
      exact fun at_q => other (inv.finish.single q p at_q at_p)
  refine ⟨?_,?_,⟨?_,?_,?_,?_,fun _ => zero⟩⟩
  · apply counted_put inv.counted <;> first | rfl | assumption
  · apply erred_put inv.erred
    · exact inv.erred.stored
    · exact id
    · trivial
  · exact fun q at_q => absurd at_q (none q)
  · exact fun q _ at_q => absurd at_q (none q)
  · intro still _
    have := congrArg List.length still
    simp [empty,one] at this
  · simp [empty,one]

theorem run_keeps (inv : Invariant c) (left : c.threads p = i :: rest) (ran : (s,new) ∈ exec p i c.shared) :
    Invariant (c.put p s (new ++ rest)) := by
  have shape := inv.counted.party p
  rw [left] at shape
  rcases party_cases shape with ⟨light,next,before,after⟩ | ⟨rfl,rfl,releasing⟩ | ⟨x,rfl,rfl,moving⟩ | ⟨finishing,party⟩
  · exact light_keeps inv left light ran next before after
  · rcases releasing with ⟨rfl,completing⟩ | ⟨x,rfl,phase⟩
    · exact decreaseRef_upstream_keeps inv completing ran
    · refine decreaseRef_item_keeps inv ((inv.counted.holding x).mpr ?_) ran
      rcases phase with phase | phase <;> simp [phase,Holding]
  · rcases moving with ⟨rfl,phase⟩ | ⟨rfl,phase⟩
    · obtain ⟨rfl,rfl⟩ := Prod.mk.inj (List.mem_singleton.mp ran)
      refine item_keeps inv left (.inl rfl) ?_ ?_
      · rw [phase]; split <;> simp [Holding]
      · split
        · exact .deleting
        · exact .running
    · obtain ⟨rfl,rfl⟩ := Prod.mk.inj (List.mem_singleton.mp ran)
      exact item_keeps inv left (.inr rfl) (by simp [phase,Holding]) .deleting
  · have next : ∀ prog, prog = [] ∨ Finishing prog → PartyLeft c.shared prog p := by
      intro prog is
      rcases party with ⟨rfl,released⟩ | ⟨x,rfl,released⟩
      · rcases is with rfl | at_p
        · simpa [PartyLeft,released] using .released
        · simpa [PartyLeft,released] using .finishing at_p
      · rcases is with rfl | at_p
        · simpa [PartyLeft,released] using .released
        · simpa [PartyLeft,released] using .finishing at_p
    have at_p : Finishing (c.threads p) := left ▸ finishing
    rcases finishing with same | same | ⟨ctype,same⟩ <;> obtain ⟨rfl,rfl⟩ := List.cons.inj same <;>
      obtain ⟨rfl,rfl⟩ := Prod.mk.inj (List.mem_singleton.mp ran)
    · exact finishing_keeps inv at_p (next _ (.inr (.inr (.inl rfl)))) (.inr (.inl rfl)) trivial rfl rfl rfl rfl rfl
        rfl rfl
    · exact finishing_keeps inv at_p (next _ (.inr (.inr (.inr ⟨_,rfl⟩)))) (.inr (.inr ⟨_,rfl⟩))
        ⟨inv.erred.stored,trivial⟩ rfl rfl rfl rfl rfl rfl rfl
    · exact complete_keeps inv left (next [] (.inl rfl))

/-! ### Every event keeps the invariant -/

/-- A handler without a completion step and without a released reference starts. -/
theorem event_keeps {prog : List (Instr Error)} (inv : Invariant c) (counted : Counted (c.put p s prog))
    (idle : c.threads p = []) (counter : s.refCounter = c.shared.refCounter)
    (completions : s.completions = c.shared.completions) (type : s.completionType = c.shared.completionType)
    (error : s.error = c.shared.error) (emplaced : Emplaced (c.shared.error.isSome = true) prog)
    (after : ¬ Finishing prog) : Invariant (c.put p s prog) := by
  refine ⟨counted,?_,finish_put inv.finish counter completions (by simp [idle,Finishing,complete]) after⟩
  apply erred_put inv.erred
  · simpa [type,error] using inv.erred.stored
  · simp [error]
  · simpa [error] using emplaced

theorem move_keeps {x : Nat} {before after : Phase} {prog prog' : List (Instr Error)} (inv : Invariant c)
    (idle : c.threads (.item x) = []) (moved : move c.shared x before after prog = some (s,prog'))
    (same : Holding before ↔ Holding after) (shape : ItemLeft after prog)
    (emplaced : Emplaced (c.shared.error.isSome = true) prog) (open_ : ¬ Finishing prog) :
    Invariant (c.put (.item x) s prog') := by
  unfold move at moved
  split at moved
  · rename_i phase
    obtain ⟨rfl,rfl⟩ := Prod.mk.inj (Option.some.inj moved)
    refine event_keeps inv ?_ idle rfl rfl rfl rfl emplaced open_
    apply counted_move inv.counted <;> first | rfl | assumption | (rw [phase]; exact same)
  · cases moved

theorem completeUpstream_keeps {prog prog' : List (Instr Error)} (inv : Invariant c)
    (idle : c.threads .upstream = []) (moved : completeUpstream c.shared prog = some (s,prog'))
    (shape : Until .decreaseRef prog) (emplaced : Emplaced (c.shared.error.isSome = true) prog) :
    Invariant (c.put .upstream s prog') := by
  unfold completeUpstream at moved
  split at moved
  · rename_i running
    obtain ⟨rfl,rfl⟩ := Prod.mk.inj (Option.some.inj moved)
    refine event_keeps inv ⟨?_,inv.counted.distinct,inv.counted.holding,?_,?_,?_⟩ idle rfl rfl rfl rfl emplaced
      (until_not_finishing (.inl rfl) shape)
    · simpa [running] using inv.counted.counter
    · simpa using .completing shape
    · simpa [put_threads] using inv.counted.items
    · simpa [put_threads] using inv.counted.callback
  · cases moved

theorem setNext_keeps {x : Nat} {prog : List (Instr Error)} (inv : Invariant c) (idle : c.threads (.item x) = [])
    (accepted : accept (.setNext x) c.shared = some (s,prog)) : Invariant (c.put (.item x) s prog) := by
  simp only [accept] at accepted
  split at accepted
  · rename_i ok
    obtain ⟨running,fresh⟩ := ok
    have counter := inv.counted.counter
    rw [running] at counter
    simp only [reduceCtorEq,if_false] at counter
    have held : c.shared.refCounter ≠ 0 := by omega
    obtain ⟨empty,none⟩ := inv.finish.open_ held
    simp only [increaseRef,held,if_false] at accepted
    obtain ⟨rfl,rfl⟩ := Prod.mk.inj (Option.some.inj accepted)
    have absent : x ∉ c.shared.holders := by
      rw [inv.counted.holding x,fresh]
      exact id
    refine ⟨⟨?_,?_,?_,?_,?_,?_⟩,?_,finish_open ?_ empty ?_⟩
    · simp only [put_shared,running,reduceCtorEq,if_false,List.length_cons]; omega
    · exact List.nodup_cons.mpr ⟨absent,inv.counted.distinct⟩
    · intro y
      rw [put_shared,List.mem_cons,inv.counted.holding y]
      by_cases here : y = x
      · subst here; simp [Holding]
      · simp [here]
    · simpa [put_threads] using inv.counted.upstream
    · intro y
      rw [put_threads,put_shared]
      by_cases here : y = x
      · subst here; simpa using .setup
      · simpa [here] using inv.counted.items y
    · simpa [put_threads] using inv.counted.callback
    · apply erred_put inv.erred
      · exact inv.erred.stored
      · exact id
      · trivial
    · simp only [put_shared]; omega
    · intro q
      rw [put_threads]
      split
      · simp [Finishing,complete]
      · exact none q
  · cases accepted

end

theorem initial_invariant : Invariant (initial Error) := by
  refine ⟨⟨by simp [initial,start,constructed],by simp [initial,start,constructed],by simp [initial,start,constructed,Holding],.running,
    fun x => .fresh,rfl⟩,⟨by simp [initial,start,constructed],fun p => trivial⟩,finish_open ?_ rfl ?_⟩
  · simp [initial,start]
  · simp [initial,Finishing,complete]

theorem call_keeps {e : Event Error} {s : OperationBase Error} {prog : List (Instr Error)} (inv : Invariant c)
    (ok : NoStopCallback c (.call e)) (idle : c.threads ((machine Error).party e) = [])
    (accepted : accept e c.shared = some (s,prog)) : Invariant (c.put ((machine Error).party e) s prog) := by
  have error : ∀ e : Error, Until .decreaseRef (setError e) := fun e =>
    ⟨[.compareExchangeError e,.exchangeStop],by simp [Light],rfl⟩
  have stopped : Until .decreaseRef (setStopped : List (Instr Error)) :=
    ⟨[.storeStopped,.exchangeStop],by simp [Light],rfl⟩
  cases e with
  | setNext x => exact setNext_keeps inv idle accepted
  | newValue x =>
    exact move_keeps inv idle accepted (by simp [Holding]) .allocated trivial (by simp [Finishing,complete])
  | newError x e =>
    exact move_keeps inv idle accepted (by simp [Holding]) (.failed (error e)) trivial
      (until_not_finishing (.inl rfl) (error e))
  | newStopped x =>
    exact move_keeps inv idle accepted (by simp [Holding]) (.failed until_stopAndRelease) trivial
      (until_not_finishing (.inl rfl) until_stopAndRelease)
  | nextValue x =>
    exact move_keeps inv idle accepted (by simp [Holding]) (.completed (until_last _)) trivial
      (until_not_finishing (.inr rfl) (until_last _))
  | nextStopped x =>
    have shape : Until .startDelete [.exchangeStop,(.startDelete : Instr Error)] :=
      ⟨[.exchangeStop],by simp [Light],rfl⟩
    exact move_keeps inv idle accepted (by simp [Holding]) (.completed shape) trivial
      (until_not_finishing (.inr rfl) shape)
  | deleteValue x =>
    exact move_keeps inv idle accepted (by simp [Holding]) .deleted trivial
      (until_not_finishing (.inl rfl) (until_last _))
  | upstreamValue => exact completeUpstream_keeps inv idle accepted (until_last _) trivial
  | upstreamError e => exact completeUpstream_keeps inv idle accepted (error e) trivial
  | upstreamStopped => exact completeUpstream_keeps inv idle accepted stopped trivial
  | outerStop =>
    have unarmed : c.shared.stopCallback = false := ok
    simp only [accept,unarmed] at accepted
    split at accepted
    · cases accepted
    · obtain ⟨rfl,rfl⟩ := Prod.mk.inj (Option.some.inj accepted)
      refine event_keeps inv ?_ idle rfl rfl rfl rfl trivial (by simp [Finishing,complete])
      apply counted_put inv.counted <;> rfl

theorem reach_invariant (reach : Reach (machine Error) NoStopCallback (initial Error) c) : Invariant c :=
  reach.invariant initial_invariant (fun _ _ _ _ _ _ inv _ left ran => run_keeps inv left ran)
    (fun _ _ _ _ inv ok idle accepted => call_keeps inv ok idle accepted)

/-- As long as the callback on the outer stop token does not fire: the counter
    counts the upstream sequence and the items that hold a reference, the outer
    receiver is completed at most once, and not before the upstream sequence has
    completed and every item operation is deleted; from then on `increase_ref`
    fails. Once nothing is left to happen, the receiver has been completed. -/
theorem fork_completes_once (reach : Reach (machine Error) NoStopCallback (initial Error) c) :
    c.shared.completions.length ≤ 1 ∧
    (c.shared.completions ≠ [] →
      c.shared.upstream = .released ∧ (∀ x, ¬ Allocated (c.shared.phase x)) ∧ increaseRef c.shared = none) ∧
    (c.shared.refCounter = (if c.shared.upstream = .released then 0 else 1) + c.shared.holders.length ∧
      c.shared.holders.Nodup ∧ ∀ x, x ∈ c.shared.holders ↔ Holding (c.shared.phase x)) ∧
    ((∀ p, c.threads p = []) → c.shared.upstream ≠ .running →
      (∀ x, c.shared.phase x ≠ .setup ∧ c.shared.phase x ≠ .running ∧ c.shared.phase x ≠ .deleting) →
      c.shared.completions.length = 1) := by
  have inv := reach_invariant reach
  have counter := inv.counted.counter
  refine ⟨inv.finish.once,?_,⟨counter,inv.counted.distinct,inv.counted.holding⟩,?_⟩
  · intro completed
    have zero := inv.finish.finished completed
    have empty : c.shared.holders = [] := by
      apply List.eq_nil_of_length_eq_zero
      split at counter <;> omega
    refine ⟨?_,?_,by simp [increaseRef,zero]⟩
    · by_contra other
      rw [if_neg other] at counter
      omega
    · intro x allocated
      have : x ∈ c.shared.holders := by
        rw [inv.counted.holding x]
        revert allocated
        cases c.shared.phase x <;> simp [Allocated,Holding]
      simp [empty] at this
  · intro idle done settled
    have released : c.shared.upstream = .released := by
      have shape := inv.counted.upstream
      rw [idle] at shape
      generalize c.shared.upstream = progress at shape done
      cases shape with
      | running => exact absurd rfl done
      | completing whole => obtain ⟨l,_,same⟩ := whole; simp at same
      | finishing _ => rfl
      | released => rfl
    have empty : c.shared.holders = [] := by
      apply List.eq_nil_iff_forall_not_mem.mpr
      intro x member
      rw [inv.counted.holding x] at member
      obtain ⟨setup,running,deleting⟩ := settled x
      have shape := inv.counted.items x
      rw [idle] at shape
      generalize c.shared.phase x = phase at shape member setup running deleting
      cases shape with
      | setup => exact setup rfl
      | running => exact running rfl
      | deleting => exact deleting rfl
      | failed whole => obtain ⟨l,_,same⟩ := whole; simp at same
      | completed whole => obtain ⟨l,_,same⟩ := whole; simp at same
      | fresh | finishing _ | released => exact member
    have once := inv.finish.once
    cases list : c.shared.completions with
    | nil =>
      obtain ⟨p,at_p⟩ := inv.finish.unfinished list (by rw [counter,released,empty]; rfl)
      simp [idle,Finishing,complete] at at_p
    | cons d rest => simp [list] at once ⊢; exact once

/-- Accepts every step but a request on the outer stop token. -/
def neverStops (_ : Config Party (OperationBase Error) (Instr Error)) : Label Party (Event Error) → Bool
  | .call .outerStop => false
  | _ => true

theorem noStopCallback_of_never (c : Config Party (OperationBase Error) (Instr Error)) (l : Label Party (Event Error))
    (never : neverStops c l = true) : NoStopCallback c l := by
  cases l with
  | run => trivial
  | call e => cases e <;> simp [NoStopCallback,neverStops] at never ⊢

/-- An item that fails while it is set up, and a sequence that then completes. -/
theorem fork_completes_once_failing : ∃ c, Reach (machine Nat) NoStopCallback (initial Nat) c ∧
    c.shared.completions = [.error 7] ∧ c.shared.completions.length ≤ 1 := by
  obtain ⟨c,reach,sent⟩ := exists_of_follow (machine Nat) NoStopCallback (initial Nat) neverStops
    noStopCallback_of_never
    [(.call (.setNext 0),0),(.call (.newError 0 7),0),(.run (.item 0),0),(.run (.item 0),0),(.run (.item 0),0),
      (.run (.item 0),0),(.run (.item 0),0),(.run (.item 0),0),(.call .upstreamValue,0),(.run .upstream,0),
      (.run .upstream,0),(.run .upstream,0),(.run .upstream,0)]
    (fun c => c.shared.completions = [.error 7]) (by decide)
  exact ⟨c,reach,by simpa using sent,(fork_completes_once reach).1⟩

/-- The callback fires while the upstream sequence runs: the receiver is completed
    at once, and the reference of a later item is counted from below zero. -/
theorem stop_callback_completes_early : ∃ c, Reach (machine Nat) Any (initial Nat) c ∧
    c.shared.completions = [.stopped] ∧ c.shared.upstream = .running ∧ c.shared.phase 1 = .setup := by
  obtain ⟨c,reach,sent⟩ := exists_of_follow (machine Nat) Any (initial Nat) (fun _ _ => true)
    (fun _ _ _ => trivial)
    [(.call .outerStop,0),(.run .stopCallback,0),(.run .stopCallback,0),(.run .stopCallback,0),(.run .stopCallback,0),
      (.run .stopCallback,0),(.run .stopCallback,0),(.call (.setNext 0),0),(.run (.item 0),0),(.run (.item 0),0),
      (.call (.setNext 1),0)]
    (fun c => c.shared.completions = [.stopped] && c.shared.upstream = .running && c.shared.phase 1 = .setup)
    (by decide)
  exact ⟨c,reach,by simpa [and_assoc] using sent⟩

end SendersIo.Fork
