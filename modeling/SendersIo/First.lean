import Mathlib.Data.List.Basic
import SendersIo.Interleaving
import SendersIo.Signals

/-!
`first` over a sequence with concurrent items. The items race for `emplaced_`:
the one that exchanges 0 for 1 constructs the result and then stores 2, and every
item receiver is completed with `set_stopped`. When the sequence completes with
`set_value`, the receiver visits the result. Without any item it completes with
`set_stopped` first, and then visits a result that nobody constructed.
-/
namespace SendersIo.First
open SendersIo.Interleaving SendersIo.Signals
set_option linter.unusedSimpArgs false

variable {Value Error : Type}

/-- `first_::result_type` of a sequence that is not in lock step and what happened
    so far: how every item completed, the items that exchanged `emplaced_`, the
    completions of the item receivers, how the source completed, and what the
    receiver of the source found in the result each time it visited it. -/
structure Operation (Value Error : Type) where
  result : Option (Completion Value Error)
  emplaced : Nat
  items : List (Nat × Completion Value Error)
  winners : List (Nat × Completion Value Error)
  finished : List (Nat × Signal Error)
  source : Option (Signal Error)
  visits : List (Option (Completion Value Error))
  completions : List (Completion Value Error)

inductive Party where
  | item (x : Nat)
  | source
  deriving DecidableEq

/-- The atomic steps of `result_type::emplace` and `result_type::visit_result` and
    the completions of the receivers. -/
inductive Instr (Value Error : Type) where
  | compareExchange (r : Completion Value Error)
  | construct (r : Completion Value Error)
  | storeEmplaced
  | completeItem (signal : Signal Error)
  | loadEmplaced
  | visitResult
  | complete (r : Completion Value Error)

inductive Event (Value Error : Type) where
  | item (x : Nat) (r : Completion Value Error)
  | source (signal : Signal Error)

/-- `first_::item_receiver`: all three completions are emplaced with their tag, and
    the item receiver gets `set_stopped`. -/
def itemHandler (r : Completion Value Error) : List (Instr Value Error) :=
  [.compareExchange r,.completeItem .stopped]

/-- `first_::receiver`. -/
def sourceHandler : Signal Error → List (Instr Value Error)
  | .value _ => [.loadEmplaced]
  | .error e => [.complete (.error e)]
  | .stopped => [.complete .stopped]

def exec : Party → Instr Value Error → Operation Value Error →
    List (Operation Value Error × List (Instr Value Error))
  | .item x,.compareExchange r,s =>
    if s.emplaced = 0 then
      [({ s with emplaced := 1, winners := s.winners ++ [(x,r)] },[.construct r,.storeEmplaced])]
    else [(s,[])]
  | .item _,.construct r,s => [({ s with result := some r },[])]
  | .item _,.storeEmplaced,s => [({ s with emplaced := 2 },[])]
  | .item x,.completeItem signal,s => [({ s with finished := s.finished ++ [(x,signal)] },[])]
  | .source,.loadEmplaced,s =>
    -- the branch for 0 does not return
    if s.emplaced = 0 then [(s,[.complete .stopped,.visitResult])] else [(s,[.visitResult])]
  | .source,.visitResult,s =>
    match s.result with
    | some r => [({ s with visits := s.visits ++ [some r] },[.complete r])]
    -- what follows the visit of a result that was never constructed is undefined
    | none => [({ s with visits := s.visits ++ [none] },[])]
  | .source,.complete r,s => [({ s with completions := s.completions ++ [r] },[])]
  | _,_,_ => []

/-- An item completes once; the source sequence completes once, after the
    receivers of all its items. -/
def accept : Event Value Error → Operation Value Error →
    Option (Operation Value Error × List (Instr Value Error))
  | .item x r,s =>
    if s.source.isNone ∧ x ∉ s.items.map Prod.fst then
      some ({ s with items := s.items ++ [(x,r)] },itemHandler r)
    else none
  | .source signal,s =>
    if s.source.isNone ∧ ∀ item ∈ s.items, item.1 ∈ s.finished.map Prod.fst then
      some ({ s with source := some signal },sourceHandler signal)
    else none

def machine : Machine Party (Operation Value Error) (Instr Value Error) (Event Value Error) where
  exec := exec
  accept := accept
  party
    | .item x _ => .item x
    | .source _ => .source

def initial : Config Party (Operation Value Error) (Instr Value Error) where
  shared := ⟨none,0,[],[],[],none,[],[]⟩
  threads _ := []

/-- The source sequence has completed and its receiver is done. -/
def Ended (c : Config Party (Operation Value Error) (Instr Value Error)) : Prop :=
  c.shared.source.isSome ∧ c.threads .source = []

/-- The receiver was completed once: like the source when that did not complete
    with `set_value`, else like the only item that exchanged `emplaced_`, or with
    `set_stopped` when there was no item. A result was only visited once it was
    constructed. -/
structure Operation.CompletedOnce (s : Operation Value Error) : Prop where
  value : s.source = some (.value ()) →
    (s.items = [] → s.completions = [.stopped]) ∧
    (s.items ≠ [] → ∃ x r, s.winners = [(x,r)] ∧ (x,r) ∈ s.items ∧ s.completions = [r])
  error : ∀ e, s.source = some (.error e) → s.completions = [.error e]
  stopped : s.source = some .stopped → s.completions = [.stopped]
  constructed : none ∉ s.visits

/-! ### The result and its writer -/

/-- The phases of a slot that is written once: nobody has it, an item has it and
    constructs the result, the result is there, the result may be read. -/
inductive Slot (Value Error : Type) where
  | empty
  | claimed (x : Nat) (r : Completion Value Error)
  | constructed (x : Nat) (r : Completion Value Error)
  | published (x : Nat) (r : Completion Value Error)

namespace Slot

def emplaced : Slot Value Error → Nat
  | .empty => 0
  | .claimed .. => 1
  | .constructed .. => 1
  | .published .. => 2

def result : Slot Value Error → Option (Completion Value Error)
  | .empty => none
  | .claimed .. => none
  | .constructed _ r => some r
  | .published _ r => some r

/-- The item that has the slot, and its completion. -/
def winner : Slot Value Error → Option (Nat × Completion Value Error)
  | .empty => none
  | .claimed x r => some (x,r)
  | .constructed x r => some (x,r)
  | .published x r => some (x,r)

/-- The item that is not done with the slot. -/
def writer : Slot Value Error → Option Nat
  | .empty => none
  | .claimed x _ => some x
  | .constructed x _ => some x
  | .published .. => none

/-- What an item does to the slot: nothing, or the next phase. -/
inductive Advance (x : Nat) : Slot Value Error → Slot Value Error → Prop
  | wait (slot : Slot Value Error) : Advance x slot slot
  | claim (r : Completion Value Error) : Advance x .empty (.claimed x r)
  | construct (r : Completion Value Error) : Advance x (.claimed x r) (.constructed x r)
  | publish (r : Completion Value Error) : Advance x (.constructed x r) (.published x r)

variable {slot slot' : Slot Value Error} {x y : Nat}

@[simp] theorem winner_eq_none : slot.winner = none ↔ slot = .empty := by
  cases slot <;> simp [winner]

@[simp] theorem emplaced_eq_zero : slot.emplaced = 0 ↔ slot = .empty := by
  cases slot <;> simp [emplaced]

/-- A slot that is nobody's to write was never taken or is published. -/
theorem published_of_writer (taken : slot ≠ .empty) (unwritten : slot.writer = none) :
    ∃ x r, slot = .published x r := by
  cases slot with
  | empty => exact absurd rfl taken
  | claimed x r => cases unwritten
  | constructed x r => cases unwritten
  | published x r => exact ⟨x,r,rfl⟩

/-- The writer of a slot is the item that has it. -/
theorem winner_of_writer (writes : slot.writer = some x) : ∃ r, slot.winner = some (x,r) := by
  cases slot with
  | empty => cases writes
  | claimed y r => cases writes; exact ⟨r,rfl⟩
  | constructed y r => cases writes; exact ⟨r,rfl⟩
  | published y r => cases writes

theorem Advance.taken (step : Advance x slot slot') (taken : slot ≠ .empty) : slot' ≠ .empty := by
  cases step with
  | wait => exact taken
  | claim r => exact absurd rfl taken
  | construct r => simp
  | publish r => simp

/-- An item writes to a slot that nobody else writes. -/
theorem Advance.writer_ne (step : Advance x slot slot') (other : y ≠ x) (free : slot.writer ≠ some y) :
    slot'.writer ≠ some y := by
  cases step with
  | wait => exact free
  | claim r => simpa [writer] using other.symm
  | construct r => simpa [writer] using other.symm
  | publish r => simp [writer]

theorem Advance.eq_of_writer (step : Advance x slot slot') (other : y ≠ x) (writes : slot.writer = some y) :
    slot' = slot := by
  cases step with
  | wait => rfl
  | claim r => cases writes
  | construct r => exact absurd (Option.some.inj writes).symm other
  | publish r => exact absurd (Option.some.inj writes).symm other

end Slot

/-! ### What an item and the source have left -/

/-- All items that completed have also completed their receivers. -/
def Operation.AllFinished (s : Operation Value Error) : Prop :=
  ∀ item ∈ s.items, item.1 ∈ s.finished.map Prod.fst

/-- What the receiver of the source has seen and sent. -/
def Operation.Seen (s : Operation Value Error) (visits : List (Option (Completion Value Error)))
    (completions : List (Completion Value Error)) : Prop :=
  s.visits = visits ∧ s.completions = completions

/-- What an item has left. -/
inductive ItemLeft (slot : Slot Value Error) (s : Operation Value Error) (x : Nat) : List (Instr Value Error) → Prop
  | running : x ∉ s.items.map Prod.fst → x ∉ s.finished.map Prod.fst → slot.writer ≠ some x → ItemLeft slot s x []
  | racing (r : Completion Value Error) : (x,r) ∈ s.items → x ∉ s.finished.map Prod.fst → slot.writer ≠ some x →
      ItemLeft slot s x [.compareExchange r,.completeItem .stopped]
  | constructing (r : Completion Value Error) : (x,r) ∈ s.items → x ∉ s.finished.map Prod.fst →
      slot = .claimed x r → ItemLeft slot s x [.construct r,.storeEmplaced,.completeItem .stopped]
  | storing (r : Completion Value Error) : (x,r) ∈ s.items → x ∉ s.finished.map Prod.fst →
      slot = .constructed x r → ItemLeft slot s x [.storeEmplaced,.completeItem .stopped]
  | finishing (r : Completion Value Error) : (x,r) ∈ s.items → x ∉ s.finished.map Prod.fst → slot ≠ .empty →
      slot.writer ≠ some x → ItemLeft slot s x [.completeItem .stopped]
  | finished (r : Completion Value Error) : (x,r) ∈ s.items → x ∈ s.finished.map Prod.fst → slot ≠ .empty →
      slot.writer ≠ some x → ItemLeft slot s x []

/-- What the receiver of the source has left, by what it has seen and sent. -/
inductive SourceLeft (slot : Slot Value Error) (s : Operation Value Error) : List (Instr Value Error) → Prop
  | running : s.source = none → s.Seen [] [] → SourceLeft slot s []
  | loading : s.source = some (.value ()) → s.AllFinished → s.Seen [] [] → SourceLeft slot s [.loadEmplaced]
  | visiting (x : Nat) (r : Completion Value Error) : s.source = some (.value ()) → s.AllFinished →
      slot = .published x r → s.Seen [] [] → SourceLeft slot s [.visitResult]
  | completing (x : Nat) (r : Completion Value Error) : s.source = some (.value ()) → s.AllFinished →
      slot = .published x r → s.Seen [some r] [] → SourceLeft slot s [.complete r]
  | completed (x : Nat) (r : Completion Value Error) : s.source = some (.value ()) → s.AllFinished →
      slot = .published x r → s.Seen [some r] [r] → SourceLeft slot s []
  | stopping : s.source = some (.value ()) → s.items = [] → s.Seen [] [] →
      SourceLeft slot s [.complete .stopped,.visitResult]
  | misvisiting : s.source = some (.value ()) → s.items = [] → s.Seen [] [.stopped] → SourceLeft slot s [.visitResult]
  | misvisited : s.source = some (.value ()) → s.items = [] → s.Seen [none] [.stopped] → SourceLeft slot s []
  | forwarding (signal : Signal Error) (r : Completion Value Error) : s.source = some signal → s.AllFinished →
      signal ≠ .value () → sourceHandler signal = [.complete r] → s.Seen [] [] → SourceLeft slot s [.complete r]
  | forwarded (signal : Signal Error) (r : Completion Value Error) : s.source = some signal → s.AllFinished →
      signal ≠ .value () → (sourceHandler signal : List (Instr Value Error)) = [.complete r] → s.Seen [] [r] →
      SourceLeft slot s []

/-- A configuration whose result is in the given phase. -/
structure Tracks (slot : Slot Value Error) (c : Config Party (Operation Value Error) (Instr Value Error)) : Prop where
  emplaced : c.shared.emplaced = slot.emplaced
  result : c.shared.result = slot.result
  winners : c.shared.winners = slot.winner.toList
  known : ∀ winner ∈ slot.winner, winner ∈ c.shared.items
  stopped : ∀ item ∈ c.shared.finished, item.2 = .stopped
  left : ∀ x, ItemLeft slot c.shared x (c.threads (.item x))
  source : SourceLeft slot c.shared (c.threads .source)

section
variable {slot slot' : Slot Value Error} {s s' : Operation Value Error} {x y : Nat}
  {prog : List (Instr Value Error)} {c : Config Party (Operation Value Error) (Instr Value Error)}

/-- What an item has left depends on its own completions and on the phase of the
    result as far as the item has to do with it. -/
theorem ItemLeft.congr (left : ItemLeft slot s y prog) (taken : slot ≠ .empty → slot' ≠ .empty)
    (free : slot.writer ≠ some y → slot'.writer ≠ some y) (held : slot.writer = some y → slot' = slot)
    (items : ∀ r, (y,r) ∈ s'.items ↔ (y,r) ∈ s.items)
    (finished : y ∈ s'.finished.map Prod.fst ↔ y ∈ s.finished.map Prod.fst) : ItemLeft slot' s' y prog := by
  have names : y ∈ s'.items.map Prod.fst ↔ y ∈ s.items.map Prod.fst := by simp [items]
  cases left with
  | running absent unfinished unheld =>
    exact .running (mt names.mp absent) (mt finished.mp unfinished) (free unheld)
  | racing r member unfinished unheld =>
    exact .racing r ((items r).mpr member) (mt finished.mp unfinished) (free unheld)
  | constructing r member unfinished here =>
    exact .constructing r ((items r).mpr member) (mt finished.mp unfinished) ((held (by rw [here]; rfl)).trans here)
  | storing r member unfinished here =>
    exact .storing r ((items r).mpr member) (mt finished.mp unfinished) ((held (by rw [here]; rfl)).trans here)
  | finishing r member unfinished was unheld =>
    exact .finishing r ((items r).mpr member) (mt finished.mp unfinished) (taken was) (free unheld)
  | finished r member done was unheld =>
    exact .finished r ((items r).mpr member) (finished.mpr done) (taken was) (free unheld)

/-- An item with something left has completed and its receiver has not. -/
theorem ItemLeft.busy {i : Instr Value Error} (left : ItemLeft slot s x (i :: prog)) :
    (∃ r, (x,r) ∈ s.items) ∧ x ∉ s.finished.map Prod.fst := by
  cases left with
  | racing r member unfinished => exact ⟨⟨r,member⟩,unfinished⟩
  | constructing r member unfinished => exact ⟨⟨r,member⟩,unfinished⟩
  | storing r member unfinished => exact ⟨⟨r,member⟩,unfinished⟩
  | finishing r member unfinished => exact ⟨⟨r,member⟩,unfinished⟩

/-- While an item has something left, the source has not completed. -/
theorem SourceLeft.open (source : SourceLeft slot s prog) {r : Completion Value Error} (member : (x,r) ∈ s.items)
    (unfinished : x ∉ s.finished.map Prod.fst) : s.source = none ∧ s.Seen [] [] ∧ prog = [] := by
  cases source with
  | running unset seen => exact ⟨unset,seen,rfl⟩
  | loading _ all => exact absurd (all _ member) unfinished
  | visiting _ _ _ all => exact absurd (all _ member) unfinished
  | completing _ _ _ all => exact absurd (all _ member) unfinished
  | completed _ _ _ all => exact absurd (all _ member) unfinished
  | stopping _ empty => simp [empty] at member
  | misvisiting _ empty => simp [empty] at member
  | misvisited _ empty => simp [empty] at member
  | forwarding _ _ _ all => exact absurd (all _ member) unfinished
  | forwarded _ _ _ all => exact absurd (all _ member) unfinished

theorem tracks_initial : Tracks .empty (initial : Config Party (Operation Value Error) (Instr Value Error)) where
  emplaced := rfl
  result := rfl
  winners := rfl
  known := by simp [Slot.winner]
  stopped := by simp [initial]
  left x := .running (by simp [initial]) (by simp [initial]) (by simp [Slot.writer])
  source := .running rfl ⟨rfl,rfl⟩

/-- When all items are done, the result was never taken or is published. -/
theorem Tracks.settled (tracks : Tracks slot c) (all : c.shared.AllFinished) : slot.writer = none := by
  cases writes : slot.writer with
  | none => rfl
  | some x =>
    obtain ⟨r,won⟩ := Slot.winner_of_writer writes
    have finished := all _ (tracks.known _ won)
    have left := tracks.left x
    generalize c.threads (.item x) = prog at left
    cases left with
    | running _ unfinished => exact absurd finished unfinished
    | racing _ _ unfinished => exact absurd finished unfinished
    | constructing _ _ unfinished => exact absurd finished unfinished
    | storing _ _ unfinished => exact absurd finished unfinished
    | finishing _ _ unfinished => exact absurd finished unfinished
    | finished _ _ _ _ free => exact absurd writes free

/-- The result was taken if there is an item and all items are done. -/
theorem Tracks.taken (tracks : Tracks slot c) (all : c.shared.AllFinished) (nonempty : c.shared.items ≠ []) :
    slot ≠ .empty := by
  obtain ⟨item,member⟩ := List.exists_mem_of_ne_nil _ nonempty
  have finished := all _ member
  have left := tracks.left item.1
  generalize c.threads (.item item.1) = prog at left
  cases left with
  | running _ unfinished => exact absurd finished unfinished
  | racing _ _ unfinished => exact absurd finished unfinished
  | constructing _ _ _ here => simp [here]
  | storing _ _ _ here => simp [here]
  | finishing _ _ _ taken => exact taken
  | finished _ _ _ taken => exact taken

/-- Without items the result was not taken. -/
theorem Tracks.untaken (tracks : Tracks slot c) (empty : c.shared.items = []) : slot = .empty := by
  rw [← Slot.winner_eq_none,Option.eq_none_iff_forall_not_mem]
  intro winner won
  simpa [empty] using tracks.known winner won

end

/-! ### The steps -/

section
variable {slot slot' : Slot Value Error} {s : Operation Value Error} {x : Nat} {i : Instr Value Error}
  {rest new prog : List (Instr Value Error)} {c : Config Party (Operation Value Error) (Instr Value Error)}

/-- A step of an item that takes the result to its next phase and leaves the
    source and the other items alone. -/
theorem Tracks.advance (tracks : Tracks slot c) (left : c.threads (.item x) = i :: rest)
    (step : Slot.Advance x slot slot') (emplaced : s.emplaced = slot'.emplaced) (result : s.result = slot'.result)
    (winners : s.winners = slot'.winner.toList) (known : ∀ winner ∈ slot'.winner, winner ∈ c.shared.items)
    (items : s.items = c.shared.items)
    (finished : ∃ done, s.finished = c.shared.finished ++ done ∧ ∀ item ∈ done, item = (x,.stopped))
    (source : s.source = c.shared.source ∧ s.visits = c.shared.visits ∧ s.completions = c.shared.completions)
    (mine : ItemLeft slot' s x prog) : Tracks slot' (c.put (.item x) s prog) := by
  obtain ⟨done,finished,by_x⟩ := finished
  refine ⟨emplaced,result,winners,by simpa [items] using known,?_,fun y => ?_,?_⟩
  · intro item member
    rw [put_shared,finished,List.mem_append] at member
    rcases member with earlier | now
    · exact tracks.stopped item earlier
    · rw [by_x item now]
  · by_cases same : y = x
    · subst same
      simpa using mine
    · rw [put_threads_ne c (by simpa using same)]
      refine (tracks.left y).congr step.taken (step.writer_ne same) (step.eq_of_writer same) (by simp [items]) ?_
      have apart : y ∉ done.map Prod.fst := by
        intro member
        obtain ⟨item,at_item,rfl⟩ := List.mem_map.mp member
        exact same (by rw [by_x item at_item])
      rw [put_shared,finished,List.map_append,List.mem_append,or_iff_left apart]
  · have at_x := tracks.left x
    rw [left] at at_x
    obtain ⟨⟨r,member⟩,unfinished⟩ := at_x.busy
    obtain ⟨unset,seen,idle⟩ := tracks.source.open member unfinished
    rw [put_threads_ne c (by simp),idle]
    exact .running (source.1.trans unset) ⟨source.2.1.trans seen.1,source.2.2.trans seen.2⟩

/-- An item takes the result if nobody has it, and leaves it alone otherwise. -/
theorem Tracks.compareExchange (tracks : Tracks slot c) {r : Completion Value Error}
    (left : c.threads (.item x) = [.compareExchange r,.completeItem .stopped])
    (ran : (s,new) ∈ exec (.item x) (.compareExchange r) c.shared) :
    ∃ slot', Tracks slot' (c.put (.item x) s (new ++ [.completeItem .stopped])) := by
  have at_x := tracks.left x
  rw [left] at at_x
  cases at_x with
  | racing _ member unfinished free =>
    by_cases vacant : slot = .empty
    · subst vacant
      obtain ⟨rfl,rfl⟩ : s = _ ∧ new = _ := by
        simpa [exec,tracks.emplaced,Slot.emplaced] using ran
      refine ⟨.claimed x r,tracks.advance left (.claim r) rfl tracks.result ?_ ?_ rfl ⟨[],by simp⟩ ⟨rfl,rfl,rfl⟩ ?_⟩
      · simp [tracks.winners,Slot.winner]
      · simpa [Slot.winner] using member
      · exact .constructing r member unfinished rfl
    · obtain ⟨rfl,rfl⟩ : s = _ ∧ new = _ := by
        simpa [exec,tracks.emplaced,vacant] using ran
      exact ⟨slot,tracks.advance left (.wait slot) tracks.emplaced tracks.result tracks.winners tracks.known rfl
        ⟨[],by simp⟩ ⟨rfl,rfl,rfl⟩ (.finishing r member unfinished vacant free)⟩

/-- The item that took the result constructs it. -/
theorem Tracks.construct (tracks : Tracks slot c) {r : Completion Value Error}
    (left : c.threads (.item x) = .construct r :: rest) (ran : (s,new) ∈ exec (.item x) (.construct r) c.shared) :
    ∃ slot', Tracks slot' (c.put (.item x) s (new ++ rest)) := by
  obtain ⟨rfl,rfl⟩ : s = _ ∧ new = _ := by simpa [exec] using ran
  have at_x := tracks.left x
  rw [left] at at_x
  cases at_x with
  | constructing _ member unfinished here =>
    subst here
    exact ⟨.constructed x r,tracks.advance left (.construct r) tracks.emplaced rfl tracks.winners tracks.known rfl
      ⟨[],by simp⟩ ⟨rfl,rfl,rfl⟩ (.storing r member unfinished rfl)⟩

/-- The item that constructed the result publishes it. -/
theorem Tracks.storeEmplaced (tracks : Tracks slot c) (left : c.threads (.item x) = .storeEmplaced :: rest)
    (ran : (s,new) ∈ exec (.item x) .storeEmplaced c.shared) :
    ∃ slot', Tracks slot' (c.put (.item x) s (new ++ rest)) := by
  obtain ⟨rfl,rfl⟩ : s = _ ∧ new = _ := by simpa [exec] using ran
  have at_x := tracks.left x
  rw [left] at at_x
  cases at_x with
  | storing r member unfinished here =>
    subst here
    exact ⟨.published x r,tracks.advance left (.publish r) rfl tracks.result tracks.winners tracks.known rfl
      ⟨[],by simp⟩ ⟨rfl,rfl,rfl⟩ (.finishing r member unfinished (by simp) (by simp [Slot.writer]))⟩

/-- An item completes its receiver with `set_stopped`. -/
theorem Tracks.completeItem (tracks : Tracks slot c) {signal : Signal Error}
    (left : c.threads (.item x) = .completeItem signal :: rest)
    (ran : (s,new) ∈ exec (.item x) (.completeItem signal) c.shared) :
    ∃ slot', Tracks slot' (c.put (.item x) s (new ++ rest)) := by
  obtain ⟨rfl,rfl⟩ : s = _ ∧ new = _ := by simpa [exec] using ran
  have at_x := tracks.left x
  rw [left] at at_x
  cases at_x with
  | finishing r member unfinished taken free =>
    exact ⟨slot,tracks.advance left (.wait slot) tracks.emplaced tracks.result tracks.winners tracks.known rfl
      ⟨[(x,.stopped)],rfl,by simp⟩ ⟨rfl,rfl,rfl⟩ (.finished r member (by simp) taken free)⟩

theorem Tracks.run_item (tracks : Tracks slot c) (left : c.threads (.item x) = i :: rest)
    (ran : (s,new) ∈ exec (.item x) i c.shared) : ∃ slot', Tracks slot' (c.put (.item x) s (new ++ rest)) := by
  have at_x := tracks.left x
  rw [left] at at_x
  cases at_x with
  | racing => exact tracks.compareExchange left ran
  | constructing => exact tracks.construct left ran
  | storing => exact tracks.storeEmplaced left ran
  | finishing => exact tracks.completeItem left ran

/-- A step of the source leaves the items and the result alone. -/
theorem Tracks.put_source (tracks : Tracks slot c) (result : s.result = c.shared.result)
    (emplaced : s.emplaced = c.shared.emplaced) (winners : s.winners = c.shared.winners)
    (items : s.items = c.shared.items) (finished : s.finished = c.shared.finished)
    (source : SourceLeft slot s prog) : Tracks slot (c.put .source s prog) where
  emplaced := emplaced.trans tracks.emplaced
  result := result.trans tracks.result
  winners := winners.trans tracks.winners
  known := by simpa [items] using tracks.known
  stopped := by simpa [finished] using tracks.stopped
  left y := by
    rw [put_threads_ne c (by simp)]
    exact (tracks.left y).congr id id (fun _ => rfl) (by simp [items]) (by simp [finished])
  source := by simpa using source

end
section
variable {slot : Slot Value Error} {s : Operation Value Error} {i : Instr Value Error} {e : Event Value Error}
  {rest new prog : List (Instr Value Error)} {c : Config Party (Operation Value Error) (Instr Value Error)}

/-- The receiver of the source looks whether the result was taken. -/
theorem Tracks.loadEmplaced (tracks : Tracks slot c) (left : c.threads .source = .loadEmplaced :: rest)
    (ran : (s,new) ∈ exec .source .loadEmplaced c.shared) : Tracks slot (c.put .source s (new ++ rest)) := by
  have source := tracks.source
  rw [left] at source
  cases source with
  | loading set_ all seen =>
    by_cases empty : c.shared.items = []
    · have vacant := tracks.untaken empty
      obtain ⟨rfl,rfl⟩ : s = _ ∧ new = _ := by simpa [exec,tracks.emplaced,vacant] using ran
      exact tracks.put_source rfl rfl rfl rfl rfl (.stopping set_ empty seen)
    · have taken := tracks.taken all empty
      obtain ⟨x,r,here⟩ := Slot.published_of_writer taken (tracks.settled all)
      obtain ⟨rfl,rfl⟩ : s = _ ∧ new = _ := by simpa [exec,tracks.emplaced,taken] using ran
      exact tracks.put_source rfl rfl rfl rfl rfl (.visiting x r set_ all here seen)

/-- The receiver of the source visits the result. -/
theorem Tracks.visitResult (tracks : Tracks slot c) (left : c.threads .source = .visitResult :: rest)
    (ran : (s,new) ∈ exec .source .visitResult c.shared) : Tracks slot (c.put .source s (new ++ rest)) := by
  have source := tracks.source
  rw [left] at source
  cases source with
  | visiting x r set_ all here seen =>
    have held : c.shared.result = some r := by rw [tracks.result,here]; rfl
    obtain ⟨rfl,rfl⟩ : s = { c.shared with visits := c.shared.visits ++ [some r] } ∧ new = [.complete r] := by
      simpa [exec,held] using ran
    exact tracks.put_source rfl rfl rfl rfl rfl (.completing x r set_ all here ⟨by simp [seen.1],seen.2⟩)
  | misvisiting set_ empty seen =>
    have held : c.shared.result = none := by rw [tracks.result,tracks.untaken empty]; rfl
    obtain ⟨rfl,rfl⟩ : s = { c.shared with visits := c.shared.visits ++ [none] } ∧ new = [] := by
      simpa [exec,held] using ran
    exact tracks.put_source rfl rfl rfl rfl rfl (.misvisited set_ empty ⟨by simp [seen.1],seen.2⟩)

/-- The receiver of the source completes the receiver of `first`. -/
theorem Tracks.complete (tracks : Tracks slot c) {r : Completion Value Error}
    (left : c.threads .source = .complete r :: rest)
    (ran : (s,new) ∈ exec .source (.complete r) c.shared) : Tracks slot (c.put .source s (new ++ rest)) := by
  obtain ⟨rfl,rfl⟩ : s = _ ∧ new = _ := by simpa [exec] using ran
  have source := tracks.source
  rw [left] at source
  refine tracks.put_source rfl rfl rfl rfl rfl ?_
  cases source with
  | completing x _ set_ all here seen => exact .completed x r set_ all here ⟨seen.1,by simp [seen.2]⟩
  | stopping set_ empty seen => exact .misvisiting set_ empty ⟨seen.1,by simp [seen.2]⟩
  | forwarding signal _ set_ all other handled seen =>
    exact .forwarded signal r set_ all other handled ⟨seen.1,by simp [seen.2]⟩

theorem Tracks.run_source (tracks : Tracks slot c) (left : c.threads .source = i :: rest)
    (ran : (s,new) ∈ exec .source i c.shared) : Tracks slot (c.put .source s (new ++ rest)) := by
  cases i with
  | loadEmplaced => exact tracks.loadEmplaced left ran
  | visitResult => exact tracks.visitResult left ran
  | complete r => exact tracks.complete left ran
  | compareExchange r => simp [exec] at ran
  | construct r => simp [exec] at ran
  | storeEmplaced => simp [exec] at ran
  | completeItem signal => simp [exec] at ran

/-- An item completes. -/
theorem Tracks.call_item (tracks : Tracks slot c) {x : Nat} {r : Completion Value Error}
    (idle : c.threads (.item x) = []) (accepted : accept (.item x r) c.shared = some (s,prog)) :
    Tracks slot (c.put (.item x) s prog) := by
  obtain ⟨⟨unset,fresh⟩,rfl,rfl⟩ :
      (c.shared.source = none ∧ x ∉ c.shared.items.map Prod.fst) ∧
        { c.shared with items := c.shared.items ++ [(x,r)] } = s ∧ itemHandler r = prog := by
    simpa [accept] using accepted
  obtain ⟨unfinished,free⟩ : x ∉ c.shared.finished.map Prod.fst ∧ slot.writer ≠ some x := by
    have at_x := tracks.left x
    rw [idle] at at_x
    cases at_x with
    | running _ unfinished free => exact ⟨unfinished,free⟩
    | finished r' member => exact absurd (List.mem_map_of_mem (f := Prod.fst) member) fresh
  refine ⟨tracks.emplaced,tracks.result,tracks.winners,fun winner won => ?_,tracks.stopped,fun y => ?_,?_⟩
  · exact List.mem_append_left _ (tracks.known winner won)
  · by_cases same : y = x
    · subst same
      simpa [itemHandler] using ItemLeft.racing (s := { c.shared with items := c.shared.items ++ [(y,r)] }) r (by simp)
        unfinished free
    · rw [put_threads_ne c (by simpa using same)]
      exact (tracks.left y).congr id id (fun _ => rfl) (by simp [same]) Iff.rfl
  · have source := tracks.source
    rw [put_threads_ne c (by simp)]
    generalize c.threads .source = prog at source
    cases source with
    | running _ seen => exact .running unset seen
    | loading set_ => simp [unset] at set_
    | visiting _ _ set_ => simp [unset] at set_
    | completing _ _ set_ => simp [unset] at set_
    | completed _ _ set_ => simp [unset] at set_
    | stopping set_ => simp [unset] at set_
    | misvisiting set_ => simp [unset] at set_
    | misvisited set_ => simp [unset] at set_
    | forwarding _ _ set_ => simp [unset] at set_
    | forwarded _ _ set_ => simp [unset] at set_

/-- The source completes. -/
theorem Tracks.call_source (tracks : Tracks slot c) {signal : Signal Error}
    (idle : c.threads .source = []) (accepted : accept (.source signal) c.shared = some (s,prog)) :
    Tracks slot (c.put .source s prog) := by
  obtain ⟨⟨unset,all⟩,rfl,rfl⟩ :
      (c.shared.source = none ∧ ∀ item ∈ c.shared.items, item.1 ∈ c.shared.finished.map Prod.fst) ∧
        { c.shared with source := some signal } = s ∧ sourceHandler signal = prog := by
    simp only [accept] at accepted
    split at accepted
    next may =>
      cases accepted
      exact ⟨⟨Option.isNone_iff_eq_none.mp may.1,may.2⟩,rfl,rfl⟩
    next => cases accepted
  have seen : c.shared.Seen [] [] := by
    have source := tracks.source
    rw [idle] at source
    cases source with
    | running _ seen => exact seen
    | completed _ _ set_ => simp [unset] at set_
    | misvisited set_ => simp [unset] at set_
    | forwarded _ _ set_ => simp [unset] at set_
  refine tracks.put_source rfl rfl rfl rfl rfl ?_
  cases signal with
  | value v => exact .loading rfl all seen
  | error e => exact .forwarding (.error e) (.error e) rfl all (by simp) rfl seen
  | stopped => exact .forwarding .stopped .stopped rfl all (by simp) rfl seen

/-- Every step takes the result through its phases. -/
theorem tracks_reach (reach : Reach machine Any initial c) : ∃ slot, Tracks slot c :=
  reach.invariant (I := fun c => ∃ slot, Tracks slot c) ⟨.empty,tracks_initial⟩
    (fun c p i rest s new ⟨slot,tracks⟩ _ left ran => by
      cases p with
      | item x => exact tracks.run_item left ran
      | source => exact ⟨slot,tracks.run_source left ran⟩)
    (fun c e s prog ⟨slot,tracks⟩ _ idle accepted => by
      cases e with
      | item x r => exact ⟨slot,tracks.call_item idle accepted⟩
      | source signal => exact ⟨slot,tracks.call_source idle accepted⟩)

end

/-! ### How runs end -/

section
variable {slot : Slot Value Error} {c : Config Party (Operation Value Error) (Instr Value Error)}

/-- An item or a source with something left never waits. -/
theorem Tracks.progress (tracks : Tracks slot c) {p : Party} (left : c.threads p ≠ []) :
    machine.next c (.run p) ≠ [] := by
  cases p with
  | item x =>
    have at_x := tracks.left x
    generalize threads : c.threads (.item x) = prog at at_x left
    cases at_x with
    | running => exact absurd rfl left
    | racing => by_cases free : c.shared.emplaced = 0 <;> simp [Machine.next,threads,machine,exec,free]
    | constructing => simp [Machine.next,threads,machine,exec]
    | storing => simp [Machine.next,threads,machine,exec]
    | finishing => simp [Machine.next,threads,machine,exec]
    | finished => exact absurd rfl left
  | source =>
    have source := tracks.source
    generalize threads : c.threads .source = prog at source left
    cases source with
    | running => exact absurd rfl left
    | loading => by_cases free : c.shared.emplaced = 0 <;> simp [Machine.next,threads,machine,exec,free]
    | visiting => cases held : c.shared.result <;> simp [Machine.next,threads,machine,exec,held]
    | completing => simp [Machine.next,threads,machine,exec]
    | completed => exact absurd rfl left
    | stopping => simp [Machine.next,threads,machine,exec]
    | misvisiting => cases held : c.shared.result <;> simp [Machine.next,threads,machine,exec,held]
    | misvisited => exact absurd rfl left
    | forwarding => simp [Machine.next,threads,machine,exec]
    | forwarded => exact absurd rfl left

/-- The steps that an instruction leads to. -/
def Instr.weight : Instr Value Error → Nat
  | .compareExchange _ => 3
  | .construct _ => 1
  | .storeEmplaced => 1
  | .completeItem _ => 1
  | .loadEmplaced => 4
  | .visitResult => 2
  | .complete _ => 1

/-- The steps of the items and of the source that have completed. -/
def Operation.budget (s : Operation Value Error) : Nat :=
  5 * s.items.length + if s.source.isSome then 5 else 0

/-- An instruction leads to more steps than what it leaves to do. -/
theorem exec_lowers {p : Party} {i : Instr Value Error} {s s' : Operation Value Error} {new : List (Instr Value Error)}
    (ran : (s',new) ∈ exec p i s) : (new.map Instr.weight).sum < i.weight ∧ s'.budget = s.budget := by
  unfold exec at ran
  split at ran
  case h_1 | h_5 | h_6 =>
    split at ran
    · obtain ⟨rfl,rfl⟩ : s' = _ ∧ new = _ := by simpa using ran
      exact ⟨by simp [Instr.weight],rfl⟩
    · obtain ⟨rfl,rfl⟩ : s' = _ ∧ new = _ := by simpa using ran
      exact ⟨by simp [Instr.weight],rfl⟩
  case h_8 => simp at ran
  all_goals
    obtain ⟨rfl,rfl⟩ : s' = _ ∧ new = _ := by simpa using ran
    exact ⟨by simp [Instr.weight],rfl⟩

/-- A run takes at most five steps for each item and five for the source. -/
theorem steps_le {steps : List (Config Party (Operation Value Error) (Instr Value Error) ×
      Label Party (Event Value Error))}
    (run : Run machine Any initial steps c) : steps.length ≤ c.shared.budget := by
  refine run.length_le Operation.budget Instr.weight (fun _ => rfl) ?_ ?_
  · intro p i s s' new ran
    obtain ⟨less,same⟩ := exec_lowers ran
    omega
  · intro e s s' prog accepted
    cases e with
    | item x r =>
      simp only [machine,accept] at accepted
      split at accepted
      next =>
        cases accepted
        simp [Instr.weight,Operation.budget,itemHandler]
        omega
      next => cases accepted
    | source signal =>
      simp only [machine,accept] at accepted
      split at accepted
      next may =>
        cases accepted
        cases signal <;>
          simp [Instr.weight,Operation.budget,sourceHandler,Option.isNone_iff_eq_none.mp may.1] <;> omega
      next => cases accepted

/-- The source completes with something else than `set_value`, or there is an item. -/
def Operation.Nonempty (s : Operation Value Error) : Prop := s.source = some (.value ()) → s.items ≠ []

/-- While there is an item, the receiver is completed at most once and every visit
    finds a result. -/
theorem Tracks.at_most_once (tracks : Tracks slot c) (nonempty : c.shared.Nonempty) :
    c.shared.completions.length ≤ 1 ∧ none ∉ c.shared.visits := by
  have source := tracks.source
  generalize c.threads .source = prog at source
  cases source with
  | running _ seen => simp [seen.1,seen.2]
  | loading _ _ seen => simp [seen.1,seen.2]
  | visiting _ _ _ _ _ seen => simp [seen.1,seen.2]
  | completing _ _ _ _ _ seen => simp [seen.1,seen.2]
  | completed _ _ _ _ _ seen => simp [seen.1,seen.2]
  | stopping set_ empty => exact absurd empty (nonempty set_)
  | misvisiting set_ empty => exact absurd empty (nonempty set_)
  | misvisited set_ empty => exact absurd empty (nonempty set_)
  | forwarding _ _ _ _ _ _ seen => simp [seen.1,seen.2]
  | forwarded _ _ _ _ _ _ seen => simp [seen.1,seen.2]

/-- What the receiver got when the source is done. -/
theorem Tracks.outcome (tracks : Tracks slot c) (ended : Ended c) :
    c.shared.CompletedOnce ↔ c.shared.Nonempty := by
  obtain ⟨done,idle⟩ := ended
  have source := tracks.source
  rw [idle] at source
  cases source with
  | running unset => simp [unset] at done
  | completed x r set_ all here seen =>
    have known : (x,r) ∈ c.shared.items := tracks.known _ (by simp [here,Slot.winner])
    have winners : c.shared.winners = [(x,r)] := by simp [tracks.winners,here,Slot.winner]
    have nonempty := List.ne_nil_of_mem known
    refine ⟨fun _ _ => nonempty,fun _ => ⟨fun _ => ⟨fun empty => absurd empty nonempty,fun _ => ?_⟩,?_,?_,?_⟩⟩
    · exact ⟨x,r,winners,known,seen.2⟩
    · simp [set_]
    · simp [set_]
    · simp [seen.1]
  | misvisited set_ empty seen =>
    refine ⟨fun once => absurd once.constructed (by simp [seen.1]),fun nonempty => absurd empty (nonempty set_)⟩
  | forwarded signal r set_ all other handled seen =>
    refine ⟨fun _ valued => absurd (Option.some.inj (set_.symm.trans valued)) other,fun _ => ⟨?_,?_,?_,?_⟩⟩
    · intro valued
      exact absurd (Option.some.inj (set_.symm.trans valued)) other
    · intro e failed
      obtain rfl := Option.some.inj (set_.symm.trans failed)
      obtain rfl : Completion.error e = r := by simpa [sourceHandler] using handled
      exact seen.2
    · intro stopped
      obtain rfl := Option.some.inj (set_.symm.trans stopped)
      obtain rfl : Completion.stopped = r := by simpa [sourceHandler] using handled
      exact seen.2
    · simp [seen.1]

/-- The receivers of all items get `set_stopped`. -/
theorem items_stopped (reach : Reach machine Any initial c) : ∀ item ∈ c.shared.finished, item.2 = .stopped := by
  obtain ⟨slot,tracks⟩ := tracks_reach reach
  exact tracks.stopped

end

/-- No run of `first` goes on for ever or gets stuck, whatever the order of its steps,
    and its receiver is completed once and as it should be if and only if the source
    completes with something else than `set_value` or has an item. -/
theorem first_completes_once_iff {Value Error : Type}
    (steps : List (Config Party (Operation Value Error) (Instr Value Error) × Label Party (Event Value Error)))
    (c : Config Party (Operation Value Error) (Instr Value Error)) (run : Run machine Any initial steps c) :
    steps.length ≤ 5 * c.shared.items.length + 5 ∧
    (∀ p, c.threads p ≠ [] → machine.next c (.run p) ≠ []) ∧
    (c.shared.Nonempty → c.shared.completions.length ≤ 1 ∧ none ∉ c.shared.visits) ∧
    (Ended c → (c.shared.CompletedOnce ↔ c.shared.Nonempty)) := by
  obtain ⟨slot,tracks⟩ := tracks_reach run.reach
  refine ⟨?_,fun p => tracks.progress,tracks.at_most_once,tracks.outcome⟩
  have bounded := steps_le run
  simp only [Operation.budget] at bounded
  split at bounded <;> omega

/-- Two items race; the second takes the result and is overtaken before it constructs it. -/
theorem first_completes_once_two :
    ∃ c : Config Party (Operation Nat Nat) (Instr Nat Nat), c.shared.CompletedOnce ∧
      c.shared.completions = [.error 7] := by
  obtain ⟨steps,c,run,computed⟩ := exists_run_of_follow machine Any
    (initial : Config Party (Operation Nat Nat) (Instr Nat Nat)) (fun _ _ => true) (fun _ _ _ => trivial)
    [(.call (.item 0 (.value 1)),0),(.call (.item 1 (.error 7)),0),(.run (.item 1),0),(.run (.item 0),0),
      (.run (.item 0),0),(.run (.item 1),0),(.run (.item 1),0),(.run (.item 1),0),(.call (.source (.value ())),0),
      (.run .source,0),(.run .source,0),(.run .source,0)]
    (fun _ c => c.shared.source = some (.value ()) ∧ c.shared.items = [(0,.value 1),(1,.error 7)] ∧
      (c.threads .source).isEmpty ∧ c.shared.completions = [.error 7]) (by decide)
  obtain ⟨set_,items,idle,sent⟩ := of_decide_eq_true computed
  have ended : Ended c := ⟨by simp [set_],List.isEmpty_iff.mp idle⟩
  exact ⟨c,((first_completes_once_iff steps c run).2.2.2 ended).mpr (fun _ => by simp [items]),sent⟩

/-- A sequence without items that completes with `set_value`: `first` sends
    `set_stopped` and visits a result that was never constructed. -/
theorem empty_sequence_visits_nothing :
    ¬ ∀ steps, ∀ c : Config Party (Operation Nat Nat) (Instr Nat Nat), Run machine Any initial steps c → Ended c →
      c.shared.CompletedOnce := by
  intro claimed
  obtain ⟨steps,c,run,computed⟩ := exists_run_of_follow machine Any
    (initial : Config Party (Operation Nat Nat) (Instr Nat Nat)) (fun _ _ => true) (fun _ _ _ => trivial)
    [(.call (.source (.value ())),0),(.run .source,0),(.run .source,0),(.run .source,0)]
    (fun _ c => c.shared.source = some (.value ()) ∧ (c.threads .source).isEmpty ∧ c.shared.visits = [none]) (by decide)
  obtain ⟨set_,idle,visits⟩ := of_decide_eq_true computed
  have once := claimed steps c run ⟨by simp [set_],List.isEmpty_iff.mp idle⟩
  exact once.constructed (by simp [visits])

end SendersIo.First
