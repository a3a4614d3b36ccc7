import SendersIo.Interleaving
import SendersIo.ManualLifetime
import SendersIo.Signals

/-!
`last` over a sequence of items. Every item constructs its completion in the result slot,
over that of the items before it; items that run concurrently do so under a mutex. When
the sequence completes with `set_value`, the receiver moves the result out of the slot,
destroys it and completes like it, without a look at whether there is one.
-/
namespace SendersIo.Last
open SendersIo.Interleaving SendersIo.ManualLifetime SendersIo.Signals
set_option linter.unusedSimpArgs false

variable {Value Error : Type}

/-- The parties: the items, and the receiver of the source. -/
inductive Party where
  | item (x : Nat)
  | source
  deriving DecidableEq

/-- `last_::result_type` with the party that has locked `mutex_`, and what happened so far:
    how every item completed, the items that stored their completions in the slot, the
    completions of the item receivers, how the source completed, and the completions of the
    receiver of `last`. -/
structure Operation (Value Error : Type) where
  slot : Storage (Completion Value Error)
  mutex : Option Party
  items : List (Nat × Completion Value Error)
  stored : List (Nat × Completion Value Error)
  finished : List (Nat × Signal Error)
  source : Option (Signal Error)
  completions : List (Completion Value Error)

/-- The atomic steps of `result_type::emplace` and `result_type::visit_result` and the
    completions of the receivers. -/
inductive Instr (Value Error : Type) where
  | lock
  | construct (r : Completion Value Error)
  | unlock
  | completeItem (signal : Signal Error)
  | moveResult
  | destroy
  | complete (r : Completion Value Error)

inductive Event (Value Error : Type) where
  | item (x : Nat) (r : Completion Value Error)
  | source (signal : Signal Error)

/-- What follows under the lock: both specialisations do the same, but only the one that
    is not in lock step has a mutex. -/
def unlocking (lockStep : Bool) (rest : List (Instr Value Error)) : List (Instr Value Error) :=
  if lockStep then rest else .unlock :: rest

def locking (lockStep : Bool) (rest : List (Instr Value Error)) : List (Instr Value Error) :=
  if lockStep then rest else .lock :: rest

/-- The completion of the receiver of an item. -/
def itemSignal : Completion Value Error → Signal Error
  | .value _ => .value ()
  | .error _ => .stopped
  | .stopped => .stopped

/-- `last_::item_receiver`: all three completions are emplaced with their tag. -/
def itemHandler (lockStep : Bool) (r : Completion Value Error) : List (Instr Value Error) :=
  locking lockStep (.construct r :: unlocking lockStep [.completeItem (itemSignal r)])

/-- `last_::receiver`. -/
def sourceHandler (lockStep : Bool) : Signal Error → List (Instr Value Error)
  | .value _ => locking lockStep [.moveResult]
  | .error e => [.complete (.error e)]
  | .stopped => [.complete .stopped]

def exec (lockStep : Bool) : Party → Instr Value Error → Operation Value Error →
    List (Operation Value Error × List (Instr Value Error))
  | p,.lock,s => if s.mutex = none then [({ s with mutex := some p },[])] else []
  | _,.unlock,s => [({ s with mutex := none },[])]
  | .item x,.construct r,s => [({ s with slot := s.slot.construct r, stored := s.stored ++ [(x,r)] },[])]
  | .item x,.completeItem signal,s => [({ s with finished := s.finished ++ [(x,signal)] },[])]
  | .source,.moveResult,s =>
    match s.slot.value with
    | some r => [({ s with slot := s.slot.read },unlocking lockStep [.destroy,.complete r])]
    -- what follows the move of a result that was never constructed is undefined
    | none => [({ s with slot := s.slot.read },[])]
  | .source,.destroy,s => [({ s with slot := s.slot.destroy },[])]
  | .source,.complete r,s => [({ s with completions := s.completions ++ [r] },[])]
  | _,_,_ => []

/-- All items that completed have also completed their receivers. -/
def Operation.AllFinished (s : Operation Value Error) : Prop :=
  ∀ item ∈ s.items, item.1 ∈ s.finished.map Prod.fst

instance (s : Operation Value Error) : Decidable s.AllFinished := by unfold Operation.AllFinished; infer_instance

/-- An item completes once, in lock step after the receivers of the items before it; the
    source completes once, after the receivers of all its items. -/
def accept (lockStep : Bool) : Event Value Error → Operation Value Error →
    Option (Operation Value Error × List (Instr Value Error))
  | .item x r,s =>
    if s.source.isNone ∧ x ∉ s.items.map Prod.fst ∧ (lockStep = true → s.AllFinished) then
      some ({ s with items := s.items ++ [(x,r)] },itemHandler lockStep r)
    else none
  | .source signal,s =>
    if s.source.isNone ∧ s.AllFinished then
      some ({ s with source := some signal },sourceHandler lockStep signal)
    else none

def machine (lockStep : Bool) : Machine Party (Operation Value Error) (Instr Value Error) (Event Value Error) where
  exec := exec lockStep
  accept := accept lockStep
  party
    | .item x _ => .item x
    | .source _ => .source

def initial : Config Party (Operation Value Error) (Instr Value Error) where
  shared := ⟨.empty,none,[],[],[],none,[]⟩
  threads _ := []

/-- The source has completed and its receiver is done. -/
def Ended (c : Config Party (Operation Value Error) (Instr Value Error)) : Prop :=
  c.shared.source.isSome ∧ c.threads .source = []

/-- What `last` is to do when its source completes with `set_value`: its receiver is completed
    once, like the item that stored its completion last, or with `set_stopped` if none did, and
    the slot was only read and destroyed while it held a result. -/
structure Operation.LastItem (s : Operation Value Error) : Prop where
  nothing : s.stored = [] → s.completions = [.stopped]
  last : ∀ x r, s.stored.getLast? = some (x,r) → (x,r) ∈ s.items ∧ s.completions = [r]
  constructed : s.slot.misused = 0

/-! ### What an item and the source have left -/

/-- What an item has left. -/
inductive ItemLeft (lockStep : Bool) (s : Operation Value Error) (x : Nat) : List (Instr Value Error) → Prop
  | running : x ∉ s.items.map Prod.fst → x ∉ s.finished.map Prod.fst → ItemLeft lockStep s x []
  | locking (r : Completion Value Error) : (x,r) ∈ s.items → x ∉ s.stored.map Prod.fst →
      x ∉ s.finished.map Prod.fst → lockStep = false → s.mutex ≠ some (.item x) →
      ItemLeft lockStep s x (itemHandler lockStep r)
  | constructing (r : Completion Value Error) : (x,r) ∈ s.items → x ∉ s.stored.map Prod.fst →
      x ∉ s.finished.map Prod.fst → (s.mutex = some (.item x) ↔ lockStep = false) →
      ItemLeft lockStep s x (.construct r :: unlocking lockStep [.completeItem (itemSignal r)])
  | unlocking (r : Completion Value Error) : (x,r) ∈ s.stored → x ∉ s.finished.map Prod.fst →
      s.mutex = some (.item x) → ItemLeft lockStep s x [.unlock,.completeItem (itemSignal r)]
  | finishing (r : Completion Value Error) : (x,r) ∈ s.stored → x ∉ s.finished.map Prod.fst →
      s.mutex ≠ some (.item x) → ItemLeft lockStep s x [.completeItem (itemSignal r)]
  | finished (r : Completion Value Error) : (x,r) ∈ s.stored → x ∈ s.finished.map Prod.fst → ItemLeft lockStep s x []

/-- The slot holds the last completion that was stored, those before it are lost, and it was
    not read while it held none. -/
structure Operation.Filled (s : Operation Value Error) : Prop where
  value : s.slot.value = s.stored.getLast?.map Prod.snd
  lost : s.slot.lost.length = s.stored.length - 1
  misused : s.slot.misused = 0

/-- What the receiver of the source has left. -/
inductive SourceLeft (lockStep : Bool) (s : Operation Value Error) : List (Instr Value Error) → Prop
  | running : s.source = none → s.Filled → s.completions = [] → s.mutex ≠ some .source → SourceLeft lockStep s []
  | locking : s.source = some (.value ()) → s.AllFinished → s.Filled → s.completions = [] → lockStep = false →
      s.mutex ≠ some .source → SourceLeft lockStep s [.lock,.moveResult]
  | moving : s.source = some (.value ()) → s.AllFinished → s.Filled → s.completions = [] →
      (lockStep = false → s.mutex = some .source) → SourceLeft lockStep s [.moveResult]
  | unlocking (r : Completion Value Error) : s.source = some (.value ()) → s.AllFinished → s.Filled →
      s.completions = [] → s.slot.value = some r → s.mutex = some .source →
      SourceLeft lockStep s [.unlock,.destroy,.complete r]
  | destroying (r : Completion Value Error) : s.source = some (.value ()) → s.AllFinished → s.Filled →
      s.completions = [] → s.slot.value = some r → SourceLeft lockStep s [.destroy,.complete r]
  | completing (x : Nat) (r : Completion Value Error) : s.source = some (.value ()) → s.AllFinished →
      s.stored.getLast? = some (x,r) → s.slot.object = none → s.slot.lost.length = s.stored.length - 1 →
      s.slot.misused = 0 → s.completions = [] → SourceLeft lockStep s [.complete r]
  | completed (x : Nat) (r : Completion Value Error) : s.source = some (.value ()) → s.AllFinished →
      s.stored.getLast? = some (x,r) → s.slot.object = none → s.slot.lost.length = s.stored.length - 1 →
      s.slot.misused = 0 → s.completions = [r] → SourceLeft lockStep s []
  | misread : s.source = some (.value ()) → s.AllFinished → s.stored = [] → s.slot.object = none → s.slot.lost = [] →
      s.slot.misused = 1 → s.completions = [] → SourceLeft lockStep s []
  | forwarding (signal : Signal Error) (r : Completion Value Error) : s.source = some signal → s.AllFinished →
      signal ≠ .value () → s.Filled → s.completions = [] → SourceLeft lockStep s [.complete r]
  | forwarded (signal : Signal Error) (r : Completion Value Error) : s.source = some signal → s.AllFinished →
      signal ≠ .value () → s.Filled → s.completions = [r] → SourceLeft lockStep s []

/-- A configuration of a run. -/
structure Tracks (lockStep : Bool) (c : Config Party (Operation Value Error) (Instr Value Error)) : Prop where
  items : (c.shared.items.map Prod.fst).Nodup
  stored : (c.shared.stored.map Prod.fst).Nodup
  known : ∀ item ∈ c.shared.stored, item ∈ c.shared.items
  held : ∀ x, c.shared.mutex = some (.item x) → x ∈ c.shared.items.map Prod.fst ∧ x ∉ c.shared.finished.map Prod.fst
  left : ∀ x, ItemLeft lockStep c.shared x (c.threads (.item x))
  source : SourceLeft lockStep c.shared (c.threads .source)

section
variable {lockStep : Bool} {s s' : Operation Value Error} {x y : Nat} {prog rest new : List (Instr Value Error)}
  {i : Instr Value Error} {c : Config Party (Operation Value Error) (Instr Value Error)}

/-- What an item has left depends on its own completion and on whether it has the lock. -/
theorem ItemLeft.congr (left : ItemLeft lockStep s y prog) (items : ∀ r, (y,r) ∈ s'.items ↔ (y,r) ∈ s.items)
    (stored : ∀ r, (y,r) ∈ s'.stored ↔ (y,r) ∈ s.stored)
    (finished : y ∈ s'.finished.map Prod.fst ↔ y ∈ s.finished.map Prod.fst)
    (mutex : s'.mutex = some (.item y) ↔ s.mutex = some (.item y)) : ItemLeft lockStep s' y prog := by
  have names : y ∈ s'.items.map Prod.fst ↔ y ∈ s.items.map Prod.fst := by simp [items]
  have places : y ∈ s'.stored.map Prod.fst ↔ y ∈ s.stored.map Prod.fst := by simp [stored]
  cases left with
  | running absent unfinished => exact .running (mt names.mp absent) (mt finished.mp unfinished)
  | locking r member unstored unfinished concurrent free =>
    exact .locking r ((items r).mpr member) (mt places.mp unstored) (mt finished.mp unfinished) concurrent
      (mutex.not.mpr free)
  | constructing r member unstored unfinished locked =>
    exact .constructing r ((items r).mpr member) (mt places.mp unstored) (mt finished.mp unfinished)
      (mutex.trans locked)
  | unlocking r there unfinished locked =>
    exact .unlocking r ((stored r).mpr there) (mt finished.mp unfinished) (mutex.mpr locked)
  | finishing r there unfinished free =>
    exact .finishing r ((stored r).mpr there) (mt finished.mp unfinished) (mt mutex.mp free)
  | finished r there done => exact .finished r ((stored r).mpr there) (finished.mpr done)

theorem Operation.Filled.congr (filled : s.Filled) (slot : s'.slot = s.slot) (stored : s'.stored = s.stored) : s'.Filled where
  value := by simpa [slot,stored] using filled.value
  lost := by simpa [slot,stored] using filled.lost
  misused := by simpa [slot] using filled.misused

theorem itemHandler_ne_nil (r : Completion Value Error) : itemHandler lockStep r ≠ [] := by
  cases lockStep <;> simp [itemHandler,locking]

/-- An item with something left has completed and its receiver has not. -/
theorem Tracks.busy (tracks : Tracks lockStep c) (left : c.threads (.item x) = i :: rest) :
    (∃ r, (x,r) ∈ c.shared.items) ∧ x ∉ c.shared.finished.map Prod.fst := by
  have at_x := tracks.left x
  generalize c.threads (.item x) = prog at at_x left
  cases at_x with
  | running => cases left
  | locking r member _ unfinished => exact ⟨⟨r,member⟩,unfinished⟩
  | constructing r member _ unfinished => exact ⟨⟨r,member⟩,unfinished⟩
  | unlocking r there unfinished => exact ⟨⟨r,tracks.known _ there⟩,unfinished⟩
  | finishing r there unfinished => exact ⟨⟨r,tracks.known _ there⟩,unfinished⟩
  | finished => cases left

/-- While the receiver of an item is not completed, the source has not completed. -/
theorem SourceLeft.open (source : SourceLeft lockStep s prog) {r : Completion Value Error} (member : (x,r) ∈ s.items)
    (unfinished : x ∉ s.finished.map Prod.fst) : s.source = none ∧ s.Filled ∧ s.completions = [] ∧ s.mutex ≠ some .source ∧ prog = [] := by
  cases source with
  | running unset filled unsent free => exact ⟨unset,filled,unsent,free,rfl⟩
  | locking _ all | moving _ all | unlocking _ _ all | destroying _ _ all | completing _ _ _ all | completed _ _ _ all
  | misread _ all | forwarding _ _ _ all | forwarded _ _ _ all => exact absurd (all _ member) unfinished

theorem tracks_initial : Tracks lockStep (initial : Config Party (Operation Value Error) (Instr Value Error)) where
  items := by simp [initial]
  stored := by simp [initial]
  known := by simp [initial]
  held := by simp [initial]
  left x := .running (by simp [initial]) (by simp [initial])
  source := .running rfl ⟨rfl,rfl,rfl⟩ rfl (by simp [initial])

/-! ### The steps -/

/-- A step of an item that leaves the source and what the other items stored alone. -/
theorem Tracks.put_item (tracks : Tracks lockStep c) (left : c.threads (.item x) = i :: rest)
    (items : s.items = c.shared.items) (source : s.source = c.shared.source)
    (completions : s.completions = c.shared.completions)
    (stored : (s.stored.map Prod.fst).Nodup ∧ (∀ item ∈ s.stored, item ∈ c.shared.items) ∧
      ∀ y r, y ≠ x → ((y,r) ∈ s.stored ↔ (y,r) ∈ c.shared.stored))
    (finished : ∀ y, y ≠ x → (y ∈ s.finished.map Prod.fst ↔ y ∈ c.shared.finished.map Prod.fst))
    (mutex : (∀ p, p ≠ .item x → (s.mutex = some p ↔ c.shared.mutex = some p)) ∧
      (s.mutex = some (.item x) → x ∉ s.finished.map Prod.fst))
    (filled : c.shared.Filled → s.Filled) (mine : ItemLeft lockStep s x prog) :
    Tracks lockStep (c.put (.item x) s prog) := by
  obtain ⟨distinct,known,others⟩ := stored
  obtain ⟨⟨r,member⟩,unfinished⟩ := tracks.busy left
  refine ⟨by simpa [items] using tracks.items,by simpa using distinct,by simpa [items] using known,fun y held => ?_,
    fun y => ?_,?_⟩
  · by_cases same : y = x
    · subst same
      exact ⟨by simpa [items] using ⟨r,member⟩,mutex.2 held⟩
    · have before := tracks.held y ((mutex.1 (.item y) (by simpa using same)).mp held)
      exact ⟨by simpa [items] using before.1,(finished y same).not.mpr before.2⟩
  · by_cases same : y = x
    · subst same
      simpa using mine
    · rw [put_threads_ne c (by simpa using same)]
      exact (tracks.left y).congr (by simp [items]) (fun r => others y r same) (finished y same)
        (mutex.1 (.item y) (by simpa using same))
  · obtain ⟨unset,before,unsent,free,idle⟩ := tracks.source.open member unfinished
    rw [put_threads_ne c (by simp),idle]
    exact .running (source.trans unset) (filled before) (completions.trans unsent) ((mutex.1 .source (by simp)).not.mpr free)

/-- The completion that is stored last is the one that the slot holds. -/
theorem Operation.Filled.construct (filled : s.Filled) (x : Nat) (r : Completion Value Error) :
    Operation.Filled { s with slot := s.slot.construct r, stored := s.stored ++ [(x,r)] } where
  value := by simp
  lost := by
    have value := filled.value
    have lost := filled.lost
    cases there : s.slot.object with
    | none =>
      have nothing : s.stored = [] := by simpa [Storage.value,there] using value
      simp [Storage.construct,there,lost,nothing]
    | some object =>
      have some_ : s.stored ≠ [] := by
        rintro nothing
        simp [Storage.value,there,nothing] at value
      have positive := List.length_pos_iff.mpr some_
      simp [Storage.construct,there,lost]
      omega
  misused := filled.misused

/-- An item that may construct its completion in the slot does so. -/
theorem Tracks.construct (tracks : Tracks lockStep c) {r : Completion Value Error}
    (left : c.threads (.item x) = .construct r :: unlocking lockStep [.completeItem (itemSignal r)])
    (member : (x,r) ∈ c.shared.items) (unstored : x ∉ c.shared.stored.map Prod.fst)
    (unfinished : x ∉ c.shared.finished.map Prod.fst) (locked : c.shared.mutex = some (.item x) ↔ lockStep = false) :
    Tracks lockStep (c.put (.item x)
      { c.shared with slot := c.shared.slot.construct r, stored := c.shared.stored ++ [(x,r)] }
      (unlocking lockStep [.completeItem (itemSignal r)])) := by
  refine tracks.put_item left rfl rfl rfl ⟨?_,?_,?_⟩ (fun _ _ => .rfl) ⟨fun _ _ => .rfl,fun _ => unfinished⟩
    (fun filled => filled.construct x r) ?_
  · simpa [List.nodup_append] using ⟨tracks.stored,fun y r stored other => unstored (by simpa [← other] using ⟨r,stored⟩)⟩
  · intro item there
    rcases List.mem_append.mp there with old | new
    · exact tracks.known item old
    · rw [List.mem_singleton.mp new]
      exact member
  · intro y r other
    simp [other]
  · cases lockStep with
    | false => exact .unlocking r (by simp) unfinished (locked.mpr rfl)
    | true => exact .finishing r (by simp) unfinished (by simpa using locked)

/-- What an item has left says which step it takes. -/
theorem Tracks.run_item (tracks : Tracks lockStep c) (left : c.threads (.item x) = i :: rest)
    (ran : (s,new) ∈ exec lockStep (.item x) i c.shared) : Tracks lockStep (c.put (.item x) s (new ++ rest)) := by
  have at_x := tracks.left x
  generalize threads : c.threads (.item x) = prog at at_x
  rw [threads] at left
  cases at_x with
  | running => cases left
  | locking r member unstored unfinished concurrent =>
    subst concurrent
    obtain ⟨rfl,rfl⟩ := List.cons.inj left
    obtain ⟨free,rfl,rfl⟩ : c.shared.mutex = none ∧ s = { c.shared with mutex := some (.item x) } ∧ new = [] := by
      simpa [exec] using ran
    exact tracks.put_item threads rfl rfl rfl ⟨tracks.stored,tracks.known,fun _ _ _ => .rfl⟩ (fun _ _ => .rfl)
      ⟨fun p other => by simp [free,other.symm],fun _ => unfinished⟩
      (fun filled => filled.congr rfl rfl) (.constructing r member unstored unfinished (by simp))
  | constructing r member unstored unfinished locked =>
    obtain ⟨rfl,rfl⟩ := List.cons.inj left
    obtain ⟨rfl,rfl⟩ := Prod.mk.inj (List.mem_singleton.mp ran)
    exact tracks.construct threads member unstored unfinished locked
  | unlocking r there unfinished locked =>
    obtain ⟨rfl,rfl⟩ := List.cons.inj left
    obtain ⟨rfl,rfl⟩ := Prod.mk.inj (List.mem_singleton.mp ran)
    exact tracks.put_item threads rfl rfl rfl ⟨tracks.stored,tracks.known,fun _ _ _ => .rfl⟩ (fun _ _ => .rfl)
      ⟨fun p other => by simp [locked,other.symm],fun _ => unfinished⟩
      (fun filled => filled.congr rfl rfl) (.finishing r there unfinished (by simp))
  | finishing r there unfinished free =>
    obtain ⟨rfl,rfl⟩ := List.cons.inj left
    obtain ⟨rfl,rfl⟩ := Prod.mk.inj (List.mem_singleton.mp ran)
    exact tracks.put_item threads rfl rfl rfl ⟨tracks.stored,tracks.known,fun _ _ _ => .rfl⟩
      (fun y other => by simp [other]) ⟨fun _ _ => .rfl,fun held => absurd held free⟩ (fun filled => filled.congr rfl rfl)
      (.finished r there (by simp))
  | finished => cases left

/-- A step of the source leaves the items and what they stored alone. -/
theorem Tracks.put_source (tracks : Tracks lockStep c) (items : s.items = c.shared.items)
    (stored : s.stored = c.shared.stored) (finished : s.finished = c.shared.finished)
    (mutex : ∀ y, s.mutex = some (.item y) ↔ c.shared.mutex = some (.item y))
    (source : SourceLeft lockStep s prog) : Tracks lockStep (c.put .source s prog) where
  items := by simpa [items] using tracks.items
  stored := by simpa [stored] using tracks.stored
  known := by simpa [items,stored] using tracks.known
  held y held := by simpa [items,finished] using tracks.held y ((mutex y).mp held)
  left y := by
    rw [put_threads_ne c (by simp)]
    exact (tracks.left y).congr (by simp [items]) (by simp [stored]) (by simp [finished]) (mutex y)
  source := by simpa using source

end
section
variable {lockStep : Bool} {s : Operation Value Error} {x : Nat} {prog rest new : List (Instr Value Error)}
  {i : Instr Value Error} {c : Config Party (Operation Value Error) (Instr Value Error)}

/-- The receiver of the source moves the result out of the slot, or finds none. -/
theorem Tracks.moveResult (tracks : Tracks lockStep c) (left : c.threads .source = .moveResult :: rest)
    (ran : (s,new) ∈ exec lockStep .source .moveResult c.shared) :
    Tracks lockStep (c.put .source s (new ++ rest)) := by
  have source := tracks.source
  rw [left] at source
  cases source with
  | moving set_ all filled unsent locked =>
    cases value : c.shared.slot.value with
    | some r =>
      obtain ⟨rfl,rfl⟩ : s = { c.shared with slot := c.shared.slot.read } ∧
          new = unlocking lockStep [.destroy,.complete r] := by
        simpa [exec,value] using ran
      have there := Storage.object_of_value value
      have after : Operation.Filled { c.shared with slot := c.shared.slot.read } :=
        ⟨filled.value,filled.lost,by simp [Storage.read,there,filled.misused]⟩
      cases lockStep with
      | false =>
        exact tracks.put_source rfl rfl rfl (fun _ => .rfl)
          (.unlocking r set_ all after unsent value (locked rfl))
      | true => exact tracks.put_source rfl rfl rfl (fun _ => .rfl) (.destroying r set_ all after unsent value)
    | none =>
      obtain ⟨rfl,rfl⟩ : s = { c.shared with slot := c.shared.slot.read } ∧ new = [] := by
        simpa [exec,value] using ran
      have nothing : c.shared.stored = [] := by simpa [value] using filled.value.symm
      have object : c.shared.slot.object = none := by simpa [Storage.value] using value
      have lost : c.shared.slot.lost = [] := List.eq_nil_of_length_eq_zero (by simp [filled.lost,nothing])
      exact tracks.put_source rfl rfl rfl (fun _ => .rfl)
        (.misread set_ all nothing object lost (by simp [Storage.read,object,filled.misused]) unsent)

/-- The receiver of the source destroys the result. -/
theorem Tracks.destroy (tracks : Tracks lockStep c) (left : c.threads .source = .destroy :: rest)
    (ran : (s,new) ∈ exec lockStep .source .destroy c.shared) : Tracks lockStep (c.put .source s (new ++ rest)) := by
  obtain ⟨rfl,rfl⟩ := Prod.mk.inj (List.mem_singleton.mp ran)
  have source := tracks.source
  rw [left] at source
  cases source with
  | destroying r set_ all filled unsent value =>
    obtain ⟨⟨x,r'⟩,last,same⟩ := Option.map_eq_some_iff.mp (filled.value.symm.trans value)
    obtain rfl : r' = r := same
    have there := Storage.object_of_value value
    exact tracks.put_source rfl rfl rfl (fun _ => .rfl) (.completing x r' set_ all last rfl filled.lost
      (by simp [Storage.destroy,there,filled.misused]) unsent)

/-- The receiver of the source completes the receiver of `last`. -/
theorem Tracks.complete (tracks : Tracks lockStep c) {r : Completion Value Error}
    (left : c.threads .source = .complete r :: rest)
    (ran : (s,new) ∈ exec lockStep .source (.complete r) c.shared) : Tracks lockStep (c.put .source s (new ++ rest)) := by
  obtain ⟨rfl,rfl⟩ := Prod.mk.inj (List.mem_singleton.mp ran)
  have source := tracks.source
  rw [left] at source
  refine tracks.put_source rfl rfl rfl (fun _ => .rfl) ?_
  cases source with
  | completing x _ set_ all last object lost misused unsent =>
    exact .completed x r set_ all last object lost misused (by simp [unsent])
  | forwarding signal _ set_ all other filled unsent =>
    exact .forwarded signal r set_ all other (filled.congr rfl rfl) (by simp [unsent])

theorem Tracks.run_source (tracks : Tracks lockStep c) (left : c.threads .source = i :: rest)
    (ran : (s,new) ∈ exec lockStep .source i c.shared) : Tracks lockStep (c.put .source s (new ++ rest)) := by
  have source := tracks.source
  rw [left] at source
  cases i with
  | lock =>
    obtain ⟨free,rfl,rfl⟩ : c.shared.mutex = none ∧ s = { c.shared with mutex := some .source } ∧ new = [] := by
      simpa [exec] using ran
    cases source with
    | locking set_ all filled unsent concurrent =>
      exact tracks.put_source rfl rfl rfl (fun y => by simp [free])
        (.moving set_ all (filled.congr rfl rfl) unsent fun _ => rfl)
  | unlock =>
    obtain ⟨rfl,rfl⟩ := Prod.mk.inj (List.mem_singleton.mp ran)
    cases source with
    | unlocking r set_ all filled unsent value locked =>
      exact tracks.put_source rfl rfl rfl (fun y => by simp [locked])
        (.destroying r set_ all (filled.congr rfl rfl) unsent value)
  | moveResult => exact tracks.moveResult left ran
  | destroy => exact tracks.destroy left ran
  | complete r => exact tracks.complete left ran
  | construct r => cases ran
  | completeItem signal => cases ran

/-- An item completes. -/
theorem Tracks.call_item (tracks : Tracks lockStep c) {r : Completion Value Error}
    (idle : c.threads (.item x) = []) (accepted : accept lockStep (.item x r) c.shared = some (s,prog)) :
    Tracks lockStep (c.put (.item x) s prog) := by
  simp only [accept] at accepted
  split at accepted
  next may =>
    cases accepted
    obtain ⟨unset,fresh,_⟩ := may
    have unset := Option.isNone_iff_eq_none.mp unset
    have unstored : x ∉ c.shared.stored.map Prod.fst := by
      intro stored
      obtain ⟨item,there,rfl⟩ := List.mem_map.mp stored
      exact fresh (List.mem_map_of_mem (tracks.known item there))
    have unfinished : x ∉ c.shared.finished.map Prod.fst := by
      have at_x := tracks.left x
      rw [idle] at at_x
      generalize nothing : ([] : List (Instr Value Error)) = prog at at_x
      cases at_x with
      | running _ unfinished => exact unfinished
      | locking r => exact absurd nothing.symm (itemHandler_ne_nil r)
      | finished r there => exact absurd (List.mem_map_of_mem (f := Prod.fst) there) unstored
      | _ => cases nothing
    have unlocked : c.shared.mutex ≠ some (.item x) := fun held => fresh (tracks.held x held).1
    refine ⟨?_,tracks.stored,?_,fun y held => ?_,fun y => ?_,?_⟩
    · simpa [List.nodup_append] using ⟨tracks.items,fun y r member other => fresh (by simpa [← other] using ⟨r,member⟩)⟩
    · exact fun item there => List.mem_append_left _ (tracks.known item there)
    · obtain ⟨member,unfinished⟩ := tracks.held y held
      exact ⟨by simpa using .inl (by simpa using member),unfinished⟩
    · by_cases same : y = x
      · subst same
        rw [put_threads,if_pos rfl]
        cases lockStep with
        | false => exact .locking r (by simp) unstored unfinished rfl unlocked
        | true => exact .constructing r (by simp) unstored unfinished (by simpa using unlocked)
      · rw [put_threads_ne c (by simpa using same)]
        exact (tracks.left y).congr (by simp [same]) (fun _ => .rfl) .rfl .rfl
    · have source := tracks.source
      rw [put_threads_ne c (by simp)]
      generalize c.threads .source = prog at source
      cases source with
      | running _ filled unsent free => exact .running unset (filled.congr rfl rfl) unsent free
      | locking set_ | moving set_ | unlocking _ set_ | destroying _ set_ | completing _ _ set_ | completed _ _ set_
      | misread set_ | forwarding _ _ set_ | forwarded _ _ set_ => simp [unset] at set_
  next => cases accepted

/-- The source completes. -/
theorem Tracks.call_source (tracks : Tracks lockStep c) {signal : Signal Error} (idle : c.threads .source = [])
    (accepted : accept lockStep (.source signal) c.shared = some (s,prog)) : Tracks lockStep (c.put .source s prog) := by
  simp only [accept] at accepted
  split at accepted
  next may =>
    cases accepted
    obtain ⟨unset,all⟩ := may
    have unset := Option.isNone_iff_eq_none.mp unset
    have source := tracks.source
    rw [idle] at source
    cases source with
    | running _ filled unsent free =>
      have after : Operation.Filled { c.shared with source := some signal } := (filled.congr rfl rfl)
      refine tracks.put_source rfl rfl rfl (fun _ => .rfl) ?_
      cases signal with
      | value v =>
        cases lockStep with
        | false => exact .locking rfl all after unsent rfl free
        | true => exact .moving rfl all after unsent (by simp)
      | error e => exact .forwarding (.error e) _ rfl all (by simp) after unsent
      | stopped => exact .forwarding .stopped _ rfl all (by simp) after unsent
    | completed _ _ set_ | misread set_ | forwarded _ _ set_ => simp [unset] at set_
  next => cases accepted

/-- Every configuration of a run. -/
theorem tracks_reach (reach : Reach (machine lockStep) Any initial c) : Tracks lockStep c :=
  reach.invariant tracks_initial
    (fun c p i rest s new tracks _ left ran => by
      cases p with
      | item x => exact tracks.run_item left ran
      | source => exact tracks.run_source left ran)
    (fun c e s prog tracks _ idle accepted => by
      cases e with
      | item x r => exact tracks.call_item idle accepted
      | source signal => exact tracks.call_source idle accepted)

end

/-! ### How runs end -/

section
variable {lockStep : Bool} {c : Config Party (Operation Value Error) (Instr Value Error)}

/-- An item whose receiver is completed has stored its completion. -/
theorem Tracks.stored_of_finished (tracks : Tracks lockStep c) {x : Nat} (done : x ∈ c.shared.finished.map Prod.fst) :
    ∃ r, (x,r) ∈ c.shared.stored := by
  have at_x := tracks.left x
  generalize c.threads (.item x) = prog at at_x
  cases at_x with
  | finished r there => exact ⟨r,there⟩
  | running _ unfinished | locking _ _ _ unfinished | constructing _ _ _ unfinished | unlocking _ _ unfinished
  | finishing _ _ unfinished => exact absurd done unfinished

/-- When the receivers of all items are completed, every item has stored its completion. -/
theorem Tracks.length_stored (tracks : Tracks lockStep c) (all : c.shared.AllFinished) :
    c.shared.stored.length = c.shared.items.length := by
  have less : c.shared.stored.map Prod.fst ⊆ c.shared.items.map Prod.fst := fun x member => by
    obtain ⟨item,there,rfl⟩ := List.mem_map.mp member
    exact List.mem_map_of_mem (tracks.known item there)
  have more : c.shared.items.map Prod.fst ⊆ c.shared.stored.map Prod.fst := fun x member => by
    obtain ⟨item,there,rfl⟩ := List.mem_map.mp member
    obtain ⟨r,stored⟩ := tracks.stored_of_finished (all item there)
    exact List.mem_map.mpr ⟨_,stored,rfl⟩
  simpa using Nat.le_antisymm (List.subperm_of_subset tracks.stored less).length_le
    (List.subperm_of_subset tracks.items more).length_le

/-- The source completes with something else than `set_value`, or there is an item. -/
def Operation.Nonempty (s : Operation Value Error) : Prop := s.source = some (.value ()) → s.items ≠ []

/-- While there is an item, the receiver is completed at most once and the slot is only read
    and destroyed while it holds a result. -/
theorem Tracks.at_most_once (tracks : Tracks lockStep c) (nonempty : c.shared.Nonempty) :
    c.shared.completions.length ≤ 1 ∧ c.shared.slot.misused = 0 := by
  have source := tracks.source
  generalize c.threads .source = prog at source
  cases source with
  | running _ filled unsent | locking _ _ filled unsent | moving _ _ filled unsent | unlocking _ _ _ filled unsent
  | destroying _ _ _ filled unsent | forwarding _ _ _ _ _ filled unsent => simp [unsent,filled.misused]
  | completing _ _ _ _ _ _ _ misused unsent => simp [unsent,misused]
  | completed _ _ _ _ _ _ _ misused sent => simp [sent,misused]
  | misread set_ all nothing =>
    have items := tracks.length_stored all
    rw [nothing] at items
    exact absurd (List.length_eq_zero_iff.mp items.symm) (nonempty set_)
  | forwarded _ _ _ _ _ filled sent => simp [sent,filled.misused]

/-- What the receiver got when the source has completed with `set_value` and is done. -/
theorem Tracks.lastItem_iff (tracks : Tracks lockStep c) (idle : c.threads .source = [])
    (set_ : c.shared.source = some (.value ())) : c.shared.LastItem ↔ c.shared.items ≠ [] := by
  have source := tracks.source
  rw [idle] at source
  cases source with
  | running unset => simp [set_] at unset
  | completed x r _ all last object lost misused sent =>
    have known := tracks.known _ (List.mem_of_getLast? last)
    refine ⟨fun _ => List.ne_nil_of_mem known,fun _ => ⟨fun nothing => ?_,fun y r' last' => ?_,misused⟩⟩
    · simp [nothing] at last
    · obtain ⟨rfl,rfl⟩ := Prod.mk.inj (Option.some.inj (last.symm.trans last'))
      exact ⟨known,sent⟩
  | misread _ all nothing object lost misused =>
    have items := tracks.length_stored all
    rw [nothing] at items
    refine ⟨fun lastItem => ?_,fun nonempty => absurd (List.length_eq_zero_iff.mp items.symm) nonempty⟩
    exact absurd lastItem.constructed (by simp [misused])
  | forwarded signal _ set' _ other =>
    rw [set_] at set'
    exact absurd (Option.some.inj set').symm other

/-- An item that has the lock can go on. -/
theorem Tracks.holder_goes_on (tracks : Tracks lockStep c) {x : Nat} (held : c.shared.mutex = some (.item x)) :
    (machine lockStep).next c (.run (.item x)) ≠ [] := by
  obtain ⟨member,unfinished⟩ := tracks.held x held
  have at_x := tracks.left x
  generalize threads : c.threads (.item x) = prog at at_x
  cases at_x with
  | running absent => exact absurd member absent
  | locking _ _ _ _ _ free => exact absurd held free
  | constructing => simp [Machine.next,threads,machine,exec]
  | unlocking => simp [Machine.next,threads,machine,exec]
  | finishing _ _ _ free => exact absurd held free
  | finished _ _ done => exact absurd done unfinished

/-- As long as something is left, somebody can go on. -/
theorem Tracks.progress (tracks : Tracks lockStep c) {p : Party} (left : c.threads p ≠ []) :
    ∃ q, (machine lockStep).next c (.run q) ≠ [] := by
  cases p with
  | item x =>
    have at_x := tracks.left x
    generalize threads : c.threads (.item x) = prog at at_x left
    cases at_x with
    | running => exact absurd rfl left
    | locking r member _ unfinished concurrent =>
      subst concurrent
      cases mutex : c.shared.mutex with
      | none => exact ⟨.item x,by simp [Machine.next,threads,itemHandler,locking,machine,exec,mutex]⟩
      | some holder =>
        cases holder with
        | item y => exact ⟨.item y,tracks.holder_goes_on mutex⟩
        | source =>
          obtain ⟨_,_,_,free,_⟩ := tracks.source.open member unfinished
          exact absurd mutex free
    | constructing => exact ⟨.item x,by simp [Machine.next,threads,machine,exec]⟩
    | unlocking => exact ⟨.item x,by simp [Machine.next,threads,machine,exec]⟩
    | finishing => exact ⟨.item x,by simp [Machine.next,threads,machine,exec]⟩
    | finished => exact absurd rfl left
  | source =>
    have source := tracks.source
    generalize threads : c.threads .source = prog at source left
    refine ⟨.source,?_⟩
    cases source with
    | running | completed | misread | forwarded => exact absurd rfl left
    | locking _ all _ _ _ free =>
      have unlocked : c.shared.mutex = none := by
        cases mutex : c.shared.mutex with
        | none => rfl
        | some holder =>
          cases holder with
          | item y =>
            obtain ⟨member,unfinished⟩ := tracks.held y mutex
            obtain ⟨item,there,rfl⟩ := List.mem_map.mp member
            exact absurd (all item there) unfinished
          | source => exact absurd mutex free
      simp [Machine.next,threads,machine,exec,unlocked]
    | moving => cases value : c.shared.slot.value <;> simp [Machine.next,threads,machine,exec,value]
    | unlocking | destroying | completing | forwarding => simp [Machine.next,threads,machine,exec]

/-- The steps that an instruction leads to. -/
def Instr.weight : Instr Value Error → Nat
  | .moveResult => 4
  | _ => 1

/-- The steps of the items and of the source that have completed. -/
def Operation.budget (s : Operation Value Error) : Nat :=
  5 * s.items.length + if s.source.isSome then 6 else 0

/-- An instruction leads to more steps than what it leaves to do. -/
theorem exec_lowers {p : Party} {i : Instr Value Error} {s s' : Operation Value Error} {new : List (Instr Value Error)}
    (ran : (s',new) ∈ exec lockStep p i s) : (new.map Instr.weight).sum < i.weight ∧ s'.budget = s.budget := by
  unfold exec at ran
  split at ran
  case h_1 =>
    split at ran
    · obtain ⟨rfl,rfl⟩ := Prod.mk.inj (List.mem_singleton.mp ran)
      exact ⟨by simp [Instr.weight],rfl⟩
    · cases ran
  case h_5 =>
    split at ran
    · obtain ⟨rfl,rfl⟩ := Prod.mk.inj (List.mem_singleton.mp ran)
      exact ⟨by cases lockStep <;> simp [Instr.weight,unlocking],rfl⟩
    · obtain ⟨rfl,rfl⟩ := Prod.mk.inj (List.mem_singleton.mp ran)
      exact ⟨by simp [Instr.weight],rfl⟩
  case h_8 => cases ran
  all_goals
    obtain ⟨rfl,rfl⟩ := Prod.mk.inj (List.mem_singleton.mp ran)
    exact ⟨by simp [Instr.weight],rfl⟩

/-- A run takes at most five steps for each item and six for the source. -/
theorem steps_le {steps : List (Config Party (Operation Value Error) (Instr Value Error) ×
      Label Party (Event Value Error))}
    (run : Run (machine lockStep) Any initial steps c) : steps.length ≤ c.shared.budget := by
  refine run.length_le Operation.budget Instr.weight (fun _ => rfl) ?_ ?_
  · intro p i s s' new ran
    obtain ⟨less,same⟩ := exec_lowers ran
    omega
  · intro e s s' prog accepted
    cases e with
    | item x r =>
      simp only [machine,accept] at accepted
      split at accepted
      next =>
        cases accepted
        cases lockStep <;> simp [Instr.weight,Operation.budget,itemHandler,locking,unlocking] <;> omega
      next => cases accepted
    | source signal =>
      simp only [machine,accept] at accepted
      split at accepted
      next may =>
        cases accepted
        have unset := Option.isNone_iff_eq_none.mp may.1
        cases signal <;> cases lockStep <;>
          simp [Instr.weight,Operation.budget,sourceHandler,locking,unset] <;> omega
      next => cases accepted

end

/-- No run of `last` goes on for ever or gets stuck, whatever the order of its steps; and when
    its source has completed with `set_value`, its receiver is completed once, as it should be,
    if and only if there was an item. -/
theorem last_completes_iff {Value Error : Type} (lockStep : Bool)
    (steps : List (Config Party (Operation Value Error) (Instr Value Error) × Label Party (Event Value Error)))
    (c : Config Party (Operation Value Error) (Instr Value Error)) (run : Run (machine lockStep) Any initial steps c) :
    steps.length ≤ 5 * c.shared.items.length + 6 ∧
    ((∃ p, c.threads p ≠ []) → ∃ q, (machine lockStep).next c (.run q) ≠ []) ∧
    (c.shared.Nonempty → c.shared.completions.length ≤ 1 ∧ c.shared.slot.misused = 0) ∧
    (Ended c → c.shared.source = some (.value ()) → (c.shared.LastItem ↔ c.shared.items ≠ [])) := by
  have tracks := tracks_reach run.reach
  refine ⟨?_,fun ⟨p,left⟩ => tracks.progress left,tracks.at_most_once,fun ended => tracks.lastItem_iff ended.2⟩
  have bounded := steps_le run
  simp only [Operation.budget] at bounded
  split at bounded <;> omega

/-- Two items run concurrently; the one that completes first stores its error last. -/
theorem last_completes_two : ∃ c : Config Party (Operation Nat Nat) (Instr Nat Nat), c.shared.LastItem ∧
    c.shared.completions = [.error 7] := by
  obtain ⟨steps,c,run,computed⟩ := exists_run_of_follow (machine false) Any
    (initial : Config Party (Operation Nat Nat) (Instr Nat Nat)) (fun _ _ => true) (fun _ _ _ => trivial)
    [(.call (.item 0 (.error 7)),0),(.call (.item 1 (.value 1)),0),(.run (.item 1),0),(.run (.item 1),0),
      (.run (.item 1),0),(.run (.item 0),0),(.run (.item 0),0),(.run (.item 0),0),(.run (.item 0),0),(.run (.item 1),0),
      (.call (.source (.value ())),0),(.run .source,0),(.run .source,0),(.run .source,0),(.run .source,0),(.run .source,0)]
    (fun _ c => c.shared.source = some (.value ()) ∧ c.shared.items = [(0,.error 7),(1,.value 1)] ∧
      (c.threads .source).isEmpty ∧ c.shared.completions = [.error 7]) (by decide)
  obtain ⟨set_,items,idle,sent⟩ := of_decide_eq_true computed
  have ended : Ended c := ⟨by simp [set_],List.isEmpty_iff.mp idle⟩
  exact ⟨c,((last_completes_iff false steps c run).2.2.2 ended set_).mpr (by simp [items]),sent⟩

/-- A sequence without items that completes with `set_value`: the slot is read, but it holds nothing. -/
theorem empty_sequence_reads_nothing : ¬ ∀ lockStep steps, ∀ c : Config Party (Operation Nat Nat) (Instr Nat Nat),
    Run (machine lockStep) Any initial steps c → Ended c → c.shared.source = some (.value ()) → c.shared.LastItem := by
  intro claimed
  obtain ⟨steps,c,run,computed⟩ := exists_run_of_follow (machine true) Any
    (initial : Config Party (Operation Nat Nat) (Instr Nat Nat)) (fun _ _ => true) (fun _ _ _ => trivial)
    [(.call (.source (.value ())),0),(.run .source,0)]
    (fun _ c => c.shared.source = some (.value ()) ∧ (c.threads .source).isEmpty ∧ c.shared.slot.misused = 1) (by decide)
  obtain ⟨set_,idle,misused⟩ := of_decide_eq_true computed
  have lastItem := claimed true steps c run ⟨by simp [set_],List.isEmpty_iff.mp idle⟩ set_
  exact absurd lastItem.constructed (by simp [misused])

end SendersIo.Last
