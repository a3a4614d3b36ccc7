import Mathlib.Data.Fintype.Card
import Mathlib.Data.List.FinRange
import SendersIo.Interleaving
import SendersIo.Signals

/-!
Merging of sequences. Every child gives up its share of the pending counter
when it completes, and whoever gives up the last share completes the outer
receiver: with the error that won the exchange on the error slot, if any child
failed, and otherwise as the outer stop token says.
-/
namespace SendersIo.MergeEach
open SendersIo.Interleaving SendersIo.Signals
set_option linter.unusedSimpArgs false

/-- A completion of the outer receiver: the child that made it, the signal, and
    what the outer stop token reported. -/
structure Delivery (n : Nat) (Error : Type) where
  child : Fin n
  signal : Signal Error
  stopRequested : Bool

/-- `merge_each_::operation_base` and what happened to it so far: the children
    started, how they completed, the order in which they decremented the counter
    and the one whose exchange on `error_emplaced_` succeeded. -/
structure OperationBase (n : Nat) (Error : Type) where
  nPendingOps : Int
  errors : Option Error
  errorEmplaced : Nat
  stopRequested : Bool
  outerStopRequested : Bool
  started : Fin n → Bool
  signal : Fin n → Option (Signal Error)
  decremented : List (Fin n)
  winner : Option (Fin n)
  completions : List (Delivery n Error)

inductive Party (n : Nat) where
  | operation
  | child (i : Fin n)
  | environment
  deriving DecidableEq

/-- The atomic steps of `operation::start` and of the handlers of a child. -/
inductive Instr (n : Nat) (Error : Type) where
  | start (i : Fin n)
  | compareExchange (e : Error)
  | emplace (e : Error)
  | storeEmplaced
  | requestStop
  | fetchSub
  | loadEmplaced
  | visitErrors
  | setValueUnlessStopped

inductive Event (n : Nat) (Error : Type) where
  | complete (i : Fin n) (signal : Signal Error)
  | requestStop

variable {n : Nat} {Error : Type}

/-- `receiver::complete`. -/
def complete : List (Instr n Error) := [.fetchSub]

/-- `receiver::set_stopped`. -/
def setStopped : List (Instr n Error) := .requestStop :: complete

/-- `receiver::set_error`. -/
def setError (e : Error) : List (Instr n Error) := .compareExchange e :: setStopped

/-- The handler that a child runs for its completion. -/
def handler : Signal Error → List (Instr n Error)
  | .value _ => complete
  | .stopped => setStopped
  | .error e => setError e

def deliver (s : OperationBase n Error) (i : Fin n) (signal : Signal Error) : OperationBase n Error :=
  { s with completions := s.completions ++ [⟨i,signal,s.outerStopRequested⟩] }

def exec : Party n → Instr n Error → OperationBase n Error → List (OperationBase n Error × List (Instr n Error))
  | .operation,.start i,s => [({ s with started := Function.update s.started i true },[])]
  | .child i,.compareExchange e,s =>
    if s.errorEmplaced = 0 then
      [({ s with errorEmplaced := 1, winner := some i },[.emplace e,.storeEmplaced])]
    else [(s,[])]
  | .child _,.emplace e,s => [({ s with errors := some e },[])]
  | .child _,.storeEmplaced,s => [({ s with errorEmplaced := 2 },[])]
  | .child _,.requestStop,s => [({ s with stopRequested := true },[])]
  | .child i,.fetchSub,s =>
    [({ s with nPendingOps := s.nPendingOps - 1, decremented := s.decremented ++ [i] },
      if s.nPendingOps = 1 then [.loadEmplaced] else [])]
  | .child _,.loadEmplaced,s => [(s,if s.errorEmplaced = 2 then [.visitErrors] else [.setValueUnlessStopped])]
  | .child i,.visitErrors,s =>
    match s.errors with
    | some e => [(deliver s i (.error e),[])]
    -- the visitor does nothing for `std::monostate`
    | none => [(s,[])]
  | .child i,.setValueUnlessStopped,s => [(deliver s i (Signals.setValueUnlessStopped s.outerStopRequested),[])]
  | _,_,_ => []

/-- A child completes once, after it was started; the outer token may be
    requested at any time. -/
def accept : Event n Error → OperationBase n Error → Option (OperationBase n Error × List (Instr n Error))
  | .complete i signal,s =>
    if s.started i ∧ (s.signal i).isNone then
      some ({ s with signal := Function.update s.signal i (some signal) },handler signal)
    else none
  | .requestStop,s => some ({ s with outerStopRequested := true },[])

def machine (n : Nat) (Error : Type) : Machine (Party n) (OperationBase n Error) (Instr n Error) (Event n Error) where
  exec := exec
  accept := accept
  party
    | .complete i _ => .child i
    | .requestStop => .environment

/-- `operation::start` is about to start the children in order. -/
def initial (n : Nat) (Error : Type) : Config (Party n) (OperationBase n Error) (Instr n Error) where
  shared := ⟨n,none,0,false,false,fun _ => false,fun _ => none,[],none,[]⟩
  threads
    | .operation => (List.finRange n).map .start
    | _ => []

/-! ### What a child has left -/

/-- A child that decremented the counter to zero and completes the receiver. -/
def Finishing (prog : List (Instr n Error)) : Prop :=
  prog = [.loadEmplaced] ∨ prog = [.visitErrors] ∨ prog = [.setValueUnlessStopped]

/-- What a child has left, from how it completed and whether it has decremented
    the counter. -/
inductive Left : Option (Signal Error) → Prop → List (Instr n Error) → Prop
  | running {d : Prop} : ¬ d → Left none d []
  | exchanging {d : Prop} (e : Error) : ¬ d → Left (some (.error e)) d (setError e)
  | emplacing {d : Prop} (e : Error) : ¬ d → Left (some (.error e)) d (.emplace e :: .storeEmplaced :: setStopped)
  | storing {d : Prop} (e : Error) : ¬ d → Left (some (.error e)) d (.storeEmplaced :: setStopped)
  | stopping {d : Prop} (signal : Signal Error) : ¬ d → Left (some signal) d setStopped
  | decrementing {d : Prop} (signal : Signal Error) : ¬ d → Left (some signal) d complete
  | finishing {d : Prop} (signal : Signal Error) {prog : List (Instr n Error)} : d → Finishing prog →
      Left (some signal) d prog
  | done {d : Prop} (signal : Signal Error) : d → Left (some signal) d []

/-- A child between its exchange on the error slot and the store of 2. -/
def Storing (prog : List (Instr n Error)) : Prop :=
  (∃ e, prog = .emplace e :: .storeEmplaced :: setStopped) ∨ prog = .storeEmplaced :: setStopped

/-- How far the winner of the exchange is with storing its error. -/
def Stored (s : OperationBase n Error) (e : Error) (prog : List (Instr n Error)) : Prop :=
  (prog = .emplace e :: .storeEmplaced :: setStopped ∧ s.errorEmplaced = 1) ∨
  (prog = .storeEmplaced :: setStopped ∧ s.errorEmplaced = 1 ∧ s.errors = some e) ∨
  (¬ Storing prog ∧ s.errorEmplaced = 2 ∧ s.errors = some e)

/-- The signal that the outer receiver gets once the error slot is settled. -/
def Outcome (s : OperationBase n Error) (d : Delivery n Error) : Prop :=
  (s.errorEmplaced = 2 → ∃ e, s.errors = some e ∧ d.signal = .error e) ∧
  (s.errorEmplaced ≠ 2 → d.signal = setValueUnlessStopped d.stopRequested)

variable {c : Config (Party n) (OperationBase n Error) (Instr n Error)}

/-- The counter counts the children that have not decremented it, and every
    child has left what its completion requires. -/
structure Counted (c : Config (Party n) (OperationBase n Error) (Instr n Error)) : Prop where
  pending : c.shared.nPendingOps = n - c.shared.decremented.length
  distinct : c.shared.decremented.Nodup
  left : ∀ i, Left (c.shared.signal i) (i ∈ c.shared.decremented) (c.threads (.child i))

/-- The error slot belongs to the winner of the exchange, and some child wins it
    before any failed child goes on. -/
structure Slot (c : Config (Party n) (OperationBase n Error) (Instr n Error)) : Prop where
  unclaimed : c.shared.winner = none → c.shared.errorEmplaced = 0
  claimed : ∀ w, c.shared.winner = some w →
    ∃ e, c.shared.signal w = some (.error e) ∧ Stored c.shared e (c.threads (.child w))
  losers : ∀ i, c.shared.winner ≠ some i → ¬ Storing (c.threads (.child i))
  raced : ∀ i e, c.shared.signal i = some (.error e) → c.shared.winner = none → c.threads (.child i) = setError e

/-- The receiver is completed by the last child to decrement the counter. -/
structure Finish (c : Config (Party n) (OperationBase n Error) (Instr n Error)) : Prop where
  finisher : ∀ i, Finishing (c.threads (.child i)) →
    c.shared.completions = [] ∧ c.shared.decremented.length = n ∧ c.shared.decremented.getLast? = some i
  visiting : ∀ i, c.threads (.child i) = [.visitErrors] → c.shared.errorEmplaced = 2
  valuing : ∀ i, c.threads (.child i) = [.setValueUnlessStopped] → c.shared.errorEmplaced ≠ 2
  unfinished : c.shared.completions = [] → c.shared.decremented.length = n → 0 < n →
    ∃ i, Finishing (c.threads (.child i))
  once : c.shared.completions.length ≤ 1
  delivered : ∀ d ∈ c.shared.completions, c.shared.decremented.length = n ∧
    c.shared.decremented.getLast? = some d.child ∧ Outcome c.shared d

/-- The children are started in turn, and only a started child completes. -/
structure Started (c : Config (Party n) (OperationBase n Error) (Instr n Error)) : Prop where
  waiting : ∀ i, .start i ∈ c.threads .operation ↔ c.shared.started i = false
  starts : ∀ x ∈ c.threads .operation, ∃ i, x = .start i
  order : (c.threads .operation).Nodup
  quiet : c.threads .environment = []
  begun : ∀ i, c.shared.signal i ≠ none → c.shared.started i = true

structure Invariant (c : Config (Party n) (OperationBase n Error) (Instr n Error)) : Prop where
  counted : Counted c
  slot : Slot c
  finish : Finish c
  started : Started c

/-- Nothing is finished and nothing is delivered while a child has its share. -/
theorem finish_early (few : c.shared.decremented.length < n) (open_ : c.shared.completions = [])
    (none : ∀ i, ¬ Finishing (c.threads (.child i))) : Finish c where
  finisher i finishing := absurd finishing (none i)
  visiting i at_i := absurd (.inr (.inl at_i)) (none i)
  valuing i at_i := absurd (.inr (.inr at_i)) (none i)
  unfinished _ all := by omega
  once := by simp [open_]
  delivered := by simp [open_]

theorem Finish.early (finish : Finish c) (few : c.shared.decremented.length < n) :
    c.shared.completions = [] ∧ ∀ i, ¬ Finishing (c.threads (.child i)) := by
  constructor
  · cases list : c.shared.completions with
    | nil => rfl
    | cons d rest =>
      have := (finish.delivered d (by simp [list])).1
      omega
  · intro i finishing
    have := (finish.finisher i finishing).2.1
    omega

section
variable {i : Fin n} {s : OperationBase n Error} {prog : List (Instr n Error)}

theorem started_child (started : Started c) (same : s.started = c.shared.started)
    (signal : s.signal = c.shared.signal) : Started (c.put (.child i) s prog) := by
  obtain ⟨waiting,starts,order,quiet,begun⟩ := started
  constructor <;> simpa [put_threads,same,signal]

theorem counted_child (counted : Counted c) (pending : s.nPendingOps = c.shared.nPendingOps)
    (decremented : s.decremented = c.shared.decremented) (signal : s.signal = c.shared.signal)
    (left : Left (c.shared.signal i) (i ∈ c.shared.decremented) prog) : Counted (c.put (.child i) s prog) where
  pending := by simpa [pending,decremented] using counted.pending
  distinct := by simpa [decremented] using counted.distinct
  left j := by
    rw [put_shared,signal,decremented,put_threads]
    split
    · rename_i same
      cases same
      exact left
    · exact counted.left j

/-- A step that leaves the error slot alone, of a child that is not storing. -/
theorem slot_child (slot : Slot c) (winner : s.winner = c.shared.winner)
    (emplaced : s.errorEmplaced = c.shared.errorEmplaced) (errors : s.errors = c.shared.errors)
    (signal : s.signal = c.shared.signal) (before : ¬ Storing (c.threads (.child i))) (after : ¬ Storing prog)
    (passed : ∀ e, c.threads (.child i) = setError e → c.shared.winner ≠ none) :
    Slot (c.put (.child i) s prog) where
  unclaimed free := by simpa [emplaced] using slot.unclaimed (by simpa [winner] using free)
  claimed w won := by
    obtain ⟨e,failed,stored⟩ := slot.claimed w (by simpa [winner] using won)
    refine ⟨e,by simpa [signal] using failed,?_⟩
    rw [put_threads]
    split
    · rename_i same
      cases same
      rcases stored with ⟨at_w,_⟩ | ⟨at_w,_⟩ | ⟨_,rest⟩
      · exact absurd (.inl ⟨e,at_w⟩) before
      · exact absurd (.inr at_w) before
      · exact .inr (.inr ⟨after,by simpa [emplaced,errors] using rest⟩)
    · simpa [Stored,emplaced,errors] using stored
  losers j lost := by
    rw [put_threads]
    split
    · exact after
    · exact slot.losers j (by simpa [winner] using lost)
  raced j e failed free := by
    have free : c.shared.winner = none := by simpa [winner] using free
    have at_j := slot.raced j e (by simpa [signal] using failed) free
    rw [put_threads]
    split
    · rename_i same
      cases same
      exact absurd free (passed e at_j)
    · exact at_j

/-- A step of a child that has not decremented the counter and does not now. -/
theorem finish_child (counted : Counted c) (finish : Finish c) (absent : i ∉ c.shared.decremented)
    (decremented : s.decremented = c.shared.decremented) (completions : s.completions = c.shared.completions)
    (after : ¬ Finishing prog) : Finish (c.put (.child i) s prog) := by
  have few := length_of_not_mem counted.distinct absent
  obtain ⟨empty,none⟩ := finish.early few
  refine finish_early (by simpa [decremented] using few) (by simpa [completions] using empty) ?_
  intro j
  rw [put_threads]
  split
  · exact after
  · exact none j

end

/-! ### Every step keeps the invariant -/

section
variable {i : Fin n} {s : OperationBase n Error} {new : List (Instr n Error)}

theorem not_finishing_of_length {prog : List (Instr n Error)} (long : 2 ≤ prog.length) : ¬ Finishing prog := by
  rintro (rfl | rfl | rfl) <;> simp at long

theorem exchange_keeps (inv : Invariant c) {e : Error} (failed : c.shared.signal i = some (.error e))
    (left : c.threads (.child i) = setError e) (absent : i ∉ c.shared.decremented)
    (ran : (s,new) ∈ exec (.child i) (.compareExchange e) c.shared) :
    Invariant (c.put (.child i) s (new ++ setStopped)) := by
  obtain ⟨counted,slot,finish,started⟩ := inv
  have apart : ¬ Storing (setError e : List (Instr n Error)) := by simp [Storing,setError,setStopped]
  have stopped : ¬ Storing (setStopped : List (Instr n Error)) := by simp [Storing,setStopped,complete]
  by_cases free : c.shared.errorEmplaced = 0
  · obtain ⟨rfl,rfl⟩ : s = _ ∧ new = _ := by simpa [exec,free] using ran
    have unwon : c.shared.winner = none := by
      cases won : c.shared.winner with
      | none => rfl
      | some w =>
        obtain ⟨_,_,stored⟩ := slot.claimed w won
        rcases stored with ⟨_,one⟩ | ⟨_,one,_⟩ | ⟨_,two,_⟩ <;> omega
    refine ⟨counted_child counted rfl rfl rfl ?_,⟨?_,?_,?_,?_⟩,
      finish_child counted finish absent rfl rfl (not_finishing_of_length (by simp [setStopped,complete])),
      started_child started rfl rfl⟩
    · rw [failed]; exact .emplacing e absent
    · simp
    · rintro w won
      obtain rfl : i = w := by simpa using won
      exact ⟨e,by simpa using failed,.inl ⟨by simp,by simp⟩⟩
    · intro j lost
      have other : Party.child j ≠ Party.child i := by
        rintro same
        cases same
        exact lost rfl
      rw [put_threads_ne c other]
      exact slot.losers j (by simp [unwon])
    · simp
  · obtain ⟨rfl,rfl⟩ : s = _ ∧ new = _ := by simpa [exec,free] using ran
    refine ⟨counted_child counted rfl rfl rfl ?_,slot_child slot rfl rfl rfl rfl (by simpa [left] using apart)
      stopped ?_,finish_child counted finish absent rfl rfl (not_finishing_of_length (by simp [setStopped,complete])),
      started_child started rfl rfl⟩
    · rw [failed]; exact .stopping _ absent
    · exact fun _ _ unwon => free (slot.unclaimed unwon)

theorem emplace_keeps (inv : Invariant c) {e : Error} (failed : c.shared.signal i = some (.error e))
    (left : c.threads (.child i) = .emplace e :: .storeEmplaced :: setStopped) (absent : i ∉ c.shared.decremented) :
    Invariant (c.put (.child i) { c.shared with errors := some e } (.storeEmplaced :: setStopped)) := by
  obtain ⟨counted,slot,finish,started⟩ := inv
  have won : c.shared.winner = some i := by
    by_contra lost
    exact slot.losers i lost (.inl ⟨e,left⟩)
  refine ⟨counted_child counted rfl rfl rfl ?_,⟨?_,?_,?_,?_⟩,
    finish_child counted finish absent rfl rfl (not_finishing_of_length (by simp [setStopped,complete])),
    started_child started rfl rfl⟩
  · rw [failed]; exact .storing e absent
  · simp [won]
  · rintro w same
    obtain rfl : i = w := by simpa [won] using same
    obtain ⟨_,_,stored⟩ := slot.claimed i won
    refine ⟨e,by simpa using failed,.inr (.inl ⟨by simp,?_,rfl⟩)⟩
    rcases stored with ⟨_,one⟩ | ⟨at_i,_⟩ | ⟨idle,_⟩
    · exact one
    · simp [left] at at_i
    · exact absurd (.inl ⟨e,left⟩) idle
  · intro j lost
    have other : Party.child j ≠ Party.child i := by
      rintro same
      cases same
      exact lost won
    rw [put_threads_ne c other]
    exact slot.losers j lost
  · simp [won]

theorem storeEmplaced_keeps (inv : Invariant c) {e : Error} (failed : c.shared.signal i = some (.error e))
    (left : c.threads (.child i) = .storeEmplaced :: setStopped) (absent : i ∉ c.shared.decremented) :
    Invariant (c.put (.child i) { c.shared with errorEmplaced := 2 } setStopped) := by
  obtain ⟨counted,slot,finish,started⟩ := inv
  have stopped : ¬ Storing (setStopped : List (Instr n Error)) := by simp [Storing,setStopped,complete]
  have won : c.shared.winner = some i := by
    by_contra lost
    exact slot.losers i lost (.inr left)
  refine ⟨counted_child counted rfl rfl rfl ?_,⟨?_,?_,?_,?_⟩,
    finish_child counted finish absent rfl rfl (not_finishing_of_length (by simp [setStopped,complete])),
    started_child started rfl rfl⟩
  · rw [failed]; exact .stopping _ absent
  · simp [won]
  · rintro w same
    obtain rfl : i = w := by simpa [won] using same
    obtain ⟨e',failed',stored⟩ := slot.claimed i won
    refine ⟨e',by simpa using failed',.inr (.inr ⟨by simpa using stopped,rfl,?_⟩)⟩
    rcases stored with ⟨at_i,_⟩ | ⟨_,_,errors⟩ | ⟨idle,_⟩
    · simp [left,setStopped] at at_i
    · exact errors
    · exact absurd (.inr left) idle
  · intro j lost
    have other : Party.child j ≠ Party.child i := by
      rintro same
      cases same
      exact lost won
    rw [put_threads_ne c other]
    exact slot.losers j lost
  · simp [won]

theorem requestStop_keeps (inv : Invariant c) {signal : Signal Error} (done : c.shared.signal i = some signal)
    (left : c.threads (.child i) = setStopped) (absent : i ∉ c.shared.decremented) :
    Invariant (c.put (.child i) { c.shared with stopRequested := true } complete) := by
  obtain ⟨counted,slot,finish,started⟩ := inv
  refine ⟨counted_child counted rfl rfl rfl ?_,slot_child slot rfl rfl rfl rfl ?_ ?_ ?_,
    finish_child counted finish absent rfl rfl (by simp [Finishing,complete]),started_child started rfl rfl⟩
  · rw [done]; exact .decrementing _ absent
  · simp [Storing,left,setStopped,complete]
  · simp [Storing,complete]
  · intro e same
    simp [left,setStopped,setError] at same

theorem fetchSub_keeps (inv : Invariant c) {signal : Signal Error} (done : c.shared.signal i = some signal)
    (left : c.threads (.child i) = complete) (absent : i ∉ c.shared.decremented)
    (ran : (s,new) ∈ exec (.child i) .fetchSub c.shared) : Invariant (c.put (.child i) s (new ++ [])) := by
  obtain ⟨counted,slot,finish,started⟩ := inv
  obtain ⟨rfl,rfl⟩ := Prod.mk.inj (List.mem_singleton.mp ran)
  have few := length_of_not_mem counted.distinct absent
  have pending := counted.pending
  obtain ⟨empty,none⟩ := finish.early few
  have storing : ∀ prog : List (Instr n Error), prog.length ≤ 1 → ¬ Storing prog := by
    rintro prog short (⟨e,rfl⟩ | rfl) <;> simp [setStopped,complete] at short
  refine ⟨⟨?_,?_,?_⟩,slot_child slot rfl rfl rfl rfl ?_ ?_ ?_,?_,started_child started rfl rfl⟩
  · simp only [put_shared,List.length_append,List.length_singleton]; omega
  · exact (List.perm_append_singleton i _).nodup_iff.mpr (List.nodup_cons.mpr ⟨absent,counted.distinct⟩)
  · intro j
    rw [put_shared,put_threads]
    by_cases same : j = i
    · subst same
      rw [done,if_pos rfl]
      split
      · exact .finishing signal (by simp) (.inl rfl)
      · exact .done signal (by simp)
    · have keep := counted.left j
      simpa [same] using keep
  · exact storing _ (by simp [left,complete])
  · exact storing _ (by split <;> simp)
  · intro e same
    simp [left,complete,setError,setStopped] at same
  · by_cases last : c.shared.nPendingOps = 1
    · have finishing : ∀ j, Finishing ((c.put (.child i)
          { c.shared with nPendingOps := c.shared.nPendingOps - 1, decremented := c.shared.decremented ++ [i] }
          ([.loadEmplaced] ++ [])).threads (.child j)) ↔ j = i := by
        intro j
        rw [put_threads]
        split
        · rename_i same; cases same; simp [Finishing]
        · rename_i other
          simp only [none j,false_iff]
          rintro rfl
          exact other rfl
      rw [if_pos last]
      refine ⟨?_,?_,?_,fun _ _ _ => ⟨i,(finishing i).mpr rfl⟩,?_,?_⟩
      · intro j at_j
        rw [(finishing j).mp at_j]
        refine ⟨empty,?_,by simp⟩
        simp only [put_shared,List.length_append,List.length_singleton]; omega
      · intro j at_j
        rw [(finishing j).mp (.inr (.inl at_j)),put_threads_self] at at_j
        simp at at_j
      · intro j at_j
        rw [(finishing j).mp (.inr (.inr at_j)),put_threads_self] at at_j
        simp at at_j
      · simp [empty]
      · simp [empty]
    · rw [if_neg last]
      refine finish_early ?_ empty ?_
      · simp only [put_shared,List.length_append,List.length_singleton]; omega
      · intro j
        rw [put_threads]
        split
        · simp [Finishing]
        · exact none j

theorem slot_finishing (inv : Invariant c) {prog : List (Instr n Error)} (at_i : Finishing (c.threads (.child i)))
    (short : prog.length ≤ 1) (winner : s.winner = c.shared.winner) (emplaced : s.errorEmplaced = c.shared.errorEmplaced)
    (errors : s.errors = c.shared.errors) (signal : s.signal = c.shared.signal) :
    Slot (c.put (.child i) s prog) := by
  have storing : ∀ prog : List (Instr n Error), prog.length ≤ 1 → ¬ Storing prog := by
    rintro prog short (⟨e,rfl⟩ | rfl) <;> simp [setStopped,complete] at short
  refine slot_child inv.slot winner emplaced errors signal (storing _ ?_) (storing _ short) ?_
  · rcases at_i with h | h | h <;> simp [h]
  · intro e same
    rw [same] at at_i
    simp [Finishing,setError,setStopped,complete] at at_i

theorem mem_of_finishing (inv : Invariant c) (at_i : Finishing (c.threads (.child i))) : i ∈ c.shared.decremented :=
  mem_of_length inv.counted.distinct (inv.finish.finisher i at_i).2.1 i

theorem finishing_unique (inv : Invariant c) (at_i : Finishing (c.threads (.child i))) {j : Fin n}
    (at_j : Finishing (c.threads (.child j))) : j = i := by
  have one := (inv.finish.finisher i at_i).2.2
  have two := (inv.finish.finisher j at_j).2.2
  rw [one] at two
  exact (Option.some.inj two).symm

theorem loadEmplaced_keeps (inv : Invariant c) {signal : Signal Error} (done : c.shared.signal i = some signal)
    (left : c.threads (.child i) = [.loadEmplaced]) :
    Invariant (c.put (.child i) c.shared
      (if c.shared.errorEmplaced = 2 then [.visitErrors] else [.setValueUnlessStopped])) := by
  have at_i : Finishing (c.threads (.child i)) := .inl left
  obtain ⟨empty,all,last⟩ := inv.finish.finisher i at_i
  have after : Finishing (if c.shared.errorEmplaced = 2 then [.visitErrors] else [.setValueUnlessStopped] :
      List (Instr n Error)) := by
    split
    · exact .inr (.inl rfl)
    · exact .inr (.inr rfl)
  have other : ∀ j, j ≠ i → ¬ Finishing (c.threads (.child j)) :=
    fun j different at_j => different (finishing_unique inv at_i at_j)
  refine ⟨counted_child inv.counted rfl rfl rfl ?_,slot_finishing inv at_i (by split <;> simp) rfl rfl rfl rfl,
    ⟨?_,?_,?_,fun _ _ _ => ⟨i,by simpa using after⟩,by simp [empty],by simp [empty]⟩,started_child inv.started rfl rfl⟩
  · rw [done]; exact .finishing signal (mem_of_finishing inv at_i) after
  · intro j at_j
    by_cases same : j = i
    · subst same; exact ⟨empty,all,last⟩
    · rw [put_threads_ne c (by simpa using same)] at at_j
      exact absurd at_j (other j same)
  · intro j at_j
    by_cases same : j = i
    · subst same
      by_contra none
      simp only [put_shared] at none
      simp [none] at at_j
    · rw [put_threads_ne c (by simpa using same)] at at_j
      exact absurd (.inr (.inl at_j)) (other j same)
  · intro j at_j
    by_cases same : j = i
    · subst same
      intro two
      simp only [put_shared] at two
      simp [two] at at_j
    · rw [put_threads_ne c (by simpa using same)] at at_j
      exact absurd (.inr (.inr at_j)) (other j same)

theorem deliver_keeps (inv : Invariant c) {signal : Signal Error} (done : c.shared.signal i = some signal)
    (at_i : Finishing (c.threads (.child i))) {sent : Signal Error}
    (outcome : Outcome c.shared ⟨i,sent,c.shared.outerStopRequested⟩) :
    Invariant (c.put (.child i) (deliver c.shared i sent) []) := by
  obtain ⟨empty,all,last⟩ := inv.finish.finisher i at_i
  have none : ∀ j, ¬ Finishing ((c.put (.child i) (deliver c.shared i sent) []).threads (.child j)) := by
    intro j
    rw [put_threads]
    split
    · simp [Finishing]
    · rename_i other
      intro at_j
      exact other (congrArg Party.child (finishing_unique inv at_i at_j))
  refine ⟨counted_child inv.counted rfl rfl rfl ?_,slot_finishing inv at_i (by simp) rfl rfl rfl rfl,
    ⟨?_,?_,?_,?_,?_,?_⟩,started_child inv.started rfl rfl⟩
  · rw [done]; exact .done signal (mem_of_finishing inv at_i)
  · exact fun j at_j => absurd at_j (none j)
  · exact fun j at_j => absurd (.inr (.inl at_j)) (none j)
  · exact fun j at_j => absurd (.inr (.inr at_j)) (none j)
  · simp [deliver]
  · simp [deliver,empty]
  · intro d member
    obtain rfl : d = _ := by simpa [deliver,empty] using member
    exact ⟨all,last,outcome⟩

theorem child_keeps (inv : Invariant c) {x : Instr n Error} {rest : List (Instr n Error)}
    (left : c.threads (.child i) = x :: rest) (ran : (s,new) ∈ exec (.child i) x c.shared) :
    Invariant (c.put (.child i) s (new ++ rest)) := by
  have shape := inv.counted.left i
  rw [left] at shape
  generalize done : c.shared.signal i = signal at shape
  cases shape with
  | exchanging e absent => exact exchange_keeps inv done left absent ran
  | emplacing e absent =>
    obtain ⟨rfl,rfl⟩ := Prod.mk.inj (List.mem_singleton.mp ran)
    exact emplace_keeps inv done left absent
  | storing e absent =>
    obtain ⟨rfl,rfl⟩ := Prod.mk.inj (List.mem_singleton.mp ran)
    exact storeEmplaced_keeps inv done left absent
  | stopping signal absent =>
    obtain ⟨rfl,rfl⟩ := Prod.mk.inj (List.mem_singleton.mp ran)
    exact requestStop_keeps inv done left absent
  | decrementing signal absent => exact fetchSub_keeps inv done left absent ran
  | finishing signal member at_i =>
    rw [← left] at at_i
    rcases at_i with h | h | h
    · obtain ⟨rfl,rfl⟩ := List.cons.inj (left.symm.trans h)
      obtain ⟨rfl,rfl⟩ := Prod.mk.inj (List.mem_singleton.mp ran)
      simpa using loadEmplaced_keeps inv done h
    · obtain ⟨rfl,rfl⟩ := List.cons.inj (left.symm.trans h)
      have two := inv.finish.visiting i h
      obtain ⟨w,won⟩ : ∃ w, c.shared.winner = some w := by
        rw [← Option.isSome_iff_exists,Option.isSome_iff_ne_none]
        intro unwon
        have := inv.slot.unclaimed unwon
        omega
      obtain ⟨e,failed,stored⟩ := inv.slot.claimed w won
      have errors : c.shared.errors = some e := by
        rcases stored with ⟨_,one⟩ | ⟨_,_,errors⟩ | ⟨_,_,errors⟩
        · omega
        · exact errors
        · exact errors
      simp only [exec,errors,List.mem_singleton,Prod.mk.injEq] at ran
      obtain ⟨rfl,rfl⟩ := ran
      exact deliver_keeps inv done (.inr (.inl h)) ⟨fun _ => ⟨e,errors,rfl⟩,fun other => absurd two other⟩
    · obtain ⟨rfl,rfl⟩ := List.cons.inj (left.symm.trans h)
      obtain ⟨rfl,rfl⟩ := Prod.mk.inj (List.mem_singleton.mp ran)
      have other := inv.finish.valuing i h
      exact deliver_keeps inv done (.inr (.inr h)) ⟨fun two => absurd two other,fun _ => rfl⟩

theorem start_keeps (inv : Invariant c) {x : Instr n Error} {rest : List (Instr n Error)}
    (left : c.threads .operation = x :: rest) (ran : (s,new) ∈ exec .operation x c.shared) :
    Invariant (c.put .operation s (new ++ rest)) := by
  obtain ⟨counted,slot,finish,⟨waiting,starts,order,quiet,begun⟩⟩ := inv
  obtain ⟨k,rfl⟩ := starts x (by simp [left])
  obtain ⟨rfl,rfl⟩ := Prod.mk.inj (List.mem_singleton.mp ran)
  refine ⟨?_,?_,?_,⟨?_,?_,?_,?_,?_⟩⟩
  · obtain ⟨pending,distinct,keep⟩ := counted
    exact ⟨pending,distinct,by simpa [put_threads] using keep⟩
  · obtain ⟨unclaimed,claimed,losers,raced⟩ := slot
    exact ⟨unclaimed,by simpa [put_threads,Stored] using claimed,by simpa [put_threads] using losers,
      by simpa [put_threads] using raced⟩
  · obtain ⟨finisher,visiting,valuing,unfinished,once,delivered⟩ := finish
    exact ⟨by simpa [put_threads] using finisher,by simpa [put_threads] using visiting,
      by simpa [put_threads] using valuing,by simpa [put_threads] using unfinished,once,delivered⟩
  · intro j
    rw [left] at order
    have before := waiting j
    rw [left] at before
    by_cases same : j = k
    · subst same
      simpa using (List.nodup_cons.mp order).1
    · simpa [same] using before
  · intro y member
    exact starts y (by rw [left]; exact List.mem_cons_of_mem _ (by simpa using member))
  · rw [left] at order
    simpa using (List.nodup_cons.mp order).2
  · simpa [put_threads] using quiet
  · intro j completed
    have := begun j completed
    by_cases same : j = k
    · subst same; simp
    · simpa [same] using this

theorem complete_keeps (inv : Invariant c) {signal : Signal Error} (started : c.shared.started i = true)
    (running : c.shared.signal i = none) :
    Invariant (c.put (.child i) { c.shared with signal := Function.update c.shared.signal i (some signal) }
      (handler signal)) := by
  obtain ⟨counted,slot,finish,begin⟩ := inv
  have absent : i ∉ c.shared.decremented := by
    have shape := counted.left i
    rw [running] at shape
    generalize c.threads (.child i) = prog at shape
    cases shape with
    | running absent => exact absent
  have few := length_of_not_mem counted.distinct absent
  obtain ⟨empty,none⟩ := finish.early few
  have long : ¬ Finishing (handler signal : List (Instr n Error)) := by
    cases signal <;> simp [Finishing,handler,setStopped,setError,complete]
  have apart : ¬ Storing (handler signal : List (Instr n Error)) := by
    cases signal <;> simp [Storing,handler,setStopped,setError,complete]
  refine ⟨⟨counted.pending,counted.distinct,?_⟩,⟨slot.unclaimed,?_,?_,?_⟩,finish_early few empty ?_,?_⟩
  · intro j
    rw [put_threads]
    by_cases same : j = i
    · subst same
      simp only [put_shared,Function.update_self,↓reduceIte]
      cases signal with
      | value _ => exact .decrementing _ absent
      | error e => exact .exchanging e absent
      | stopped => exact .stopping _ absent
    · simpa [same] using counted.left j
  · intro w won
    obtain ⟨e,failed,stored⟩ := slot.claimed w won
    have other : w ≠ i := by
      rintro rfl
      rw [running] at failed
      cases failed
    refine ⟨e,by simpa [other] using failed,?_⟩
    rw [put_threads_ne c (by simpa using other)]
    exact stored
  · intro j lost
    rw [put_threads]
    split
    · exact apart
    · exact slot.losers j lost
  · intro j e failed free
    by_cases same : j = i
    · subst same
      obtain rfl : signal = .error e := by simpa using failed
      simp [handler]
    · rw [put_threads_ne c (by simpa using same)]
      exact slot.raced j e (by simpa [same] using failed) free
  · intro j
    rw [put_threads]
    split
    · exact long
    · exact none j
  · obtain ⟨waiting,starts,order,quiet,begun⟩ := begin
    refine ⟨by simpa [put_threads] using waiting,by simpa [put_threads] using starts,
      by simpa [put_threads] using order,by simpa [put_threads] using quiet,?_⟩
    intro j completed
    by_cases same : j = i
    · subst same; exact started
    · exact begun j (by simpa [same] using completed)

end

theorem initial_invariant : Invariant (initial n Error) := by
  refine ⟨⟨by simp [initial],by simp [initial],fun i => .running (by simp [initial])⟩,
    ⟨fun _ => rfl,by simp [initial],by simp [initial,Storing],by simp [initial]⟩,
    ⟨?_,by simp [initial],by simp [initial],?_,by simp [initial],by simp [initial]⟩,⟨?_,?_,?_,rfl,by simp [initial]⟩⟩
  · simp [initial,Finishing]
  · intro _ all positive
    simp [initial] at all
    omega
  · simp [initial]
  · simp [initial]
  · exact (List.nodup_finRange n).map (fun _ _ same => by cases same; rfl)

theorem reach_invariant (reach : Reach (machine n Error) Any (initial n Error) c) : Invariant c := by
  refine reach.invariant initial_invariant ?_ ?_
  · intro c p x rest s new inv _ left ran
    cases p with
    | operation => exact start_keeps inv left ran
    | child i => exact child_keeps inv left ran
    | environment => simp [inv.started.quiet] at left
  · intro c e s prog inv _ idle accepted
    cases e with
    | complete i signal =>
      simp only [machine,accept] at accepted
      split at accepted
      · rename_i ok
        cases accepted
        exact complete_keeps inv ok.1 (Option.isNone_iff_eq_none.mp ok.2)
      · cases accepted
    | requestStop =>
      cases accepted
      obtain ⟨⟨pending,distinct,keep⟩,⟨unclaimed,claimed,losers,raced⟩,
        ⟨finisher,visiting,valuing,unfinished,once,delivered⟩,⟨waiting,starts,order,quiet,begun⟩⟩ := inv
      refine ⟨⟨pending,distinct,?_⟩,⟨unclaimed,?_,?_,?_⟩,⟨?_,?_,?_,?_,once,delivered⟩,
        ⟨?_,?_,?_,by simp [machine,put_threads],begun⟩⟩ <;>
        simpa [machine,put_threads]

theorem idle_of_completions (inv : Invariant c) (completed : c.shared.completions ≠ []) (p : Party n) :
    c.threads p = [] := by
  obtain ⟨d,member⟩ := List.exists_mem_of_ne_nil _ completed
  have all := (inv.finish.delivered d member).1
  have counted := mem_of_length inv.counted.distinct all
  have signalled : ∀ i, c.shared.signal i ≠ none := by
    intro i running
    have shape := inv.counted.left i
    rw [running] at shape
    generalize c.threads (.child i) = prog at shape
    cases shape with
    | running absent => exact absent (counted i)
  cases p with
  | operation =>
    apply List.eq_nil_iff_forall_not_mem.mpr
    intro x member
    obtain ⟨i,rfl⟩ := inv.started.starts x member
    have waiting := (inv.started.waiting i).mp member
    rw [inv.started.begun i (signalled i)] at waiting
    cases waiting
  | child i =>
    have shape := inv.counted.left i
    generalize left : c.threads (.child i) = prog at shape
    have closed : ¬ Finishing prog := fun at_i => completed (inv.finish.finisher i (left ▸ at_i)).1
    generalize c.shared.signal i = signal at shape
    cases shape with
    | finishing _ _ at_i => exact absurd at_i closed
    | done => rfl
    | running absent => rfl
    | exchanging _ absent | emplacing _ absent | storing _ absent | stopping _ absent | decrementing _ absent =>
      exact absurd (counted i) absent
  | environment => exact inv.started.quiet

/-- However the completions of the children interleave, the outer receiver is
    completed at most once, by the last child to decrement the counter; once all
    children have completed and all handlers have returned, it has been
    completed. If a child failed, the signal is the fully stored error of the
    one child that won the exchange, else it follows the outer stop token. After
    the completion no party has a step left and no child completes any more. -/
theorem merge_each_completes_once (positive : 0 < n) (reach : Reach (machine n Error) Any (initial n Error) c) :
    c.shared.completions.length ≤ 1 ∧
    (∀ d ∈ c.shared.completions,
      c.shared.decremented.Nodup ∧ c.shared.decremented.length = n ∧ c.shared.decremented.getLast? = some d.child ∧
      ((∃ i e, c.shared.signal i = some (.error e)) →
        ∃ w e, c.shared.winner = some w ∧ c.shared.signal w = some (.error e) ∧ c.shared.errorEmplaced = 2 ∧
          c.shared.errors = some e ∧ d.signal = .error e) ∧
      ((∀ i e, c.shared.signal i ≠ some (.error e)) → d.signal = setValueUnlessStopped d.stopRequested)) ∧
    (c.shared.completions ≠ [] →
      (∀ p, c.threads p = []) ∧ ∀ i signal, (machine n Error).accept (.complete i signal) c.shared = none) ∧
    ((∀ i, c.shared.signal i ≠ none) → (∀ p, c.threads p = []) → c.shared.completions.length = 1) := by
  have inv := reach_invariant reach
  refine ⟨inv.finish.once,?_,?_,?_⟩
  · intro d member
    obtain ⟨all,last,outcome⟩ := inv.finish.delivered d member
    have idle := idle_of_completions inv (List.ne_nil_of_mem member)
    refine ⟨inv.counted.distinct,all,last,?_,?_⟩
    · rintro ⟨i,e,failed⟩
      obtain ⟨w,won⟩ : ∃ w, c.shared.winner = some w := by
        rw [← Option.isSome_iff_exists,Option.isSome_iff_ne_none]
        intro unwon
        have := inv.slot.raced i e failed unwon
        simp [idle,setError] at this
      obtain ⟨e',failed',stored⟩ := inv.slot.claimed w won
      simp only [Stored,idle] at stored
      obtain ⟨_,two,errors⟩ := stored.resolve_left (by simp) |>.resolve_left (by simp)
      obtain ⟨e'',errors',sent⟩ := outcome.1 two
      obtain rfl : e' = e'' := Option.some.inj (errors.symm.trans errors')
      exact ⟨w,e',won,failed',two,errors,sent⟩
    · intro succeeded
      apply outcome.2
      intro two
      cases won : c.shared.winner with
      | none => have := inv.slot.unclaimed won; omega
      | some w =>
        obtain ⟨e,failed,_⟩ := inv.slot.claimed w won
        exact succeeded w e failed
  · intro completed
    refine ⟨idle_of_completions inv completed,?_⟩
    intro i signal
    obtain ⟨d,member⟩ := List.exists_mem_of_ne_nil _ completed
    have counted := mem_of_length inv.counted.distinct (inv.finish.delivered d member).1 i
    have shape := inv.counted.left i
    generalize c.threads (.child i) = prog at shape
    cases done : c.shared.signal i with
    | none =>
      rw [done] at shape
      cases shape with
      | running absent => exact absurd counted absent
    | some sent => simp [machine,accept,done]
  · intro completed idle
    have once := inv.finish.once
    have counted : ∀ i, i ∈ c.shared.decremented := by
      intro i
      have shape := inv.counted.left i
      rw [idle] at shape
      obtain ⟨signal,done⟩ := Option.ne_none_iff_exists'.mp (completed i)
      rw [done] at shape
      cases shape with
      | done _ member => exact member
      | finishing _ member _ => exact member
    have all := length_of_mem inv.counted.distinct counted
    cases list : c.shared.completions with
    | nil =>
      obtain ⟨i,at_i⟩ := inv.finish.unfinished list all positive
      simp [idle,Finishing] at at_i
    | cons d rest => simp [list] at once ⊢; exact once

/-- Two children of which the first fails while the second is stopped for it. -/
theorem merge_each_completes_once_failing : ∃ c, Reach (machine 2 Nat) Any (initial 2 Nat) c ∧
    c.shared.completions.map (·.signal) = [.error 7] ∧ c.shared.completions.length ≤ 1 := by
  obtain ⟨c,reach,sent⟩ := exists_of_follow (machine 2 Nat) Any (initial 2 Nat) (fun _ _ => true) (fun _ _ _ => trivial)
    [(.run .operation,0),(.run .operation,0),(.call (.complete 0 (.error 7)),0),(.run (.child 0),0),
      (.run (.child 0),0),(.run (.child 0),0),(.run (.child 0),0),(.call (.complete 1 .stopped),0),(.run (.child 1),0),
      (.run (.child 1),0),(.run (.child 0),0),(.run (.child 0),0),(.run (.child 0),0)]
    (fun c => c.shared.completions.map (·.signal) = [.error 7]) (by decide)
  exact ⟨c,reach,by simpa using sent,(merge_each_completes_once (by decide) reach).1⟩

end SendersIo.MergeEach
