import SendersIo.First
import SendersIo.Last

/-!
The lifetimes of the results of `first` and `last`. `first` constructs a result at most
once and never destroys it. `last` constructs a result for every item and destroys what is
in the slot when its source completes with `set_value`. The end of the operation destroys
nothing, so a run is balanced only if these match.
-/
namespace SendersIo.ResultLifetimes
open SendersIo.Interleaving SendersIo.ManualLifetime SendersIo.Signals
set_option linter.unusedSimpArgs false

variable {Value Error : Type}

/-! ### The storage of `first` -/

/-- What an instruction of `first` does to the storage of its result. -/
def firstInstr (s : Storage (Completion Value Error)) : First.Instr Value Error → Storage (Completion Value Error)
  | .construct r => s.construct r
  | .visitResult => s.read
  | _ => s

/-- What a step does. -/
def firstStep (s : Storage (Completion Value Error))
    (step : Config First.Party (First.Operation Value Error) (First.Instr Value Error) ×
      Label First.Party (First.Event Value Error)) : Storage (Completion Value Error) :=
  match executed step with
  | some i => firstInstr s i
  | none => s

/-- The storage after the steps of a run of `first` whose items are not in lock step. -/
def firstStorage (steps : List (Config First.Party (First.Operation Value Error) (First.Instr Value Error) ×
    Label First.Party (First.Event Value Error))) : Storage (Completion Value Error) :=
  steps.foldl firstStep .empty

/-- `result_type::emplace` of `first` for items in lock step. The storage has no `index`; what
    it would return for an object, or for none, is a parameter. -/
def emplaceLockStep (index : Option (Completion Value Error) → Nat) (s : Storage (Completion Value Error))
    (r : Completion Value Error) : Storage (Completion Value Error) :=
  if index s.value = 0 then s.construct r else s

/-- The storage after a run of `first` whose items complete one after the other. -/
def lockStepStorage (index : Option (Completion Value Error) → Nat) (items : List (Completion Value Error))
    (source : Signal Error) : Storage (Completion Value Error) :=
  match source with
  | .value _ => (items.foldl (emplaceLockStep index) .empty).read
  | _ => items.foldl (emplaceLockStep index) .empty

/-! ### Storage that is never destroyed -/

/-- No object was destroyed, and one is there as soon as one was constructed. -/
structure Kept (s : Storage (Completion Value Error)) : Prop where
  destroyed : s.destroyed = []
  there : s.value = none → s.constructed = 0

theorem kept_empty : Kept (.empty : Storage (Completion Value Error)) := ⟨rfl,fun _ => rfl⟩

section
variable {s : Storage (Completion Value Error)} {r : Completion Value Error}

theorem Kept.construct (kept : Kept s) : Kept (s.construct r) := ⟨kept.destroyed,by simp⟩

theorem Kept.read (kept : Kept s) : Kept s.read := ⟨kept.destroyed,kept.there⟩

/-- What is never destroyed is balanced just if nothing was constructed. -/
theorem Kept.balanced_iff (kept : Kept s) : s.Balanced ↔ s.value = none := by
  rw [Storage.balanced_iff]
  constructor
  · intro balanced
    simp [Storage.value,balanced.1]
  · intro nothing
    have object : s.object = none := by simpa [Storage.value] using nothing
    have all := s.accounted
    rw [kept.there nothing,object] at all
    simp only [Option.toList_none,List.map_nil,List.nil_append,List.range_zero,List.perm_nil,List.append_eq_nil_iff] at all
    exact ⟨object,all.1⟩

end

/-! ### Runs of `first` -/

section
variable {c : Config First.Party (First.Operation Value Error) (First.Instr Value Error)}
  {steps : List (Config First.Party (First.Operation Value Error) (First.Instr Value Error) ×
    Label First.Party (First.Event Value Error))}

/-- The storage follows the result of the operation. -/
theorem firstInstr_value {p : First.Party} {i : First.Instr Value Error} {o o' : First.Operation Value Error}
    {new : List (First.Instr Value Error)} {s : Storage (Completion Value Error)} (ran : (o',new) ∈ First.exec p i o)
    (same : s.value = o.result) : (firstInstr s i).value = o'.result := by
  unfold First.exec at ran
  split at ran
  case h_1 | h_5 | h_6 =>
    split at ran
    all_goals
      obtain ⟨rfl,rfl⟩ := Prod.mk.inj (List.mem_singleton.mp ran)
      exact same
  case h_2 =>
    obtain ⟨rfl,rfl⟩ := Prod.mk.inj (List.mem_singleton.mp ran)
    rfl
  case h_8 => cases ran
  all_goals
    obtain ⟨rfl,rfl⟩ := Prod.mk.inj (List.mem_singleton.mp ran)
    exact same

theorem firstStorage_kept (run : Run First.machine Any First.initial steps c) :
    Kept (firstStorage steps) ∧ (firstStorage steps).value = c.shared.result := by
  refine run.invariant (I := fun steps c => Kept (firstStorage steps) ∧ (firstStorage steps).value = c.shared.result)
    ⟨kept_empty,rfl⟩ ?_ ?_
  · rintro steps c p i rest s new _ ⟨kept,same⟩ _ left ran
    have stepped : firstStorage (steps ++ [(c,.run p)]) = firstInstr (firstStorage steps) i := by
      simp [firstStorage,firstStep,executed_run left]
    rw [stepped]
    refine ⟨?_,firstInstr_value ran same⟩
    cases i with
    | construct r => exact kept.construct
    | visitResult => exact kept.read
    | _ => exact kept
  · rintro steps c e s prog _ ⟨kept,same⟩ _ _ accepted
    have stepped : firstStorage (steps ++ [(c,.call e)]) = firstStorage steps := by
      simp [firstStorage,firstStep]
    rw [stepped]
    refine ⟨kept,same.trans ?_⟩
    cases e <;>
      simp only [First.machine,First.accept] at accepted <;>
      split at accepted <;>
      cases accepted <;> rfl

/-- When the source is done, the result is there just if there was an item. -/
theorem result_eq_none_iff {slot : First.Slot Value Error} (tracks : First.Tracks slot c) (ended : First.Ended c) :
    c.shared.result = none ↔ c.shared.items = [] := by
  have all : c.shared.AllFinished := by
    obtain ⟨done,idle⟩ := ended
    have source := tracks.source
    rw [idle] at source
    cases source with
    | running unset => simp [unset] at done
    | completed _ _ _ all | forwarded _ _ _ all => exact all
    | misvisited _ empty => simp [First.Operation.AllFinished,empty]
  rw [tracks.result]
  constructor
  · intro nothing
    by_contra nonempty
    obtain ⟨x,r,here⟩ := First.Slot.published_of_writer (tracks.taken all nonempty) (tracks.settled all)
    simp [here,First.Slot.result] at nothing
  · intro empty
    rw [tracks.untaken empty]
    rfl

end

/-! ### Runs of `first` in lock step -/

section
variable {index : Option (Completion Value Error) → Nat}

theorem emplaceLockStep_kept {s : Storage (Completion Value Error)} (kept : Kept s) (r : Completion Value Error) :
    Kept (emplaceLockStep index s r) := by
  unfold emplaceLockStep
  split
  · exact kept.construct
  · exact kept

/-- A result that is there stays, or another is constructed over it. -/
theorem emplaceLockStep_value (unconstructed : index none = 0) (s : Storage (Completion Value Error))
    (r : Completion Value Error) : (emplaceLockStep index s r).value ≠ none := by
  unfold emplaceLockStep
  split
  · simp
  · rename_i other
    intro nothing
    rw [nothing] at other
    exact other unconstructed

theorem foldl_emplaceLockStep (unconstructed : index none = 0) (items : List (Completion Value Error)) :
    Kept (items.foldl (emplaceLockStep index) .empty) ∧
    ((items.foldl (emplaceLockStep index) .empty).value = none ↔ items = []) := by
  induction items using List.reverseRecOn with
  | nil => exact ⟨kept_empty,by simp⟩
  | append_singleton items r ih =>
    rw [List.foldl_append]
    exact ⟨emplaceLockStep_kept ih.1 r,by simpa using emplaceLockStep_value unconstructed _ r⟩

theorem lockStepStorage_balanced_iff (unconstructed : index none = 0) (items : List (Completion Value Error))
    (source : Signal Error) : (lockStepStorage index items source).Balanced ↔ items = [] := by
  obtain ⟨kept,nothing⟩ := foldl_emplaceLockStep unconstructed items
  cases source with
  | value v => exact kept.read.balanced_iff.trans nothing
  | error e => exact kept.balanced_iff.trans nothing
  | stopped => exact kept.balanced_iff.trans nothing

end

/-! ### Runs of `last` -/

/-- The results of `last` are all destroyed if there was none, or one that was also read. -/
theorem last_balanced_iff {lockStep : Bool} {c : Config Last.Party (Last.Operation Value Error) (Last.Instr Value Error)}
    (tracks : Last.Tracks lockStep c) (ended : Last.Ended c) : c.shared.slot.Balanced ↔
      c.shared.items = [] ∨ c.shared.items.length = 1 ∧ c.shared.source = some (.value ()) := by
  obtain ⟨done,idle⟩ := ended
  have source := tracks.source
  rw [idle] at source
  rw [Storage.balanced_iff]
  cases source with
  | running unset => simp [unset] at done
  | completed x r set_ all last object lost =>
    have length := tracks.length_stored all
    have positive : 0 < c.shared.stored.length := List.length_pos_iff.mpr fun nothing => by simp [nothing] at last
    rw [← List.length_eq_zero_iff,← List.length_eq_zero_iff,lost,← length]
    simp only [object,set_,true_and,and_true]
    omega
  | misread set_ all nothing object lost =>
    have length := tracks.length_stored all
    rw [nothing] at length
    simp [object,lost,List.length_eq_zero_iff.mp length.symm]
  | forwarded signal r set_ all other filled =>
    have length := tracks.length_stored all
    have value := filled.value
    rw [← List.length_eq_zero_iff,← List.length_eq_zero_iff,filled.lost,← length,set_,List.length_eq_zero_iff]
    simp only [Option.some.injEq,other,and_false,or_false]
    constructor
    · intro balanced
      simpa [Storage.value,balanced.1] using value.symm
    · intro nothing
      simpa [Storage.value,nothing] using value

/-- The results that `first` and `last` construct are all destroyed once, and none is constructed
    over another, if and only if no item completes, or just one item of `last`, whose source
    then completes with `set_value`. -/
theorem lifetimes_balanced_iff {Value Error : Type} (index : Option (Completion Value Error) → Nat)
    (unconstructed : index none = 0) :
    (∀ lockStep, ∀ c : Config Last.Party (Last.Operation Value Error) (Last.Instr Value Error),
      Reach (Last.machine lockStep) Any Last.initial c → Last.Ended c → (c.shared.slot.Balanced ↔
        c.shared.items = [] ∨ c.shared.items.length = 1 ∧ c.shared.source = some (.value ()))) ∧
    (∀ steps, ∀ c : Config First.Party (First.Operation Value Error) (First.Instr Value Error),
      Run First.machine Any First.initial steps c → First.Ended c →
        ((firstStorage steps).Balanced ↔ c.shared.items = [])) ∧
    ∀ (items : List (Completion Value Error)) (source : Signal Error),
      (lockStepStorage index items source).Balanced ↔ items = [] := by
  refine ⟨fun lockStep c reach ended => last_balanced_iff (Last.tracks_reach reach) ended,fun steps c run ended => ?_,
    lockStepStorage_balanced_iff unconstructed⟩
  obtain ⟨kept,same⟩ := firstStorage_kept run
  obtain ⟨slot,tracks⟩ := First.tracks_reach run.reach
  rw [kept.balanced_iff,same]
  exact result_eq_none_iff tracks ended

/-- One item of `last`, whose source completes with `set_value`. -/
theorem lifetimes_balanced_one : ∃ c : Config Last.Party (Last.Operation Nat Nat) (Last.Instr Nat Nat),
    c.shared.slot.Balanced ∧ c.shared.items = [(0,.value 4)] := by
  obtain ⟨c,reach,computed⟩ := exists_of_follow (Last.machine true) Any
    (Last.initial : Config Last.Party (Last.Operation Nat Nat) (Last.Instr Nat Nat)) (fun _ _ => true)
    (fun _ _ _ => trivial)
    [(.call (.item 0 (.value 4)),0),(.run (.item 0),0),(.run (.item 0),0),(.call (.source (.value ())),0),(.run .source,0),
      (.run .source,0),(.run .source,0)]
    (fun c => c.shared.source = some (.value ()) ∧ c.shared.items = [(0,.value 4)] ∧ (c.threads .source).isEmpty) (by decide)
  obtain ⟨set_,items,idle⟩ := of_decide_eq_true computed
  have ended : Last.Ended c := ⟨by simp [set_],List.isEmpty_iff.mp idle⟩
  have balanced := (lifetimes_balanced_iff (fun result : Option (Completion Nat Nat) => if result.isNone then 0 else 1)
    rfl).1 true c reach ended
  exact ⟨c,balanced.mpr (.inr ⟨by simp [items],set_⟩),items⟩

/-- The result of the first of two items of `last` is lost when the second constructs its own. -/
theorem second_item_overwrites : ¬ ∀ lockStep, ∀ c : Config Last.Party (Last.Operation Nat Nat) (Last.Instr Nat Nat),
    Reach (Last.machine lockStep) Any Last.initial c → Last.Ended c → c.shared.slot.Balanced := by
  intro claimed
  obtain ⟨c,reach,computed⟩ := exists_of_follow (Last.machine true) Any
    (Last.initial : Config Last.Party (Last.Operation Nat Nat) (Last.Instr Nat Nat)) (fun _ _ => true)
    (fun _ _ _ => trivial)
    [(.call (.item 0 (.value 4)),0),(.run (.item 0),0),(.run (.item 0),0),(.call (.item 1 (.value 5)),0),
      (.run (.item 1),0),(.run (.item 1),0),(.call (.source (.value ())),0),(.run .source,0),(.run .source,0),
      (.run .source,0)]
    (fun c => c.shared.source = some (.value ()) ∧ (c.threads .source).isEmpty ∧ c.shared.slot.lost = [0]) (by decide)
  obtain ⟨set_,idle,lost⟩ := of_decide_eq_true computed
  have balanced := claimed true c reach ⟨by simp [set_],List.isEmpty_iff.mp idle⟩
  rw [balanced.2] at lost
  cases lost

end SendersIo.ResultLifetimes
