import Mathlib.Data.List.Nodup
import Mathlib.Data.List.Permutation
import SendersIo.Interleaving

/-!
The asynchronous mutex. `start` pushes the operation onto a lock-free queue;
whoever then wins the flag completes everything that is queued, releases the
flag and looks at the queue once more. Completions of the mutex never overlap,
no operation is completed twice, and none is left behind when every `start` has
returned.
-/
namespace SendersIo.AsyncMutex
open SendersIo.Interleaving
set_option linter.unusedSimpArgs false

variable {Op : Type} [DecidableEq Op]

/-- `mutex_::base` with what its operations have seen so far: those started, the
    completion callbacks that are running, and all completion calls in order. -/
structure Base (Op : Type) where
  locked : Bool
  inflightOperations : List Op
  started : List Op
  running : List Op
  completed : List Op

/-- The atomic steps of `lock_operation::start`. -/
inductive Instr (Op : Type) where
  | pushFront
  | compareExchange
  | popAll
  | completeNext (pending : List Op)
  | returned (op : Op)
  | storeFalse
  | checkEmpty
  deriving DecidableEq

/-- The head of the loop over popped operations. -/
def whilePending (pending : List Op) (done : Instr Op) : List (Instr Op) :=
  if pending.isEmpty then [done] else [.completeNext pending]

/-- One step of `start` of the operation `self`. The queue returns what it holds
    in an order of its own. -/
def exec (self : Op) : Instr Op → Base Op → List (Base Op × List (Instr Op))
  | .pushFront,s => [({ s with inflightOperations := self :: s.inflightOperations },[])]
  | .compareExchange,s => if s.locked then [(s,[])] else [({ s with locked := true },[.popAll])]
  | .popAll,s =>
    s.inflightOperations.permutations.map fun pending =>
      ({ s with inflightOperations := [] },whilePending pending .storeFalse)
  | .completeNext [],_ => []
  | .completeNext (next :: pending),s =>
    [({ s with running := next :: s.running, completed := s.completed ++ [next] },
      .returned next :: whilePending pending .popAll)]
  | .returned op,s => [({ s with running := s.running.erase op },[])]
  | .storeFalse,s => [({ s with locked := false },[.checkEmpty])]
  | .checkEmpty,s => [(s,if s.inflightOperations.isEmpty then [] else [.compareExchange])]

/-- `lock_operation::start` as a program. -/
def startOp : List (Instr Op) := [.pushFront,.compareExchange]

/-- The environment starts every operation at most once, from any thread and
    from inside a completion as well. -/
def accept (op : Op) (s : Base Op) : Option (Base Op × List (Instr Op)) :=
  if op ∈ s.started then none else some ({ s with started := op :: s.started },startOp)

def machine (Op : Type) [DecidableEq Op] : Machine Op (Base Op) (Instr Op) Op where
  exec := exec
  accept := accept
  party op := op

def initial (Op : Type) : Config Op (Base Op) (Instr Op) :=
  ⟨⟨false,[],[],[],[]⟩,fun _ => []⟩

/-! ### Who holds the flag -/

/-- The operations popped and not yet completed by a `start` that holds the flag. -/
def pendingOf : List (Instr Op) → Option (List Op)
  | [.popAll] => some []
  | [.completeNext pending] => some pending
  | [.returned _,.popAll] => some []
  | [.returned _,.completeNext pending] => some pending
  | [.storeFalse] => some []
  | _ => none

/-- The completion that such a `start` is running. -/
def runningOf : List (Instr Op) → List Op
  | .returned op :: _ => [op]
  | _ => []

/-- What a `start` has left while it does not hold the flag. -/
inductive Free : List (Instr Op) → Prop
  | done : Free []
  | begun : Free startOp
  | trying : Free [.compareExchange]
  | checking : Free [.checkEmpty]

/-- A `start` that will still look at the queue. -/
def Rechecks (prog : List (Instr Op)) : Prop :=
  prog = [.compareExchange] ∨ prog = [.checkEmpty] ∨ (pendingOf prog).isSome = true

/-- What the holder has popped and not yet completed. -/
def popped (c : Config Op (Base Op) (Instr Op)) : Option Op → List Op
  | none => []
  | some h => (pendingOf (c.threads h)).getD []

/-- `h` is the operation whose `start` holds the flag. -/
structure Held (c : Config Op (Base Op) (Instr Op)) (h : Option Op) : Prop where
  locked : c.shared.locked = h.isSome
  holder : ∀ x, h = some x → (pendingOf (c.threads x)).isSome = true
  others : ∀ x, h ≠ some x → Free (c.threads x)
  running : c.shared.running = h.elim [] fun x => runningOf (c.threads x)
  distinct : (c.shared.inflightOperations ++ popped c h ++ c.shared.completed).Nodup
  placed : ∀ x, x ∈ c.shared.inflightOperations ++ popped c h ++ c.shared.completed ↔
    x ∈ c.shared.started ∧ c.threads x ≠ startOp
  unstarted : ∀ x, c.threads x ≠ [] → x ∈ c.shared.started
  recheck : c.shared.inflightOperations ≠ [] → ∃ x, Rechecks (c.threads x)

omit [DecidableEq Op] in
theorem pendingOf_whilePending (pending : List Op) (done : Instr Op) (holds : pendingOf [done] = some []) :
    pendingOf (whilePending pending done) = some pending := by
  cases pending with
  | nil => simpa [whilePending] using holds
  | cons op rest => simp [whilePending,pendingOf]

omit [DecidableEq Op] in
theorem pendingOf_returned (op : Op) (pending : List Op) :
    pendingOf (.returned op :: whilePending pending .popAll) = some pending := by
  cases pending <;> simp [whilePending,pendingOf]

omit [DecidableEq Op] in
theorem runningOf_whilePending (pending : List Op) (done : Instr Op) (other : runningOf [done] = []) :
    runningOf (whilePending pending done) = [] := by
  cases pending with
  | nil => simpa [whilePending] using other
  | cons op rest => simp [whilePending,runningOf]

omit [DecidableEq Op] in
/-- What the holder of the flag has left. -/
theorem pendingOf_isSome {prog : List (Instr Op)} (holds : (pendingOf prog).isSome = true) :
    prog = [.popAll] ∨ (∃ pending, prog = [.completeNext pending]) ∨
      (∃ op tail, prog = .returned op :: tail ∧ runningOf tail = [] ∧ pendingOf tail = pendingOf prog) ∨
      prog = [.storeFalse] := by
  unfold pendingOf at holds
  split at holds
  · exact .inl rfl
  · exact .inr (.inl ⟨_,rfl⟩)
  · exact .inr (.inr (.inl ⟨_,_,rfl,rfl,rfl⟩))
  · exact .inr (.inr (.inl ⟨_,_,rfl,rfl,rfl⟩))
  · exact .inr (.inr (.inr rfl))
  · simp at holds

section
variable {c : Config Op (Base Op) (Instr Op)} {h : Option Op} {x : Op}

theorem popped_put_other (other : h ≠ some x) (s : Base Op) (prog : List (Instr Op)) :
    popped (c.put x s prog) h = popped c h := by
  cases h with
  | none => rfl
  | some y => simp [popped,put_threads_ne c (fun same : y = x => other (congrArg some same))]

omit [DecidableEq Op] in
theorem held_locked (held : Held c h) (locked : c.shared.locked = true) : ∃ y, h = some y := by
  rw [held.locked] at locked
  exact Option.isSome_iff_exists.mp locked

/-- Steps of an operation that does not hold the flag and does not take it: it
    changes only what it has left, the queue and the started operations. -/
theorem held_free_step (held : Held c h) (other : h ≠ some x) (s : Base Op) (prog : List (Instr Op))
    (free : Free prog) (locked : s.locked = c.shared.locked) (running : s.running = c.shared.running)
    (distinct : (s.inflightOperations ++ popped c h ++ s.completed).Nodup)
    (placed : ∀ y, y ∈ s.inflightOperations ++ popped c h ++ s.completed ↔
      y ∈ s.started ∧ (c.put x s prog).threads y ≠ startOp)
    (unstarted : ∀ y, (c.put x s prog).threads y ≠ [] → y ∈ s.started)
    (recheck : s.inflightOperations ≠ [] → ∃ y, Rechecks ((c.put x s prog).threads y)) :
    Held (c.put x s prog) h where
  locked := by simpa [locked] using held.locked
  holder := by
    intro y same
    have different : y ≠ x := fun equal => other (same.trans (congrArg some equal))
    rw [put_threads_ne c different]
    exact held.holder y same
  others := by
    intro y different
    rw [put_threads]
    split
    · exact free
    · exact held.others y different
  running := by
    rw [put_shared,running,held.running]
    cases h with
    | none => rfl
    | some y => simp [put_threads_ne c (fun same : y = x => other (congrArg some same))]
  distinct := by rw [popped_put_other other]; exact distinct
  placed := by rw [popped_put_other other]; exact placed
  unstarted := unstarted
  recheck := recheck

/-- Steps of the operation that holds the flag and keeps it. -/
theorem held_holder_step (held : Held c (some x)) (s : Base Op) (prog : List (Instr Op)) (pending : List Op)
    (holding : pendingOf prog = some pending) (locked : s.locked = c.shared.locked)
    (started : s.started = c.shared.started) (running : s.running = runningOf prog)
    (perm : (s.inflightOperations ++ pending ++ s.completed).Perm
      (c.shared.inflightOperations ++ popped c (some x) ++ c.shared.completed)) :
    Held (c.put x s prog) (some x) where
  locked := by simpa [locked] using held.locked
  holder := by rintro y same; cases same; simp [holding]
  others := by
    intro y different
    rw [put_threads_ne c (fun equal => different (congrArg some equal.symm))]
    exact held.others y different
  running := by simpa using running
  distinct := by
    simp only [popped,put_shared,put_threads_self,holding,Option.getD_some]
    exact perm.nodup_iff.mpr held.distinct
  placed := by
    intro y
    simp only [popped,put_shared,put_threads_self,holding,Option.getD_some]
    rw [perm.mem_iff,held.placed y,started,put_threads]
    split
    · rename_i same
      subst same
      have before : c.threads y ≠ startOp := by
        intro begun
        have := held.holder y rfl
        simp [begun,startOp,pendingOf] at this
      have after : prog ≠ startOp := by
        rintro rfl
        simp [startOp,pendingOf] at holding
      simp [before,after]
    · rfl
  unstarted := by
    intro y busy
    rw [put_threads] at busy
    split at busy
    · rename_i same
      subst same
      rw [put_shared,started]
      apply held.unstarted
      intro idle
      have := held.holder y rfl
      simp [idle,pendingOf] at this
    · rw [put_shared,started]; exact held.unstarted y busy
  recheck := fun _ => ⟨x,.inr (.inr (by simp [holding]))⟩

end

/-! ### Every step keeps the invariant -/

section
variable {c : Config Op (Base Op) (Instr Op)} {h : Option Op} {x : Op} {s : Base Op} {new rest : List (Instr Op)}

theorem pushFront_held (held : Held c h) (left : c.threads x = .pushFront :: rest)
    (ran : (s,new) ∈ exec x .pushFront c.shared) : Held (c.put x s (new ++ rest)) h := by
  obtain ⟨rfl,rfl⟩ := Prod.mk.inj (List.mem_singleton.mp ran)
  have other : h ≠ some x := by
    intro same
    have := held.holder x same
    simp [left,pendingOf] at this
  have begun : c.threads x = startOp := by
    have free := held.others x other
    rw [left] at free ⊢
    cases free
    rfl
  have tail : rest = [.compareExchange] := by simpa [left,startOp] using begun
  have fresh : x ∉ c.shared.inflightOperations ++ popped c h ++ c.shared.completed :=
    fun queued => ((held.placed x).mp queued).2 begun
  have started : x ∈ c.shared.started := held.unstarted x (by simp [left])
  subst tail
  refine held_free_step held other _ _ .trying rfl rfl ?_ ?_ ?_ (fun _ => ⟨x,.inl (by simp)⟩)
  · simpa using ⟨by simpa using fresh,by simpa using held.distinct⟩
  · intro y
    have placed := held.placed y
    simp only [List.cons_append,List.mem_cons,put_threads]
    by_cases same : y = x
    · subst same; simp [started,startOp]
    · simp only [same,if_false,false_or]; exact placed
  · intro y busy
    rw [put_threads] at busy
    split at busy
    · rename_i same; exact same ▸ started
    · exact held.unstarted y busy

theorem compareExchange_held (held : Held c h) (left : c.threads x = .compareExchange :: rest)
    (ran : (s,new) ∈ exec x .compareExchange c.shared) : ∃ h', Held (c.put x s (new ++ rest)) h' := by
  have other : h ≠ some x := by
    intro same
    have := held.holder x same
    simp [left,pendingOf] at this
  have tail : rest = [] := by
    have free := held.others x other
    rw [left] at free
    cases free
    rfl
  have pushed : c.threads x ≠ startOp := by simp [left,startOp]
  have threads : ∀ prog, prog ≠ startOp → ∀ y,
      (y ∈ c.shared.started ∧ (c.put x s prog).threads y ≠ startOp ↔
        y ∈ c.shared.started ∧ c.threads y ≠ startOp) := by
    intro prog after y
    rw [put_threads]
    split
    · rename_i same; subst same; simp [after,pushed]
    · rfl
  have started : ∀ prog y, (c.put x s prog).threads y ≠ [] → y ∈ c.shared.started := by
    intro prog y busy
    rw [put_threads] at busy
    split at busy
    · rename_i same; exact same ▸ held.unstarted x (by simp [left])
    · exact held.unstarted y busy
  subst tail
  by_cases locked : c.shared.locked = true
  · -- the exchange fails: whoever holds the flag looks at the queue again
    obtain ⟨rfl,rfl⟩ : s = _ ∧ new = _ := by simpa [exec,locked] using ran
    obtain ⟨y,rfl⟩ := held_locked held locked
    have different : y ≠ x := fun same => other (congrArg some same)
    refine ⟨some y,held_free_step held other _ _ .done rfl rfl held.distinct ?_ (started _) ?_⟩
    · intro z; rw [threads ([] ++ []) (by simp [startOp])]; exact held.placed z
    · intro _
      refine ⟨y,.inr (.inr ?_)⟩
      rw [put_threads_ne c different]
      exact held.holder y rfl
  · obtain ⟨rfl,rfl⟩ : s = _ ∧ new = _ := by simpa [exec,locked] using ran
    have free : h = none := by
      cases h with
      | none => rfl
      | some y => exact absurd held.locked locked
    subst free
    refine ⟨some x,?_⟩
    constructor
    · simp
    · rintro y same; cases same; simp [pendingOf]
    · intro y different
      rw [put_threads_ne c (fun equal => different (congrArg some equal.symm))]
      exact held.others y (by simp)
    · simpa [runningOf] using held.running
    · simpa [popped,pendingOf] using held.distinct
    · intro z
      rw [put_shared,threads _ (by simp [startOp])]
      simpa [popped,pendingOf] using held.placed z
    · exact started _
    · exact fun _ => ⟨x,.inr (.inr (by simp [pendingOf]))⟩

theorem checkEmpty_held (held : Held c h) (left : c.threads x = .checkEmpty :: rest)
    (ran : (s,new) ∈ exec x .checkEmpty c.shared) : Held (c.put x s (new ++ rest)) h := by
  obtain ⟨rfl,rfl⟩ := Prod.mk.inj (List.mem_singleton.mp ran)
  have other : h ≠ some x := by
    intro same
    have := held.holder x same
    simp [left,pendingOf] at this
  have tail : rest = [] := by
    have free := held.others x other
    rw [left] at free
    cases free
    rfl
  subst tail
  have pushed : c.threads x ≠ startOp := by simp [left,startOp]
  have after : (if c.shared.inflightOperations.isEmpty then [] else [Instr.compareExchange]) ++ [] ≠
      (startOp : List (Instr Op)) := by
    split <;> simp [startOp]
  refine held_free_step held other _ _ ?_ rfl rfl held.distinct ?_ ?_ ?_
  · split
    · exact .done
    · exact .trying
  · intro y
    rw [held.placed y,put_threads]
    split
    · rename_i same; subst same; simp only [pushed,after,ne_eq,not_false_eq_true]
    · rfl
  · intro y busy
    rw [put_threads] at busy
    split at busy
    · rename_i same; exact same ▸ held.unstarted x (by simp [left])
    · exact held.unstarted y busy
  · intro queued
    refine ⟨x,.inl ?_⟩
    simp [queued]

theorem holding_held (held : Held c (some x)) {i : Instr Op} (left : c.threads x = i :: rest)
    (ran : (s,new) ∈ exec x i c.shared) : ∃ h', Held (c.put x s (new ++ rest)) h' := by
  have holding := held.holder x rfl
  have running := held.running
  simp only [Option.elim_some] at running
  rcases pendingOf_isSome holding with popping | ⟨pending,completing⟩ | ⟨op,tail,back,quiet,same⟩ | storing
  · obtain ⟨rfl,rfl⟩ : i = _ ∧ rest = _ := by simpa [left] using popping
    obtain ⟨pending,perm,rfl,rfl⟩ : ∃ pending, c.shared.inflightOperations.Perm pending ∧ s = _ ∧ new = _ := by
      simpa [exec,List.mem_permutations,List.perm_comm,eq_comm] using ran
    refine ⟨some x,held_holder_step held _ _ pending ?_ rfl rfl ?_ ?_⟩
    · simpa using pendingOf_whilePending pending .storeFalse rfl
    · rw [List.append_nil,runningOf_whilePending pending .storeFalse rfl]
      simpa [popping,runningOf] using running
    · simpa [popped,popping,pendingOf] using perm.symm.append_right _
  · obtain ⟨rfl,rfl⟩ : i = _ ∧ rest = _ := by simpa [left] using completing
    cases pending with
    | nil => simp [exec] at ran
    | cons next pending =>
      obtain ⟨rfl,rfl⟩ := Prod.mk.inj (List.mem_singleton.mp ran)
      refine ⟨some x,held_holder_step held _ _ pending ?_ rfl rfl ?_ ?_⟩
      · simpa using pendingOf_returned next pending
      · simp [running,completing,runningOf]
      · simp only [popped,completing,pendingOf,Option.getD_some,List.append_assoc,List.cons_append]
        apply List.Perm.append_left
        rw [← List.append_assoc]
        exact List.perm_append_singleton _ _
  · obtain ⟨rfl,rfl⟩ : i = _ ∧ rest = _ := by simpa [left] using back
    obtain ⟨rfl,rfl⟩ := Prod.mk.inj (List.mem_singleton.mp ran)
    obtain ⟨pending,is⟩ := Option.isSome_iff_exists.mp holding
    refine ⟨some x,held_holder_step held _ _ pending ?_ rfl rfl ?_ ?_⟩
    · simpa [same] using is
    · rw [List.nil_append,quiet]
      simp [running,back,runningOf]
    · simp [popped,is]
  · obtain ⟨rfl,rfl⟩ : i = _ ∧ rest = _ := by simpa [left] using storing
    obtain ⟨rfl,rfl⟩ := Prod.mk.inj (List.mem_singleton.mp ran)
    refine ⟨none,?_⟩
    constructor
    · simp
    · simp
    · intro y _
      rw [put_threads]
      split
      · exact .checking
      · rename_i different
        exact held.others y (fun equal => different (Option.some.inj equal).symm)
    · simpa [storing,runningOf] using running
    · simpa [popped,storing,pendingOf] using held.distinct
    · intro y
      have placed := held.placed y
      simp only [popped,storing,pendingOf,Option.getD_some] at placed
      simp only [popped,put_shared]
      rw [placed,put_threads]
      split
      · rename_i equal; subst equal; simp [storing,startOp]
      · rfl
    · intro y busy
      rw [put_threads] at busy
      split at busy
      · rename_i equal; exact equal ▸ held.unstarted x (by simp [left])
      · exact held.unstarted y busy
    · exact fun _ => ⟨x,.inr (.inl (by simp))⟩

theorem run_held (held : Held c h) {i : Instr Op} (left : c.threads x = i :: rest)
    (ran : (s,new) ∈ exec x i c.shared) : ∃ h', Held (c.put x s (new ++ rest)) h' := by
  by_cases same : h = some x
  · subst same; exact holding_held held left ran
  · have free := held.others x same
    rw [left] at free
    cases free with
    | begun => exact ⟨h,pushFront_held held left ran⟩
    | trying => exact compareExchange_held held left ran
    | checking => exact ⟨h,checkEmpty_held held left ran⟩

theorem call_held (held : Held c h) (idle : c.threads x = []) {prog : List (Instr Op)}
    (accepted : accept x c.shared = some (s,prog)) : Held (c.put x s prog) h := by
  unfold accept at accepted
  split at accepted
  · simp at accepted
  · rename_i fresh
    obtain ⟨rfl,rfl⟩ : _ = s ∧ _ = prog := by simpa using accepted
    have other : h ≠ some x := by
      intro same
      have := held.holder x same
      simp [idle,pendingOf] at this
    refine held_free_step held other _ _ .begun rfl rfl held.distinct ?_ ?_ ?_
    · intro y
      rw [held.placed y,put_threads]
      by_cases same : y = x
      · subst same; simp [fresh]
      · simp [same]
    · intro y busy
      rw [put_threads] at busy
      split at busy
      · rename_i same; simp [same]
      · exact List.mem_cons_of_mem _ (held.unstarted y busy)
    · intro queued
      obtain ⟨y,rechecks⟩ := held.recheck queued
      refine ⟨y,?_⟩
      have different : y ≠ x := by
        rintro rfl
        simp [Rechecks,idle,pendingOf] at rechecks
      rw [put_threads_ne c different]
      exact rechecks

end

/-! ### Mutual exclusion, single completion, no lost wake-up -/

theorem reach_held {c : Config Op (Base Op) (Instr Op)} (reach : Reach (machine Op) Any (initial Op) c) :
    ∃ h, Held c h := by
  refine reach.invariant (I := fun c => ∃ h, Held c h) ⟨none,?_⟩ ?_ ?_
  · constructor <;> simp [initial,popped,Free.done]
  · rintro c p i rest s new ⟨h,held⟩ _ left ran
    exact run_held held left ran
  · rintro c x s prog ⟨h,held⟩ _ idle accepted
    exact ⟨h,call_held held idle accepted⟩

/-- However the starts of any number of lock operations interleave, at most one
    completion runs at a time, no operation is completed twice, and once every
    `start` has returned the queue is empty, the flag is free and every started
    operation has been completed. -/
theorem lock_exclusive_and_complete {c : Config Op (Base Op) (Instr Op)}
    (reach : Reach (machine Op) Any (initial Op) c) :
    c.shared.running.length ≤ 1 ∧ c.shared.completed.Nodup ∧
      (∀ x ∈ c.shared.completed, x ∈ c.shared.started) ∧
      ((∀ x, c.threads x = []) → c.shared.inflightOperations = [] ∧ c.shared.locked = false ∧
        c.shared.running = [] ∧ ∀ x ∈ c.shared.started, x ∈ c.shared.completed) := by
  obtain ⟨h,held⟩ := reach_held reach
  refine ⟨?_,(List.nodup_append.mp held.distinct).2.1,?_,?_⟩
  · rw [held.running]
    cases h with
    | none => simp
    | some x => simp only [Option.elim_some]; unfold runningOf; split <;> simp
  · intro x completed
    exact ((held.placed x).mp (List.mem_append_right _ completed)).1
  · intro idle
    have free : h = none := by
      cases h with
      | none => rfl
      | some x => have := held.holder x rfl; simp [idle x,pendingOf] at this
    subst free
    have empty : c.shared.inflightOperations = [] := by
      by_contra queued
      obtain ⟨x,rechecks⟩ := held.recheck queued
      simp [Rechecks,idle x,pendingOf] at rechecks
    refine ⟨empty,by simpa using held.locked,by simpa using held.running,?_⟩
    intro x started
    have placed := (held.placed x).mpr ⟨started,by simp [idle x,startOp]⟩
    simpa [empty,popped] using placed

/-- Two operations: the second is started while the first one's completion runs. -/
theorem lock_exclusive_and_complete_nested : ∃ c, Reach (machine Nat) Any (initial Nat) c ∧
    c.shared.completed = [0,1] ∧ c.shared.completed.Nodup := by
  obtain ⟨c,reach,completed⟩ := exists_of_follow (machine Nat) Any (initial Nat) (fun _ _ => true) (fun _ _ _ => trivial)
    [(.call 0,0),(.run 0,0),(.run 0,0),(.run 0,0),(.run 0,0),(.call 1,0),(.run 1,0),(.run 1,0),(.run 0,0),(.run 0,0),
      (.run 0,0),(.run 0,0),(.run 0,0),(.run 0,0),(.run 0,0)]
    (fun c => c.shared.completed = [0,1]) (by decide)
  exact ⟨c,reach,by simpa using completed,(lock_exclusive_and_complete reach).2.1⟩

end SendersIo.AsyncMutex
