import SendersIo.ZipOutcome

/-!
Who may still use the shared state of a zip when its outer receiver is
completed. A child that is not the last one gives up its share of the pending
counter first and calls `notify_stop` or `notify_error` after that, so nothing
keeps the last child from completing the outer receiver in between.
-/
namespace SendersIo.Zip
open SendersIo.Interleaving
variable {n : Nat} {Value Error : Type}

/-- The instruction reads or writes `operation_base`. -/
def Instr.touches : Instr n Value Error → Bool
  | .callout | .setStopped _ => false
  | _ => true

end SendersIo.Zip

namespace SendersIo.ZipAccess
open SendersIo.Interleaving SendersIo.Signals SendersIo.Zip SendersIo.ZipOutcome
set_option linter.unusedSimpArgs false

variable {n : Nat} {Value Error : Type}

/-- The last child completes when the completion handlers of all other children have returned. -/
def LastAlone (c : Config (Party n) (OperationBase n Value Error) (Instr n Value Error)) :
    Label (Party n) (Event n Value Error) → Prop
  | .call (.childCompletes k _) =>
    (∀ j, j ≠ k → j ∈ c.shared.completedChildren) → ∀ j, j ≠ k → c.threads (.child j) = []
  | _ => True

/-- When all children have completed, the handler of one of them is running at most. -/
def Settled (c : Config (Party n) (OperationBase n Value Error) (Instr n Value Error)) : Prop :=
  (∀ k, k ∈ c.shared.completedChildren) → ∃ k, ∀ j, j ≠ k → c.threads (.child j) = []

/-- A share of the counter is used by a child, and nothing comes after that. -/
def Last (c : Config (Party n) (OperationBase n Value Error) (Instr n Value Error)) : Prop :=
  ∀ p, ∀ i ∈ c.threads p, i.ofChild = true → c.threads p = [i] ∧ ∃ k, p = .child k

/-- After the completion of the outer receiver no child uses the shared state. -/
def Untouched (c : Config (Party n) (OperationBase n Value Error) (Instr n Value Error)) : Prop :=
  c.shared.completions ≠ [] → ∀ k, ∀ i ∈ c.threads (.child k), i.touches = false

variable {s : OperationBase n Value Error} {c : Config (Party n) (OperationBase n Value Error) (Instr n Value Error)}
  {p : Party n} {i : Instr n Value Error} {new rest : List (Instr n Value Error)} {exception : Option Error}

theorem last_put {prog : List (Instr n Value Error)} (last : Last c)
    (here : ∀ j ∈ prog, j.ofChild = true → prog = [j] ∧ ∃ k, p = .child k) : Last (c.put p s prog) := by
  intro q j member uses
  rw [put_threads] at member ⊢
  split at member
  · rename_i same
    subst same
    simpa using here j member uses
  · rename_i other
    rw [if_neg other]
    exact last q j member uses

theorem run_last (last : Last c) (left : c.threads p = i :: rest) (ran : Ran exception c.shared i s new) :
    Last (c.put p s (new ++ rest)) := by
  cases uses : i.ofChild with
  | true =>
    obtain ⟨only,party⟩ := last p i (left ▸ List.mem_cons_self) uses
    have none_left : rest = [] := by simpa [left] using only
    subst none_left
    rw [List.append_nil]
    refine last_put last fun j member still => ⟨?_,party⟩
    cases ran with
    | fetchSub k signal =>
      by_cases more : c.shared.nPendingOperations > 1
      · rw [if_pos more] at member
        have : j ∈ (notLast signal).filter Instr.ofChild := List.mem_filter.mpr ⟨member,still⟩
        rw [notLast_filter] at this
        cases this
      · rw [if_neg more] at member ⊢
        rw [List.mem_singleton.mp member]
    | resetStopCallback signal => rw [List.mem_singleton.mp member]
    | finish signal =>
      obtain rfl := List.mem_singleton.mp member
      cases still
    | _ => cases uses
  | false =>
    obtain ⟨_,_,_,_,none_new⟩ := ran_other uses ran
    refine last_put last fun j member still => ?_
    rcases List.mem_append.mp member with here | later
    · have : j ∈ new.filter Instr.ofChild := List.mem_filter.mpr ⟨here,still⟩
      rw [none_new] at this
      cases this
    · have only := (last p j (left ▸ List.mem_cons_of_mem i later) still).1
      rw [left] at only
      obtain ⟨_,none⟩ := List.cons.inj only
      rw [none] at later
      cases later

theorem call_last {e : Event n Value Error} (last : Last c) (raised : Raised c.shared e s new) :
    Last (c.put ((machine n Value exception).party e) s new) := by
  refine last_put last fun j member uses => ?_
  cases raised with
  | childCompletes k signal =>
    obtain rfl := List.mem_singleton.mp member
    exact ⟨rfl,k,rfl⟩
  | start =>
    rcases List.mem_cons.mp member with rfl | later
    · cases uses
    · obtain ⟨k,_,rfl⟩ := List.mem_map.mp later
      cases uses
  | outerStop =>
    split at member
    · rw [List.mem_singleton.mp member] at uses
      cases uses
    · cases member
  | _ =>
    have filtered := List.mem_filter.mpr ⟨member,uses⟩
    exact absurd (show j ∈ ([] : List (Instr n Value Error)) from filtered) List.not_mem_nil

/-- What a step leaves that uses the shared state comes from one that does. -/
theorem ran_untouching (ran : Ran exception c.shared i s new) (idle : i.touches = false) :
    s.completions = c.shared.completions ∧ ∀ j ∈ new, j.touches = false := by
  cases ran with
  | callout => exact ⟨rfl,by simp⟩
  | setStopped x => exact ⟨rfl,by simp [Instr.touches]⟩
  | _ => cases idle

theorem run_settled (settled : Settled c) (left : c.threads p = i :: rest) (ran : Ran exception c.shared i s new) :
    Settled (c.put p s (new ++ rest)) := by
  intro all
  rw [put_shared,(ran_frame ran).2.1] at all
  obtain ⟨k,others⟩ := settled all
  refine ⟨k,fun j other => ?_⟩
  rw [put_threads_ne]
  · exact others j other
  · rintro rfl
    rw [others j other] at left
    cases left

theorem call_settled {e : Event n Value Error} (settled : Settled c) (alone : LastAlone c (.call e))
    (raised : Raised c.shared e s new) : Settled (c.put ((machine n Value exception).party e) s new) := by
  intro all
  cases raised with
  | childCompletes k signal _ fresh _ =>
    refine ⟨k,fun j other => ?_⟩
    have elsewhere : Party.child j ≠ (machine n Value exception).party (.childCompletes k signal) :=
      fun same => other (Party.child.inj same)
    rw [put_threads_ne c elsewhere]
    refine alone (fun i different => ?_) j other
    exact (List.mem_append.mp (all i)).resolve_right (by simpa using different)
  | _ =>
    obtain ⟨k,others⟩ := settled all
    refine ⟨k,fun j other => ?_⟩
    rw [put_threads_ne c (by simp [machine])]
    exact others j other

/-- The child that completes the outer receiver is the only one whose handler is running. -/
theorem run_untouched (counted : Counted c.shared (stage c)) (last : Last c) (settled : Settled c)
    (untouched : Untouched c) (left : c.threads p = i :: rest) (ran : Ran exception c.shared i s new) :
    Untouched (c.put p s (new ++ rest)) := by
  intro completed k j member
  by_cases finishing : ∃ signal, i = .finish signal
  · obtain ⟨signal,rfl⟩ := finishing
    obtain ⟨only,m,rfl⟩ := last p _ (left ▸ List.mem_cons_self) rfl
    have none_left : rest = [] := by simpa [left] using only
    have all := (counted.finisher (.child m) (.finish signal) (by simp [stage,left,Instr.ofChild]) trivial).2
    obtain ⟨k',others⟩ := settled fun k => counted.known k (mem_of_length counted.distinct all k)
    rw [put_threads] at member
    split at member
    · cases ran
      rw [none_left] at member
      rw [List.mem_singleton.mp member]
      rfl
    · next other =>
      have here : m = k' := by
        by_contra different
        rw [others m different] at left
        cases left
      subst here
      rw [others k fun same => other (congrArg _ same)] at member
      cases member
  · have same : s.completions = c.shared.completions := by
      cases ran <;> first | rfl | exact absurd ⟨_,rfl⟩ finishing
    have before : c.shared.completions ≠ [] := by rwa [put_shared,same] at completed
    rw [put_threads] at member
    split at member
    · rename_i here
      have quiet := untouched before k
      rw [here,left] at quiet
      rcases List.mem_append.mp member with first | later
      · exact (ran_untouching ran (quiet i List.mem_cons_self)).2 j first
      · exact quiet j (List.mem_cons_of_mem i later)
    · exact untouched before k j member

theorem call_untouched {e : Event n Value Error} (counted : Counted c.shared (stage c)) (untouched : Untouched c)
    (raised : Raised c.shared e s new) : Untouched (c.put ((machine n Value exception).party e) s new) := by
  intro completed k j member
  have same : s.completions = c.shared.completions := by cases raised <;> rfl
  have before : c.shared.completions ≠ [] := by rwa [put_shared,same] at completed
  rw [put_threads] at member
  split at member
  · rename_i here
    -- every child has completed before the outer receiver is completed
    cases raised <;> try cases here
    rename_i fresh _
    exact absurd (counted.known k (mem_of_length counted.distinct (counted.finished before) k)) fresh
  · exact untouched before k j member

theorem reach_last {allowed : Config (Party n) (OperationBase n Value Error) (Instr n Value Error) →
      Label (Party n) (Event n Value Error) → Prop}
    (reach : Reach (machine n Value exception) allowed (initial n Value Error) c) : Last c :=
  reach.invariant (by simp [Last,initial])
    (fun _ _ _ _ _ _ last _ left ran => run_last last left (ran_of_mem ran))
    (fun _ _ _ _ last _ _ accepted => call_last last (raised_of_accept accepted))

theorem reach_untouched (positive : 0 < n)
    (reach : Reach (machine n Value exception) LastAlone (initial n Value Error) c) : Untouched c := by
  suffices holds : Counted c.shared (stage c) ∧ Last c ∧ Settled c ∧ Untouched c from holds.2.2.2
  refine reach.invariant (I := fun c => Counted c.shared (stage c) ∧ Last c ∧ Settled c ∧ Untouched c)
    ⟨initial_counted,by simp [Last,initial],fun _ => ⟨⟨0,positive⟩,by simp [initial]⟩,
      by simp [Untouched,initial]⟩ ?_ ?_
  · rintro c p i rest s new ⟨counted,last,settled,untouched⟩ _ left ran
    have ran := ran_of_mem ran
    exact ⟨run_counted counted left ran,run_last last left ran,run_settled settled left ran,
      run_untouched counted last settled untouched left ran⟩
  · rintro c e s prog ⟨counted,last,settled,untouched⟩ alone idle accepted
    have raised := raised_of_accept accepted
    exact ⟨call_counted counted idle raised,call_last last raised,call_settled settled alone raised,
      call_untouched counted untouched raised⟩

/-- Any number of children that complete on any threads: the outer receiver is
    completed at most once, and it has been completed once all children have
    completed and returned from their handlers. If the last child completes when
    the handlers of all others have returned, no handler of a child uses the
    shared state after the outer receiver has been completed. -/
theorem no_access_after_completion (positive : 0 < n) (exception : Option Error) :
    (∀ c, Reach (machine n Value exception) Any (initial n Value Error) c →
      c.shared.completions.length ≤ 1 ∧
      ((∀ k, k ∈ c.shared.completedChildren) → (∀ k, c.threads (.child k) = []) →
        c.shared.completions.length = 1)) ∧
    ∀ c, Reach (machine n Value exception) LastAlone (initial n Value Error) c →
      c.shared.completions ≠ [] → ∀ k, ∀ i ∈ c.threads (.child k), i.touches = false := by
  refine ⟨fun c reach => ?_,fun c reach => reach_untouched positive reach⟩
  have counted : Counted c.shared (stage c) := reach.invariant initial_counted
    (fun _ _ _ _ _ _ counted _ left ran => run_counted counted left (ran_of_mem ran))
    (fun _ _ _ _ counted _ idle accepted => call_counted counted idle (raised_of_accept accepted))
  refine ⟨counted.once,fun all idle => ?_⟩
  have decremented : ∀ k, k ∈ c.shared.decremented := by
    intro k
    by_contra out
    obtain ⟨signal,member⟩ := counted.waiting k (all k) out
    simp [stage,idle] at member
  cases list : c.shared.completions with
  | nil =>
    obtain ⟨p,i,member,finishes⟩ := counted.unfinished list (length_of_mem counted.distinct decremented) positive
    have here := List.mem_of_mem_filter member
    obtain ⟨_,k,rfl⟩ := reach_last reach p i here (ofChild_of_finishes finishes)
    rw [idle k] at here
    cases here
  | cons d others =>
    have once := counted.once
    rw [list] at once
    simp only [List.length_cons] at once ⊢
    omega

/-- Accepts a completion of a child when the handlers of all other children have returned. -/
def surelyAlone (c : Config (Party n) (OperationBase n Value Error) (Instr n Value Error)) :
    Label (Party n) (Event n Value Error) → Bool
  | .call (.childCompletes k _) => (List.finRange n).all fun j => j = k || (c.threads (.child j)).isEmpty
  | _ => true

theorem lastAlone_of_surely {l : Label (Party n) (Event n Value Error)} (sure : surelyAlone c l = true) :
    LastAlone c l := by
  match l with
  | .call (.childCompletes k signal) =>
    intro _ j other
    have := List.all_eq_true.mp sure j (List.mem_finRange j)
    simpa [other] using this
  | .run _ | .call .start | .call (.setNext _) | .call (.itemValue _ _) | .call (.itemError _ _)
  | .call (.itemStopped _) | .call (.zippedValue _) | .call (.zippedStopped _) | .call .outerStop => trivial

/-- Two children complete one after the other. -/
theorem no_access_after_completion_pair : ∃ c, Reach (machine 2 Nat none) LastAlone (initial 2 Nat Nat) c ∧
    c.shared.completions ≠ [] ∧ c.shared.completions.length ≤ 1 ∧
    ∀ k, ∀ i ∈ c.threads (.child k), i.touches = false := by
  obtain ⟨c,reach,found⟩ := exists_of_follow (machine 2 Nat (none : Option Nat)) LastAlone (initial 2 Nat Nat)
    surelyAlone (fun _ _ => lastAlone_of_surely)
    (List.flatten [[(.call .start,0)],List.replicate 5 (.run .operation,0),
      [(.call (.childCompletes 0 (.value ())),0)],List.replicate 4 (.run (.child 0),0),
      [(.call (.childCompletes 1 (.value ())),0)],List.replicate 3 (.run (.child 1),0)])
    (fun c => !c.shared.completions.isEmpty) (by decide)
  have completed : c.shared.completions ≠ [] := by simpa using found
  have holds := @no_access_after_completion 2 Nat Nat (by decide) none
  exact ⟨c,reach,completed,(holds.1 c reach.any).1,holds.2 c reach completed⟩

/-- The first child has given up its share and not yet requested the stop when the
    second child completes the outer receiver. -/
theorem child_uses_shared_after_completion : ∃ c, Reach (machine 2 Nat none) Any (initial 2 Nat Nat) c ∧
    c.shared.completions.length = 1 ∧ ∃ i ∈ c.threads (.child 0), i.touches = true := by
  obtain ⟨c,reach,found⟩ := exists_of_follow (machine 2 Nat (none : Option Nat)) Any (initial 2 Nat Nat)
    (fun _ _ => true) (fun _ _ _ => trivial)
    (List.flatten [[(.call .start,0)],List.replicate 5 (.run .operation,0),
      [(.call (.childCompletes 0 (.value ())),0),(.run (.child 0),0),(.call (.childCompletes 1 (.value ())),0)],
      List.replicate 3 (.run (.child 1),0)])
    (fun c => decide (c.shared.completions.length = 1) && (c.threads (.child 0)).any Instr.touches) (by decide)
  simp only [Bool.and_eq_true,decide_eq_true_eq,List.any_eq_true] at found
  exact ⟨c,reach,found⟩

end SendersIo.ZipAccess
