import Mathlib.Data.Nat.Init
import Mathlib.Tactic.ByContra

/-!
Systems that take one step for every answer of an environment. The answers come
from a schedule, and which answers the environment may give depends on the state.
-/
namespace SendersIo.Schedules
universe u v
variable {State : Type u} {Answer : Type v} (step : State → Answer → State)

/-- The state after the first answers of the schedule. -/
def run (schedule : Nat → Answer) (s : State) : Nat → State
  | 0 => s
  | k + 1 => step (run schedule s k) (schedule k)

/-- Every answer of the schedule is one that the environment may give. -/
def Answers (allowed : State → Answer → Prop) (schedule : Nat → Answer) (s : State) : Prop :=
  ∀ k, allowed (run step schedule s k) (schedule k)

variable {step} {allowed : State → Answer → Prop} {schedule : Nat → Answer} {s : State}

/-- What holds at the start and is kept by every step holds all the time. -/
theorem run_invariant (I : State → Prop) (start : I s) (keeps : ∀ s a, I s → allowed s a → I (step s a))
    (answers : Answers step allowed schedule s) (k : Nat) : I (run step schedule s k) := by
  induction k with
  | zero => exact start
  | succ k ih => exact keeps _ _ ih (answers k)

/-- A state in which every step changes nothing is never left. -/
theorem run_stays {k j : Nat} (final : ∀ a, step (run step schedule s k) a = run step schedule s k) (later : k ≤ j) :
    run step schedule s j = run step schedule s k := by
  induction j, later using Nat.le_induction with
  | base => rfl
  | succ j _ ih => rw [run,ih,final]

/-- A run finishes whose every step finishes or makes a measure smaller. -/
theorem run_finishes (I done : State → Prop) (measure : State → Nat) (start : I s)
    (progress : ∀ s a, I s → allowed s a → done (step s a) ∨ I (step s a) ∧ measure (step s a) < measure s)
    (answers : Answers step allowed schedule s) : ∃ k, done (run step schedule s k) := by
  by_contra endless
  have smaller : ∀ k, I (run step schedule s k) ∧ measure (run step schedule s k) + k ≤ measure s := by
    intro k
    induction k with
    | zero => exact ⟨start,Nat.le_refl _⟩
    | succ k ih =>
      obtain finished | ⟨keeps,less⟩ := progress _ _ ih.1 (answers k)
      · exact absurd ⟨k + 1,finished⟩ endless
      · exact ⟨keeps,by rw [run]; omega⟩
  have := (smaller (measure s + 1)).2
  omega

variable (step allowed) in
/-- The environment can answer so that what every one of its answers keeps holds
    all the time. -/
theorem exists_endless (I : State → Prop) (start : I s) (answer : State → Answer)
    (keeps : ∀ s, I s → allowed s (answer s) ∧ I (step s (answer s))) :
    ∃ schedule, Answers step allowed schedule s ∧ ∀ k, I (run step schedule s k) := by
  let states : Nat → State := fun k => Nat.rec s (fun _ s => step s (answer s)) k
  have same : ∀ k, run step (fun k => answer (states k)) s k = states k := by
    intro k
    induction k with
    | zero => rfl
    | succ k ih => rw [run,ih]
  have holds : ∀ k, I (states k) := by
    intro k
    induction k with
    | zero => exact start
    | succ k ih => exact (keeps _ ih).2
  exact ⟨fun k => answer (states k),fun k => same k ▸ (keeps _ (holds k)).1,fun k => same k ▸ holds k⟩

end SendersIo.Schedules
