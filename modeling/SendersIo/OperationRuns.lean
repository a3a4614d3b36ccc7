/-!
Runs of operations beside runs of what they are to do. Each operation takes a step in the
state, and does something to the specification; whether a run is correct can depend on a
condition that each operation has to meet in the specification before it.
-/
namespace SendersIo.OperationRuns
universe u v w
variable {State : Type u} {Spec : Type v} {Op : Type w}

/-- Every operation of a run is safe, and the state agrees with the specification before it and
    after it. -/
def Correct (step : State → Op → State) (apply : Spec → Op → Spec) (safe : State → Spec → Op → Prop)
    (agrees : State → Spec → Prop) : State → Spec → List Op → Prop
  | s,m,[] => agrees s m
  | s,m,op :: ops => agrees s m ∧ safe s m op ∧ Correct step apply safe agrees (step s op) (apply m op) ops

/-- Every operation of a run meets the condition when it is called. -/
def Throughout (apply : Spec → Op → Spec) (condition : Spec → Op → Prop) : Spec → List Op → Prop
  | _,[] => True
  | m,op :: ops => condition m op ∧ Throughout apply condition (apply m op) ops

variable {step : State → Op → State} {apply : Spec → Op → Spec} {safe : State → Spec → Op → Prop}
  {agrees : State → Spec → Prop} {permitted condition : Spec → Op → Prop} {s : State} {m : Spec} {ops : List Op}

theorem Correct.start (correct : Correct step apply safe agrees s m ops) : agrees s m := by
  cases ops with
  | nil => exact correct
  | cons op ops => exact correct.1

/-- An invariant that the operations keep which meet the condition, and after which all others
    go wrong: a permitted run is correct if and only if all of it meets the condition. -/
theorem correct_iff (invariant : State → Spec → Prop) (sound : ∀ s m, invariant s m → agrees s m)
    (keeps : ∀ s m op, invariant s m → permitted m op → condition m op →
      safe s m op ∧ invariant (step s op) (apply m op))
    (breaks : ∀ s m op, invariant s m → permitted m op → ¬ condition m op → safe s m op →
      ¬ agrees (step s op) (apply m op))
    (start : invariant s m) (valid : Throughout apply permitted m ops) :
    Correct step apply safe agrees s m ops ↔ Throughout apply condition m ops := by
  induction ops generalizing s m with
  | nil => exact ⟨fun _ => trivial,fun _ => sound s m start⟩
  | cons op ops ih =>
    obtain ⟨allowed,later⟩ := valid
    by_cases meets : condition m op
    · obtain ⟨safely,next⟩ := keeps s m op start allowed meets
      constructor
      · exact fun correct => ⟨meets,(ih next later).mp correct.2.2⟩
      · exact fun all => ⟨sound s m start,safely,(ih next later).mpr all.2⟩
    · constructor
      · exact fun correct => absurd correct.2.2.start (breaks s m op start allowed meets correct.2.1)
      · exact fun all => absurd all.1 meets

end SendersIo.OperationRuns
