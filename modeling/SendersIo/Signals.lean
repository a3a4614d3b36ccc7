import Mathlib.Logic.Basic

/-!
How a sender or a sequence completes its receiver, and the completion that
depends on the receiver's stop token.
-/
namespace SendersIo.Signals

/-- The completion of a sender that sends `Value` or fails with `Error`. -/
inductive Completion (Value Error : Type) where
  | value (v : Value)
  | error (e : Error)
  | stopped
  deriving DecidableEq

/-- The error of a completion that is one. -/
def Completion.error? {Value Error : Type} : Completion Value Error → Option Error
  | .error e => some e
  | _ => none

def Completion.isValue {Value Error : Type} : Completion Value Error → Bool
  | .value _ => true
  | _ => false

def Completion.isStopped {Value Error : Type} : Completion Value Error → Bool
  | .stopped => true
  | _ => false

/-- The completion of a sequence or of an item, which sends no value. -/
abbrev Signal (Error : Type) := Completion Unit Error

/-- `exec::set_value_unless_stopped` on a receiver whose token reports `stopRequested`. -/
def setValueUnlessStopped {Error : Type} (stopRequested : Bool) : Signal Error :=
  if stopRequested then .stopped else .value ()

@[simp] theorem setValueUnlessStopped_false {Error : Type} :
    (setValueUnlessStopped false : Signal Error) = .value () := rfl

@[simp] theorem setValueUnlessStopped_true {Error : Type} :
    (setValueUnlessStopped true : Signal Error) = .stopped := rfl

theorem setValueUnlessStopped_ne_error {Error : Type} (stopRequested : Bool) (e : Error) :
    setValueUnlessStopped stopRequested ≠ .error e := by
  cases stopRequested <;> simp [setValueUnlessStopped]

end SendersIo.Signals
