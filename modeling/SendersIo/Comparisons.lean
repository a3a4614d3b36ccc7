import Mathlib.Order.Basic

/-!
The relational operators of a type, written by hand from an equality and a less,
and what makes them those of a total order: they follow a comparison with three
outcomes. Comparisons are composed as programs do it, by one part after the other
and with an early return.
-/
namespace SendersIo.Comparisons
universe u v
open Ordering

/-- The six relational operators. -/
structure Operators (α : Type u) where
  equal : α → α → Bool
  notEqual : α → α → Bool
  less : α → α → Bool
  greater : α → α → Bool
  lessEqual : α → α → Bool
  greaterEqual : α → α → Bool

variable {α : Type u} {β : Type v}

/-- The operators that `equal` and `less` determine. -/
def Operators.derived (equal less : α → α → Bool) : Operators α where
  equal := equal
  notEqual a b := !equal a b
  less := less
  greater a b := less b a
  lessEqual a b := !less b a
  greaterEqual a b := !less a b

/-- Exactly one of three tests succeeds. -/
def ExactlyOne (a b c : Bool) : Prop :=
  a = true ∧ b = false ∧ c = false ∨ a = false ∧ b = true ∧ c = false ∨ a = false ∧ b = false ∧ c = true

/-- Less is a strict total order of the values up to `equal`, which it respects,
    and the other operators are the relations derived from these two. -/
structure Operators.Ordered (ops : Operators α) : Prop where
  refl : ∀ a, ops.equal a a
  symm : ∀ a b, ops.equal a b → ops.equal b a
  equal_trans : ∀ a b c, ops.equal a b → ops.equal b c → ops.equal a c
  exactlyOne : ∀ a b, ExactlyOne (ops.less a b) (ops.equal a b) (ops.less b a)
  trans : ∀ a b c, ops.less a b → ops.less b c → ops.less a c
  respects : ∀ a b c, ops.equal a b → ops.less a c = ops.less b c ∧ ops.less c a = ops.less c b
  notEqual : ∀ a b, ops.notEqual a b = !ops.equal a b
  greater : ∀ a b, ops.greater a b = ops.less b a
  lessEqual : ∀ a b, ops.lessEqual a b = (ops.less a b || ops.equal a b)
  greaterEqual : ∀ a b, ops.greaterEqual a b = (ops.less b a || ops.equal a b)

/-- Equality and less are the outcomes of a comparison. -/
structure Follows (equal less : α → α → Bool) (order : α → α → Ordering) : Prop where
  equal : ∀ a b, equal a b = (order a b).isEq
  less : ∀ a b, less a b = (order a b).isLT

section
variable {equal less : α → α → Bool} {order : α → α → Ordering}

theorem swap_of_oriented [Std.OrientedCmp order] (a b : α) : order b a = (order a b).swap := Std.OrientedCmp.eq_swap

/-- The operators of a comparison with the laws of an order are those of an order. -/
theorem Follows.ordered [Std.TransCmp order] (follows : Follows equal less order) :
    (Operators.derived equal less).Ordered where
  refl a := by simp [Operators.derived,follows.equal,Std.ReflCmp.compare_self]
  symm a b same := by
    simp only [Operators.derived,follows.equal,isEq_iff_eq_eq] at same ⊢
    exact Std.OrientedCmp.eq_symm same
  equal_trans a b c first second := by
    simp only [Operators.derived,follows.equal,isEq_iff_eq_eq] at first second ⊢
    exact Std.TransCmp.eq_trans first second
  exactlyOne a b := by
    simp only [Operators.derived,follows.equal,follows.less,swap_of_oriented a b]
    cases order a b <;> simp [ExactlyOne]
  trans a b c first second := by
    simp only [Operators.derived,follows.less,isLT_iff_eq_lt] at first second ⊢
    exact Std.TransCmp.lt_trans first second
  respects a b c same := by
    simp only [Operators.derived,follows.equal,follows.less,isEq_iff_eq_eq] at same ⊢
    rw [Std.TransCmp.congr_left same,Std.TransCmp.congr_right same]
    exact ⟨rfl,rfl⟩
  notEqual _ _ := by simp [Operators.derived]
  greater _ _ := by simp [Operators.derived]
  lessEqual a b := by
    simp only [Operators.derived,follows.equal,follows.less,swap_of_oriented a b]
    cases order a b <;> simp
  greaterEqual a b := by
    simp only [Operators.derived,follows.equal,follows.less,swap_of_oriented a b]
    cases order a b <;> simp

end

/-! ### How comparisons are made -/

/-- A type with a lawful comparison of its own. -/
theorem follows_compare [Ord α] [LE α] [LT α] [DecidableEq α] [DecidableLT α] [Std.LawfulEqOrd α] [Std.LawfulOrderLT α]
    [Std.LawfulOrderOrd α] :
    Follows (fun a b : α => decide (a = b)) (fun a b => decide (a < b)) compare where
  equal a b := by rw [Bool.eq_iff_iff,decide_eq_true_iff,isEq_iff_eq_eq,Std.LawfulEqOrd.compare_eq_iff_eq]
  less a b := by rw [Bool.eq_iff_iff,decide_eq_true_iff,isLT_iff_eq_lt,Std.compare_eq_lt]

/-- The comparison of what a function makes of the values. -/
def onPart (order : β → β → Ordering) (part : α → β) (a b : α) : Ordering := order (part a) (part b)

instance {order : β → β → Ordering} {part : α → β} [Std.TransCmp order] : Std.TransCmp (onPart order part) where
  eq_swap {a b} := swap_of_oriented (part b) (part a)
  isLE_trans {a b c} first second := by
    unfold onPart at first second ⊢
    exact Std.TransCmp.isLE_trans first second

theorem Follows.onPart {equal less : β → β → Bool} {order : β → β → Ordering} (follows : Follows equal less order)
    (part : α → β) : Follows (fun a b => equal (part a) (part b)) (fun a b => less (part a) (part b)) (onPart order part) where
  equal a b := follows.equal (part a) (part b)
  less a b := follows.less (part a) (part b)

/-- Less by the first part, with an early return if that part is less or not equal. -/
theorem Follows.lex {equal₁ less₁ equal₂ less₂ : α → α → Bool} {order₁ order₂ : α → α → Ordering}
    (first : Follows equal₁ less₁ order₁) (second : Follows equal₂ less₂ order₂) :
    Follows (fun a b => equal₁ a b && equal₂ a b)
      (fun a b => if less₁ a b then true else if !equal₁ a b then false else less₂ a b) (compareLex order₁ order₂) where
  equal a b := by
    simp only [first.equal,second.equal,compareLex]
    cases order₁ a b <;> simp
  less a b := by
    simp only [first.equal,first.less,second.less,compareLex]
    cases order₁ a b <;> simp

/-- The values of two types, those of the first type before those of the second. -/
def sumOrder (order₁ : α → α → Ordering) (order₂ : β → β → Ordering) : α ⊕ β → α ⊕ β → Ordering
  | .inl a,.inl b => order₁ a b
  | .inl _,.inr _ => .lt
  | .inr _,.inl _ => .gt
  | .inr a,.inr b => order₂ a b

instance {order₁ : α → α → Ordering} {order₂ : β → β → Ordering} [Std.TransCmp order₁] [Std.TransCmp order₂] :
    Std.TransCmp (sumOrder order₁ order₂) where
  eq_swap {a b} := by
    cases a <;> cases b
    case inl.inl a b => exact swap_of_oriented b a
    case inr.inr a b => exact swap_of_oriented b a
    all_goals rfl
  isLE_trans {a b c} first second := by
    cases a <;> cases b <;> cases c <;> simp only [sumOrder] at first second ⊢
    case inl.inl.inl => exact Std.TransCmp.isLE_trans first second
    case inr.inr.inr => exact Std.TransCmp.isLE_trans first second
    all_goals first | rfl | contradiction

end SendersIo.Comparisons
