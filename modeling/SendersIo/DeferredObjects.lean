import Mathlib.Logic.Function.Basic
import SendersIo.ManualLifetime
import SendersIo.OperationRuns

/-!
Objects that are constructed later. A `deferred` has the arguments of an object or the object
itself in a union, and a flag says which. The copies take over the flag, and never the
object; and while an object is constructed, neither is there: if that throws, the
destructor finds the flag that says that the arguments are.
-/
namespace SendersIo.DeferredObjects
open SendersIo.ManualLifetime SendersIo.OperationRuns

/-- `deferred`: the two members of the union, the `tup` of its `operator()`, and the flag. -/
structure Deferred where
  args : Storage Unit
  value : Storage Unit
  tup : Storage Unit
  emplaced : Bool

/-- Memory in which no `deferred` was constructed yet. -/
def raw : Deferred := ⟨.empty,.empty,.empty,false⟩

/-- The constructor from arguments. -/
def Deferred.construct (memory : Deferred) : Deferred :=
  { memory with args := memory.args.construct (), emplaced := false }

/-- The copy constructor, and the move constructor: what it leaves of the arguments is still a
    tuple. -/
def Deferred.copy (memory other : Deferred) : Deferred :=
  { memory with args := memory.args.construct (), emplaced := other.emplaced }

/-- The object that a copy was made of. -/
def Deferred.copied (other : Deferred) : Deferred := { other with args := other.args.read }

/-- `operator()`, up to the construction of the object. -/
def Deferred.take (d : Deferred) : Deferred := { d with args := d.args.read.destroy, tup := d.tup.construct () }

/-- `operator()`; the construction of the object throws or does not. -/
def Deferred.call (d : Deferred) (throws : Bool) : Deferred :=
  if throws then { d.take with tup := d.take.tup.destroy }
  else { d.take with value := d.take.value.construct (), emplaced := true, tup := d.take.tup.destroy }

/-- The destructor. -/
def Deferred.destroy (d : Deferred) : Deferred :=
  if d.emplaced then { d with value := d.value.destroy } else { d with args := d.args.destroy }

/-- The operations on the objects, which are named by the memory that they are in. -/
inductive Op where
  | construct (k : Nat)
  | copy (k i : Nat)
  | move (k i : Nat)
  | call (i : Nat) (throws : Bool)
  | destroy (i : Nat)

/-- One operation. -/
def step (s : Nat → Deferred) : Op → Nat → Deferred
  | .construct k => Function.update s k (s k).construct
  | .copy k i => Function.update (Function.update s i (s i).copied) k ((s k).copy (s i))
  | .move k i => Function.update (Function.update s i (s i).copied) k ((s k).copy (s i))
  | .call i throws => Function.update s i ((s i).call throws)
  | .destroy i => Function.update s i (s i).destroy

/-- What became of an object: its `operator()` was not called yet, or it was and returned, or it
    threw. -/
inductive Status where
  | absent
  | fresh
  | called
  | threw
  deriving DecidableEq

/-- What an operation makes of the objects. -/
def apply (m : Nat → Status) : Op → Nat → Status
  | .construct k => Function.update m k .fresh
  | .copy k _ => Function.update m k .fresh
  | .move k _ => Function.update m k .fresh
  | .call i throws => Function.update m i (if throws then .threw else .called)
  | .destroy i => Function.update m i .absent

/-- Objects are constructed in memory without one, of objects that are there, and `operator()`
    is called at most once. -/
def Permitted (m : Nat → Status) : Op → Prop
  | .construct k => m k = .absent
  | .copy k i => m k = .absent ∧ m i ≠ .absent
  | .move k i => m k = .absent ∧ m i ≠ .absent
  | .call i _ => m i = .fresh
  | .destroy i => m i ≠ .absent

/-- The flag of an object says which member is there, of which there is one at most; no member is
    lost, and none is read or destroyed while it is not there; and those of an object that
    is gone were all destroyed once, as was every `tup`. -/
structure Sound (d : Deferred) (status : Status) : Prop where
  emplaced : status ≠ .absent → (d.emplaced = true ↔ d.value.object.isSome = true)
  single : ¬ (d.args.object.isSome = true ∧ d.value.object.isSome = true)
  kept : d.args.lost = [] ∧ d.value.lost = []
  used : d.args.misused = 0 ∧ d.value.misused = 0 ∧ d.tup.misused = 0
  ended : status = .absent → d.args.Balanced ∧ d.value.Balanced
  tup : d.tup.Balanced

/-- All objects are sound. -/
def AllSound (s : Nat → Deferred) (m : Nat → Status) : Prop := ∀ k, Sound (s k) (m k)

/-- No object is copied or moved from after its `operator()` was called, and none is destroyed
    whose `operator()` threw. -/
def Plain (m : Nat → Status) : Op → Prop
  | .copy _ i => m i = .fresh
  | .move _ i => m i = .fresh
  | .destroy i => m i ≠ .threw
  | _ => True

/-- The members of an object are those that its status tells. -/
structure Matches (d : Deferred) (status : Status) : Prop where
  args : d.args.object.isSome = true ↔ status = .fresh
  value : d.value.object.isSome = true ↔ status = .called
  emplaced : status ≠ .absent → (d.emplaced = true ↔ status = .called)
  kept : d.args.lost = [] ∧ d.value.lost = []
  used : d.args.misused = 0 ∧ d.value.misused = 0 ∧ d.tup.misused = 0
  tup : d.tup.object = none ∧ d.tup.lost = []

variable {d memory other : Deferred} {status : Status} {s : Nat → Deferred} {m : Nat → Status} {op : Op} {throws : Bool}

/-! ### One object -/

theorem matches_raw : Matches raw .absent := by
  constructor <;> simp [raw,Storage.empty]

theorem Matches.args_none (same : Matches d status) (no : status ≠ .fresh) : d.args.object = none := by
  simpa using fun some => no (same.args.mp some)

theorem Matches.value_none (same : Matches d status) (no : status ≠ .called) : d.value.object = none := by
  simpa using fun some => no (same.value.mp some)

theorem Matches.sound (same : Matches d status) : Sound d status where
  emplaced some := (same.emplaced some).trans same.value.symm
  single := by
    rw [same.args,same.value]
    rintro ⟨rfl,⟨⟩⟩
  kept := same.kept
  used := same.used
  ended := by
    rintro rfl
    exact ⟨(Storage.balanced_iff _).mpr ⟨same.args_none (by decide),same.kept.1⟩,
      (Storage.balanced_iff _).mpr ⟨same.value_none (by decide),same.kept.2⟩⟩
  tup := (Storage.balanced_iff _).mpr same.tup

theorem matches_construct (same : Matches memory .absent) : Matches memory.construct .fresh := by
  have args := same.args_none (by decide)
  have value := same.value_none (by decide)
  constructor <;> simp [Deferred.construct,Storage.construct,args,value,same.kept,same.used,same.tup]

/-- A copy of an object whose arguments are there is one whose arguments are there. -/
theorem matches_copy (same : Matches memory .absent) (from_ : Matches other .fresh) : Matches (memory.copy other) .fresh := by
  have args := same.args_none (by decide)
  have value := same.value_none (by decide)
  have flag := from_.emplaced (by decide)
  constructor <;> simp [Deferred.copy,Storage.construct,args,value,same.kept,same.used,same.tup,flag]

theorem matches_copied (same : Matches other .fresh) : Matches other.copied .fresh := by
  obtain ⟨args,there⟩ := Option.isSome_iff_exists.mp (same.args.mpr rfl)
  have value := same.value_none (by decide)
  have flag := same.emplaced (by decide)
  constructor <;> simp [Deferred.copied,Storage.read,there,value,flag,same.kept,same.used,same.tup]

/-- When the object is constructed, the arguments were destroyed already. -/
theorem matches_call (same : Matches d .fresh) (throws : Bool) :
    Matches (d.call throws) (if throws then .threw else .called) := by
  obtain ⟨args,there⟩ := Option.isSome_iff_exists.mp (same.args.mpr rfl)
  have value := same.value_none (by decide)
  have flag := same.emplaced (by decide)
  cases throws <;> constructor <;>
    simp [Deferred.call,Deferred.take,Storage.read,Storage.construct,Storage.destroy,there,value,flag,same.kept,
      same.used,same.tup]

theorem matches_destroy (same : Matches d status) (some : status ≠ .absent) (returned : status ≠ .threw) :
    Matches d.destroy .absent := by
  cases status with
  | absent => exact absurd rfl some
  | threw => exact absurd rfl returned
  | fresh =>
    obtain ⟨args,there⟩ := Option.isSome_iff_exists.mp (same.args.mpr rfl)
    have value := same.value_none (by decide)
    have flag := same.emplaced (by decide)
    constructor <;> simp [Deferred.destroy,Storage.destroy,there,value,flag,same.kept,same.used,same.tup]
  | called =>
    obtain ⟨object,there⟩ := Option.isSome_iff_exists.mp (same.value.mpr rfl)
    have args := same.args_none (by decide)
    have flag := same.emplaced (by decide)
    constructor <;> simp [Deferred.destroy,Storage.destroy,there,args,flag,same.kept,same.used,same.tup]

/-- To copy an object whose arguments are gone is to read them. -/
theorem copied_misused (same : Matches other status) (gone : status ≠ .fresh) : other.copied.args.misused ≠ 0 := by
  simp [Deferred.copied,Storage.read,same.args_none gone]

/-- The destructor destroys the arguments again if the construction of the object threw. -/
theorem destroy_misused (same : Matches d .threw) : d.destroy.args.misused ≠ 0 := by
  have flag := same.emplaced (by decide)
  simp [Deferred.destroy,Storage.destroy,same.args_none (by decide),flag]

/-! ### All objects -/

theorem matches_update (all : ∀ k, Matches (s k) (m k)) {i : Nat} (here : Matches d status) (k : Nat) :
    Matches (Function.update s i d k) (Function.update m i status k) := by
  by_cases this : k = i
  · subst this
    simpa only [Function.update_self] using here
  · simpa only [Function.update_of_ne this] using all k

theorem matches_copies (all : ∀ k, Matches (s k) (m k)) {k i : Nat} (absent : m k = .absent) (fresh : m i = .fresh) (j : Nat) :
    Matches (Function.update (Function.update s i (s i).copied) k ((s k).copy (s i)) j)
      (Function.update m k .fresh j) := by
  have original : ∀ j, Matches (Function.update s i (s i).copied j) (m j) := fun j => by
    have updated := matches_update all (i := i) (matches_copied (fresh ▸ all i)) j
    rwa [← fresh,Function.update_eq_self] at updated
  exact matches_update original (matches_copy (absent ▸ all k) (fresh ▸ all i)) j

theorem matches_step (all : ∀ k, Matches (s k) (m k)) (permitted : Permitted m op) (plain : Plain m op) :
    ∀ k, Matches (step s op k) (apply m op k) := by
  cases op with
  | construct k => exact matches_update all (matches_construct (permitted ▸ all k))
  | copy k i => exact matches_copies all permitted.1 plain
  | move k i => exact matches_copies all permitted.1 plain
  | call i throws => exact matches_update all (matches_call (permitted ▸ all i) throws)
  | destroy i => exact matches_update all (matches_destroy (all i) permitted plain)

theorem copies_broken (all : ∀ k, Matches (s k) (m k)) {k i : Nat} (absent : m k = .absent) (some : m i ≠ .absent)
    (called : m i ≠ .fresh) :
    ¬ AllSound (Function.update (Function.update s i (s i).copied) k ((s k).copy (s i))) (Function.update m k .fresh) := by
  intro sound
  have other : i ≠ k := by
    rintro rfl
    exact some absent
  have used := (sound i).used.1
  rw [Function.update_of_ne other,Function.update_self] at used
  exact copied_misused (all i) called used

/-- After any other operation, a member was read or destroyed that was not there. -/
theorem not_plain_broken (all : ∀ k, Matches (s k) (m k)) (permitted : Permitted m op) (wrong : ¬ Plain m op) :
    ¬ AllSound (step s op) (apply m op) := by
  cases op with
  | copy k i => exact copies_broken all permitted.1 permitted.2 wrong
  | move k i => exact copies_broken all permitted.1 permitted.2 wrong
  | destroy i =>
    intro sound
    have used := (sound i).used.1
    have threw : m i = .threw := by simpa [Plain] using wrong
    simp only [step,Function.update_self] at used
    exact destroy_misused (threw ▸ all i) used
  | construct k => exact absurd trivial wrong
  | call i throws => exact absurd trivial wrong

/-! ### Runs -/

/-- A run of permitted operations. -/
def Valid (ops : List Op) : Prop := Throughout apply Permitted (fun _ => .absent) ops

/-- All objects are sound before and after every operation of a run. -/
def StaySound (ops : List Op) : Prop := Correct step apply (fun _ _ _ => True) AllSound (fun _ => raw) (fun _ => .absent) ops

/-- In a run, all objects are sound all the time if and only if no object is copied or moved from
    after its `operator()` was called, and none is destroyed whose `operator()` threw. -/
theorem lifetimes_sound_iff (ops : List Op) (valid : Valid ops) :
    StaySound ops ↔ Throughout apply Plain (fun _ => .absent) ops :=
  correct_iff (fun s m => ∀ k, Matches (s k) (m k)) (fun _ _ all k => (all k).sound)
    (fun _ _ _ all permitted plain => ⟨trivial,matches_step all permitted plain⟩)
    (fun _ _ _ all permitted wrong _ => not_plain_broken all permitted wrong) (fun _ => matches_raw) valid

/-- An object that is copied, called and destroyed, and a copy that throws. -/
theorem lifetimes_sound_copy : StaySound [.construct 0,.copy 1 0,.call 0 false,.call 1 true,.destroy 0] :=
  (lifetimes_sound_iff _ (by simp [Valid,Throughout,Permitted,apply])).mpr
    (by simp [Throughout,Plain,apply])

/-- The copy of an object that was called has the flag of one, with its arguments only. -/
theorem copy_of_called_unsound : ¬ ∀ ops, Valid ops → StaySound ops := by
  intro claimed
  have sound := claimed [.construct 0,.call 0 false,.copy 1 0]
    (by simp [Valid,Throughout,Permitted,apply])
  have used := (sound.2.2.2.2.2.2 0).used.1
  revert used
  decide

end SendersIo.DeferredObjects
