import SendersIo.Channel

/-!
What becomes of the subscriptions of a channel. A stop request that comes before the callback is
registered is found by the callback's construction, one that comes before the decision to
subscribe completes the receiver at once, and one that comes later waits for the mutex. Whoever
takes an observer out has the completion of its receiver left.
-/
namespace SendersIo.ChannelOutcome
open SendersIo.Interleaving SendersIo.IntrusiveLists SendersIo.Channel

variable {c c' : Config Party Context Instr} {s s' : Context} {x y : Nat} {p q : Party} {i j : Instr} {d : Subscription}
  {new rest prog : List Instr} {e : Event}

/-- The subscription that an instruction decides about. -/
def about : Instr → Option Nat
  | .emplaceCallback x | .compareExchange x | .exchangeStop x => some x
  | .setValue x | .resetCallback x | .complete x => some x
  | .enqueue a => a.subject
  | _ => none

/-- What a step does to what the parties have left: a party gives up an instruction and gets
    others instead. -/
structure Moved (c c' : Config Party Context Instr) (p : Party) (done : Option Instr) (new : List Instr) : Prop where
  keeps : ∀ q j, j ∈ c.threads q → done ≠ some j → j ∈ c'.threads q
  came : ∀ q j, j ∈ c'.threads q → q = p ∧ j ∈ new ∨ j ∈ c.threads q
  gets : ∀ j ∈ new, j ∈ c'.threads p

/-- The stop callback of an operation that was started will be registered, or is registered
    and knows of a stop request, as long as nothing has decided about the operation. -/
structure Watched (c : Config Party Context Instr) (x : Nat) : Prop where
  unstarted : (c.shared.subs x).started = false → (c.shared.subs x).nOps = 0 ∧ (c.shared.subs x).registered = false
  begun : ∀ p, .exchangeStop x ∈ c.threads p → (c.shared.subs x).started = true
  emplacing : .emplaceCallback x ∈ c.threads (.starter x) →
    (c.shared.subs x).nOps = 0 ∧ (c.shared.subs x).registered = false ∧ .exchangeStop x ∉ c.threads (.stopper x)
  pending : (c.shared.subs x).started = true → (c.shared.subs x).nOps < 2 →
    .emplaceCallback x ∈ c.threads (.starter x) ∨ .exchangeStop x ∈ c.threads (.starter x) ∨
      (c.shared.subs x).registered = true ∧
        ((c.shared.subs x).stopRequested = true → .exchangeStop x ∈ c.threads (.stopper x))

/-- The decision to subscribe and what follows it are left to the thread that starts. -/
structure Subscribes (c : Config Party Context Instr) (x : Nat) : Prop where
  deciding : (c.shared.subs x).started = true → (c.shared.subs x).nOps = 0 → .compareExchange x ∈ c.threads (.starter x)
  asking : (c.shared.subs x).subscribing = .asked → .enqueue (.subscribe x) ∈ c.threads (.starter x)

/-- Whoever takes the observer out has the completion left, or the mutex has it to come. -/
structure Unsubscribes (c : Config Party Context Instr) (x : Nat) : Prop where
  asking : (c.shared.subs x).unsubscribing = .asked → ∃ p, .enqueue (.unsubscribe x) ∈ c.threads p
  decided : (c.shared.subs x).unsubscribing ≠ .idle → 2 ≤ (c.shared.subs x).nOps
  removing : ∀ p, (c.shared.subs x).remover = some p →
    (c.shared.subs x).completions ≠ 0 ∨ .complete x ∈ c.threads p ∨
      .setValue x ∈ c.threads p ∧ (c.shared.subs x).nOps = 1 ∨
      (c.shared.subs x).unsubscribing = .asked ∨ (c.shared.subs x).unsubscribing = .queued

/-- The callback is gone before the receiver is completed. -/
structure Resets (c : Config Party Context Instr) (x : Nat) : Prop where
  decided : ∀ p j, j ∈ c.threads p → j = .resetCallback x ∨ j = .complete x → 2 ≤ (c.shared.subs x).nOps
  watching : (c.shared.subs x).registered = true → (c.shared.subs x).completions = 0
  reset : ∀ p, .complete x ∈ c.threads p → .resetCallback x ∈ c.threads p ∨ (c.shared.subs x).registered = false

structure Account (c : Config Party Context Instr) (x : Nat) : Prop where
  watched : Watched c x
  subscribes : Subscribes c x
  unsubscribes : Unsubscribes c x
  resets : Resets c x

section
variable {done : Option Instr} (moved : Moved c c' p done new)
include moved

theorem Moved.mem_iff (old : done ≠ some j) (fresh : j ∉ new) : j ∈ c'.threads q ↔ j ∈ c.threads q :=
  ⟨fun member => (moved.came q j member).resolve_left fun now => fresh now.2,fun member => moved.keeps q j member old⟩

theorem Watched.keep (watched : Watched c x) (started : (c'.shared.subs x).started = (c.shared.subs x).started)
    (nOps : (c'.shared.subs x).nOps = (c.shared.subs x).nOps)
    (registered : (c'.shared.subs x).registered = (c.shared.subs x).registered)
    (requested : (c'.shared.subs x).stopRequested = (c.shared.subs x).stopRequested)
    (emplaced : done ≠ some (.emplaceCallback x)) (exchanged : done ≠ some (.exchangeStop x))
    (emplaces : .emplaceCallback x ∉ new) (exchanges : .exchangeStop x ∉ new) : Watched c' x := by
  have emplace := fun q => moved.mem_iff (q := q) emplaced emplaces
  have exchange := fun q => moved.mem_iff (q := q) exchanged exchanges
  refine ⟨?_,fun q => ?_,?_,?_⟩
  · simpa only [started,nOps,registered] using watched.unstarted
  · simpa only [started,exchange] using watched.begun q
  · simpa only [nOps,registered,emplace,exchange] using watched.emplacing
  · simpa only [started,nOps,registered,requested,emplace,exchange] using watched.pending

theorem Subscribes.keep (subscribes : Subscribes c x)
    (started : (c'.shared.subs x).started = (c.shared.subs x).started)
    (nOps : (c'.shared.subs x).nOps = (c.shared.subs x).nOps)
    (subscribing : (c'.shared.subs x).subscribing = (c.shared.subs x).subscribing)
    (compared : done ≠ some (.compareExchange x)) (enqueued : done ≠ some (.enqueue (.subscribe x))) :
    Subscribes c' x := by
  refine ⟨fun begun zero => ?_,fun asked => ?_⟩
  · exact moved.keeps _ _ (subscribes.deciding (started ▸ begun) (nOps ▸ zero)) compared
  · exact moved.keeps _ _ (subscribes.asking (subscribing ▸ asked)) enqueued

theorem Unsubscribes.asks (unsubscribes : Unsubscribes c x)
    (unsubscribing : (c'.shared.subs x).unsubscribing = (c.shared.subs x).unsubscribing)
    (enqueued : done ≠ some (.enqueue (.unsubscribe x))) (asked : (c'.shared.subs x).unsubscribing = .asked) :
    ∃ q, .enqueue (.unsubscribe x) ∈ c'.threads q := by
  obtain ⟨q,member⟩ := unsubscribes.asking (unsubscribing ▸ asked)
  exact ⟨q,moved.keeps q _ member enqueued⟩

theorem Unsubscribes.keep (unsubscribes : Unsubscribes c x)
    (nOps : (c'.shared.subs x).nOps = (c.shared.subs x).nOps)
    (unsubscribing : (c'.shared.subs x).unsubscribing = (c.shared.subs x).unsubscribing)
    (remover : (c'.shared.subs x).remover = (c.shared.subs x).remover)
    (completions : (c'.shared.subs x).completions = (c.shared.subs x).completions)
    (enqueued : done ≠ some (.enqueue (.unsubscribe x))) (set : done ≠ some (.setValue x))
    (completed : done ≠ some (.complete x)) : Unsubscribes c' x := by
  refine ⟨unsubscribes.asks moved unsubscribing enqueued,?_,fun q mine => ?_⟩
  · rw [nOps,unsubscribing]
    exact unsubscribes.decided
  · rw [nOps,unsubscribing,completions]
    rw [remover] at mine
    rcases unsubscribes.removing q mine with once | left | ⟨left,one⟩ | asked | queued
    · exact .inl once
    · exact .inr (.inl (moved.keeps q _ left completed))
    · exact .inr (.inr (.inl ⟨moved.keeps q _ left set,one⟩))
    · exact .inr (.inr (.inr (.inl asked)))
    · exact .inr (.inr (.inr (.inr queued)))

theorem Resets.keep (resets : Resets c x) (nOps : (c'.shared.subs x).nOps = (c.shared.subs x).nOps)
    (registered : (c'.shared.subs x).registered = (c.shared.subs x).registered)
    (completions : (c'.shared.subs x).completions = (c.shared.subs x).completions)
    (reset : done ≠ some (.resetCallback x)) (completes : .complete x ∉ new) (later : .resetCallback x ∉ new) :
    Resets c' x := by
  refine ⟨fun q j member which => ?_,?_,fun q member => ?_⟩
  · rw [nOps]
    rcases moved.came q j member with ⟨_,now⟩ | before
    · rcases which with rfl | rfl
      · exact absurd now later
      · exact absurd now completes
    · exact resets.decided q j before which
  · rw [registered,completions]
    exact resets.watching
  · rw [registered]
    rcases moved.came q _ member with ⟨_,now⟩ | before
    · exact absurd now completes
    · exact (resets.reset q before).imp_left fun left => moved.keeps q _ left reset

/-- A step for another subscription. -/
theorem Account.other (account : Account c x) (same : c'.shared.subs x = c.shared.subs x)
    (old : ∀ i, done = some i → about i ≠ some x) (fresh : ∀ j ∈ new, about j ≠ some x) : Account c' x := by
  have gone : ∀ i, about i = some x → done ≠ some i := fun i mine now => old i now mine
  have none : ∀ j, about j = some x → j ∉ new := fun j mine now => fresh j now mine
  constructor
  · exact account.watched.keep moved (by rw [same]) (by rw [same]) (by rw [same]) (by rw [same])
      (gone _ rfl) (gone _ rfl) (none _ rfl) (none _ rfl)
  · exact account.subscribes.keep moved (by rw [same]) (by rw [same]) (by rw [same]) (gone _ rfl) (gone _ rfl)
  · exact account.unsubscribes.keep moved (by rw [same]) (by rw [same]) (by rw [same]) (by rw [same])
      (gone _ rfl) (gone _ rfl) (gone _ rfl)
  · exact account.resets.keep moved (by rw [same]) (by rw [same]) (by rw [same]) (gone _ rfl) (none _ rfl) (none _ rfl)

end

/-! ### The steps of a subscription -/

/-- When something has decided about an operation, its callback is not to be registered any more. -/
theorem Watched.past {done : Option Instr} (moved : Moved c c' p done new)
    (started : (c'.shared.subs x).started = true) (decided : 2 ≤ (c'.shared.subs x).nOps)
    (emplaces : .emplaceCallback x ∉ new) (absent : .emplaceCallback x ∉ c.threads (.starter x)) : Watched c' x := by
  refine ⟨fun fresh => ?_,fun _ _ => started,fun member => ?_,fun _ less => by omega⟩
  · simp [started] at fresh
  · rcases moved.came _ _ member with ⟨_,now⟩ | before
    · exact absurd now emplaces
    · exact absurd before absent

/-- Then it does not subscribe any more, unless it is about to. -/
theorem Subscribes.past {done : Option Instr} (moved : Moved c c' p done new) (subscribes : Subscribes c x)
    (decided : 2 ≤ (c'.shared.subs x).nOps)
    (subscribing : (c'.shared.subs x).subscribing = (c.shared.subs x).subscribing)
    (enqueued : done ≠ some (.enqueue (.subscribe x))) : Subscribes c' x :=
  ⟨fun _ zero => by omega,fun asked => moved.keeps _ _ (subscribes.asking (subscribing ▸ asked)) enqueued⟩

/-- Whoever takes its observer out has the completion left still, unless a `set_value` is to bring it. -/
theorem Unsubscribes.past {done : Option Instr} (moved : Moved c c' p done new) (unsubscribes : Unsubscribes c x)
    (several : (c.shared.subs x).nOps ≠ 1) (decided : 2 ≤ (c'.shared.subs x).nOps)
    (unsubscribing : (c'.shared.subs x).unsubscribing = (c.shared.subs x).unsubscribing)
    (remover : (c'.shared.subs x).remover = (c.shared.subs x).remover)
    (completions : (c'.shared.subs x).completions = (c.shared.subs x).completions)
    (enqueued : done ≠ some (.enqueue (.unsubscribe x))) (completed : done ≠ some (.complete x)) :
    Unsubscribes c' x := by
  refine ⟨unsubscribes.asks moved unsubscribing enqueued,fun _ => decided,fun q mine => ?_⟩
  rw [unsubscribing,completions]
  rw [remover] at mine
  rcases unsubscribes.removing q mine with once | left | ⟨_,one⟩ | asked | queued
  · exact .inl once
  · exact .inr (.inl (moved.keeps q _ left completed))
  · exact absurd one several
  · exact .inr (.inr (.inr (.inl asked)))
  · exact .inr (.inr (.inr (.inr queued)))

/-- And its receiver may be completed, after the callback is gone. -/
theorem Resets.past {done : Option Instr} (moved : Moved c c' p done new) (resets : Resets c x)
    (decided : 2 ≤ (c'.shared.subs x).nOps)
    (registered : (c'.shared.subs x).registered = (c.shared.subs x).registered)
    (completions : (c'.shared.subs x).completions = (c.shared.subs x).completions)
    (reset : done ≠ some (.resetCallback x)) (first : .complete x ∈ new → .resetCallback x ∈ new) : Resets c' x := by
  refine ⟨fun _ _ _ _ => decided,?_,fun q member => ?_⟩
  · rw [registered,completions]
    exact resets.watching
  · rw [registered]
    rcases moved.came q _ member with ⟨rfl,now⟩ | before
    · exact .inl (moved.gets _ (first now))
    · exact (resets.reset q before).imp_left fun next => moved.keeps q _ next reset

end SendersIo.ChannelOutcome
