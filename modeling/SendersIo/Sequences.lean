import SendersIo.Interleaving

/-!
Runs in which every event is handled to completion before the next one. They are
runs of the machine, from one idle configuration to the next.
-/
namespace SendersIo.Sequences
open SendersIo.Interleaving
universe u

variable {Party State Instr Event : Type u}

section
variable (M : Machine Party State Instr Event)

/-- What a party makes of the state that executes the instructions alone. -/
inductive Completes (p : Party) : State → List Instr → State → Prop
  | done {s : State} : Completes p s [] s
  | step {s s' s'' : State} {i : Instr} {rest new : List Instr} :
      (s',new) ∈ M.exec p i s → Completes p s' (new ++ rest) s'' → Completes p s (i :: rest) s''

/-- The event is accepted, and its handler runs to completion. -/
def Handles (s : State) (e : Event) (s' : State) : Prop :=
  ∃ s₁ prog, M.accept e s = some (s₁,prog) ∧ Completes M (M.party e) s₁ prog s'

/-- The states after the events, each handled to completion before the next. -/
inductive Sequence (s₀ : State) : List Event → State → Prop
  | start : Sequence s₀ [] s₀
  | event {es : List Event} {s s' : State} {e : Event} :
      Sequence s₀ es s → Handles M s e s' → Sequence s₀ (es ++ [e]) s'

end

variable {M : Machine Party State Instr Event} {p : Party} {s s' s₀ : State} {i : Instr} {rest prog : List Instr}
  {e : Event} {es : List Event}

theorem completes_nil : Completes M p s [] s' ↔ s' = s := by
  constructor
  · intro completes
    cases completes
    rfl
  · rintro rfl
    exact .done

theorem completes_cons :
    Completes M p s (i :: rest) s' ↔ ∃ out ∈ M.exec p i s, Completes M p out.1 (out.2 ++ rest) s' := by
  constructor
  · intro completes
    cases completes with
    | step ran later => exact ⟨_,ran,later⟩
  · rintro ⟨out,ran,later⟩
    exact .step ran later

theorem exists_completes_nil : ∃ s', Completes M p s [] s' := ⟨s,.done⟩

theorem exists_completes_cons {new : List Instr} (ran : (s',new) ∈ M.exec p i s)
    (later : ∃ s'', Completes M p s' (new ++ rest) s'') : ∃ s'', Completes M p s (i :: rest) s'' :=
  later.imp fun _ => .step ran

/-- What holds at the start and is kept by every event holds after all of them. -/
theorem Sequence.invariant {J : State → Prop} (start : J s₀) (keeps : ∀ s e s', J s → Handles M s e s' → J s')
    (sequence : Sequence M s₀ es s) : J s := by
  induction sequence with
  | start => exact start
  | event _ handles ih => exact keeps _ _ _ ih handles

/-- A configuration in which no party has anything left. -/
def idle (s : State) : Config Party State Instr := ⟨s,fun _ => []⟩

@[simp] theorem idle_shared (s : State) : (idle s : Config Party State Instr).shared = s := rfl

section
variable [DecidableEq Party] {c c₀ : Config Party State Instr}

@[simp] theorem put_put (c : Config Party State Instr) (p : Party) (s s' : State) (prog prog' : List Instr) :
    (c.put p s prog).put p s' prog' = c.put p s' prog' := by
  simp [Config.put]

@[simp] theorem put_same (c : Config Party State Instr) (p : Party) : c.put p c.shared (c.threads p) = c := by
  simp [Config.put]

@[simp] theorem idle_put (s s' : State) (p : Party) : (idle s : Config Party State Instr).put p s' [] = idle s' := by
  simp [Config.put,idle]

/-- What every instruction of the party keeps holds when it is done. -/
theorem Completes.keeps {I : Config Party State Instr → Prop}
    (keeps : ∀ c i rest s new, I c → c.threads p = i :: rest → (s,new) ∈ M.exec p i c.shared → I (c.put p s (new ++ rest)))
    (completes : Completes M p s prog s') (shared : c.shared = s) (left : c.threads p = prog) (holds : I c) :
    I (c.put p s' []) := by
  induction completes generalizing c with
  | done =>
    rw [← shared,← left,put_same]
    exact holds
  | step ran later ih =>
    have next := keeps c _ _ _ _ holds left (by rwa [shared])
    simpa using ih (c := c.put p _ _) (put_shared c p _ _) (put_threads_self c p _ _) next

/-- Handling an event is a run of the machine. -/
theorem Handles.reach (handles : Handles M s e s') (reach : Reach M Any c₀ (idle s)) : Reach M Any c₀ (idle s') := by
  obtain ⟨s₁,prog,accepted,completes⟩ := handles
  have called : Reach M Any c₀ ((idle s).put (M.party e) s₁ prog) :=
    .step (l := .call e) reach trivial ((mem_next_call M).mpr ⟨_,_,rfl,accepted,rfl⟩)
  have done := completes.keeps (I := Reach M Any c₀) (c := (idle s).put (M.party e) s₁ prog)
    (fun c i rest s new reached left ran =>
      .step (l := .run (M.party e)) reached trivial ((mem_next_run M).mpr ⟨_,_,_,_,left,ran,rfl⟩))
    (put_shared _ _ _ _) (put_threads_self _ _ _ _) called
  simpa using done

/-- A sequence of events is a run of the machine. -/
theorem Sequence.reach (sequence : Sequence M s₀ es s) : Reach M Any (idle s₀) (idle s) := by
  induction sequence with
  | start => exact .start
  | event _ handles ih => exact handles.reach ih

end

/-! ### Sequences that are computed -/

section
variable (M)

/-- The state after the instructions, if each of them has an outcome and the fuel is enough. -/
def complete (p : Party) : Nat → State → List Instr → Option State
  | _,s,[] => some s
  | 0,_,_ => none
  | fuel + 1,s,i :: rest => (M.exec p i s).head?.bind fun out => complete p fuel out.1 (out.2 ++ rest)

/-- The state after the events. -/
def handle (fuel : Nat) (s : State) (es : List Event) : Option State :=
  es.foldlM (fun s e => (M.accept e s).bind fun out => complete M (M.party e) fuel out.1 out.2) s

end

theorem completes_of_complete {fuel : Nat} (computed : complete M p fuel s prog = some s') : Completes M p s prog s' := by
  induction fuel generalizing s prog with
  | zero =>
    cases prog with
    | nil => exact completes_nil.mpr (Option.some.inj computed).symm
    | cons i rest => cases computed
  | succ fuel ih =>
    cases prog with
    | nil => exact completes_nil.mpr (Option.some.inj computed).symm
    | cons i rest =>
      obtain ⟨out,ran,later⟩ := Option.bind_eq_some_iff.mp computed
      exact .step (List.mem_of_mem_head? ran) (ih later)

theorem sequence_of_handle {fuel : Nat} {events : List Event} (before : Sequence M s₀ es s)
    (computed : handle M fuel s events = some s') : Sequence M s₀ (es ++ events) s' := by
  induction events generalizing s es with
  | nil =>
    rw [List.append_nil,← Option.some.inj computed]
    exact before
  | cons e events ih =>
    obtain ⟨s₁,handled,later⟩ := Option.bind_eq_some_iff.mp (by simpa [handle,List.foldlM_cons] using computed)
    obtain ⟨out,accepted,completed⟩ := Option.bind_eq_some_iff.mp handled
    have next := ih (.event before ⟨out.1,out.2,accepted,completes_of_complete completed⟩) later
    simpa using next

/-- A state that is computed is one after the events. -/
theorem exists_of_handle (M : Machine Party State Instr Event) (fuel : Nat) (s : State) (es : List Event) (P : State → Bool)
    (computed : (handle M fuel s es).any P = true) : ∃ s', Sequence M s es s' ∧ P s' = true := by
  obtain ⟨s',handled,holds⟩ := (Option.any_eq_true P _).mp computed
  exact ⟨s',sequence_of_handle .start handled,holds⟩

end SendersIo.Sequences
