import SendersIo.Fork

/-!
The signal with which a fork completes after an error. `set_error` takes
`completion_type_` with a compare-exchange, so that the first error wins and
later ones do nothing; `set_stopped` stores its type without one. An error
requests stop, the upstream sequence may answer that request with a stopped
completion, and then the stopped completion overwrites the error.
-/
namespace SendersIo.ForkOutcome
open SendersIo.Interleaving SendersIo.Signals SendersIo.Fork

variable {Error : Type}

abbrev Step (Error : Type) :=
  Config Party (OperationBase Error) (Instr Error) × Label Party (Event Error)

/-! ### What the steps of a run say -/

/-- The setup of an item or the upstream sequence reports an error. -/
def reports : Label Party (Event Error) → Bool
  | .call (.newError _ _) | .call (.upstreamError _) => true
  | _ => false

/-- The upstream sequence completes with stopped. -/
def stopsUpstream : Label Party (Event Error) → Bool
  | .call .upstreamStopped => true
  | _ => false

/-- The error of a compare-exchange on `completion_type_` that succeeds. -/
def wins (step : Step Error) : Option Error :=
  match step.2 with
  | .call _ => none
  | .run p =>
    match step.1.threads p with
    | .compareExchangeError e :: _ => if step.1.shared.completionType = 0 then some e else none
    | _ => none

def Reported (steps : List (Step Error)) : Prop := ∃ step ∈ steps, reports step.2 = true

def UpstreamStopped (steps : List (Step Error)) : Prop := ∃ step ∈ steps, stopsUpstream step.2 = true

/-- The first error that won. -/
def winner (steps : List (Step Error)) : Option Error := steps.findSome? wins

instance (steps : List (Step Error)) : Decidable (Reported steps) :=
  inferInstanceAs (Decidable (∃ step ∈ steps, reports step.2 = true))

instance (steps : List (Step Error)) : Decidable (UpstreamStopped steps) :=
  inferInstanceAs (Decidable (∃ step ∈ steps, stopsUpstream step.2 = true))

variable {steps : List (Step Error)} {step : Step Error}

theorem reported_append : Reported (steps ++ [step]) ↔ Reported steps ∨ reports step.2 = true := by
  simp [Reported,or_and_right,exists_or]

theorem upstreamStopped_append :
    UpstreamStopped (steps ++ [step]) ↔ UpstreamStopped steps ∨ stopsUpstream step.2 = true := by
  simp [UpstreamStopped,or_and_right,exists_or]

theorem winner_append : winner (steps ++ [step]) = (winner steps).or (wins step) := by
  simp [winner,List.findSome?_append]

/-! ### The parties while the receiver is being completed -/

variable {c : Config Party (OperationBase Error) (Instr Error)} {p : Party} {i : Instr Error}
  {rest new : List (Instr Error)} {s : OperationBase Error}

theorem until_not_complete {last : Instr Error} {prog : List (Instr Error)} {ctype : Nat}
    (other : last = .decreaseRef ∨ last = .startDelete) (shape : Until last prog) : .complete ctype ∉ prog := by
  obtain ⟨l,light,rfl⟩ := shape
  intro member
  rcases List.mem_append.mp member with before | same
  · exact light _ before
  · rcases other with rfl | rfl <;> simp at same

/-- Only a party that finishes completes the receiver. -/
theorem finishing_of_complete {prog : List (Instr Error)} {ctype : Nat} (shape : PartyLeft s prog p)
    (member : .complete ctype ∈ prog) : Finishing prog := by
  cases p with
  | stopCallback => rw [show prog = [] from shape] at member; cases member
  | upstream =>
    simp only [PartyLeft] at shape
    generalize s.upstream = progress at shape
    cases shape with
    | running | released => cases member
    | completing whole => exact absurd member (until_not_complete (.inl rfl) whole)
    | finishing finishing => exact finishing
  | item x =>
    simp only [PartyLeft] at shape
    generalize s.phase x = phase at shape
    cases shape with
    | fresh | setup | running | deleting | released => cases member
    | allocated | deleted => simp at member
    | failed whole => exact absurd member (until_not_complete (.inl rfl) whole)
    | completed whole => exact absurd member (until_not_complete (.inr rfl) whole)
    | finishing finishing => exact finishing

/-- While a party has something left that touches no counter, it holds a reference. -/
theorem held_of_light (inv : Fork.Invariant c) (light : Light i) (member : i ∈ c.threads p) :
    c.shared.refCounter ≠ 0 := by
  have counter := inv.counted.counter
  have not_finishing : ∀ prog : List (Instr Error), Finishing prog → i ∉ prog := by
    rintro prog (rfl | rfl | ⟨ctype,rfl⟩) here <;> simp [complete] at here
    · rcases here with rfl | rfl <;> exact light
    · subst here; exact light
    · subst here; exact light
  have shape := inv.counted.party p
  cases p with
  | stopCallback => rw [inv.counted.callback] at member; cases member
  | upstream =>
    simp only [PartyLeft] at shape
    generalize at_s : c.shared.upstream = progress at shape
    generalize c.threads .upstream = prog at shape member
    cases shape with
    | running | released => cases member
    | completing whole => rw [at_s] at counter; simp only [reduceCtorEq,if_false] at counter; omega
    | finishing finishing => exact absurd member (not_finishing _ finishing)
  | item x =>
    have holding : Holding (c.shared.phase x) := by
      simp only [PartyLeft] at shape
      generalize c.threads (.item x) = prog at shape member
      generalize c.shared.phase x = phase at shape
      cases shape with
      | fresh | released => cases member
      | finishing finishing => exact absurd member (not_finishing _ finishing)
      | _ => trivial
    have positive := List.length_pos_of_mem ((inv.counted.holding x).mpr holding)
    split at counter <;> omega

/-- When the receiver is being completed, nobody else has anything left. -/
theorem quiet_of_finishing (inv : Fork.Invariant c) (finishing : Finishing (c.threads p)) {q : Party}
    (light : Light i) : i ∉ c.threads q :=
  fun member => held_of_light inv light member (inv.finish.finisher p finishing).1

/-- Once the receiver is completed, nothing is left. -/
theorem idle_of_completed (inv : Fork.Invariant c) (completed : c.shared.completions ≠ []) (q : Party) :
    c.threads q = [] := by
  have zero := inv.finish.finished completed
  cases left : c.threads q with
  | nil => rfl
  | cons j after =>
    exfalso
    have shape := inv.counted.party q
    rw [left] at shape
    rcases party_cases shape with ⟨light,-⟩ | ⟨-,-,releasing⟩ | ⟨x,-,-,item⟩ | ⟨finishing,-⟩
    · exact held_of_light inv light (left ▸ List.mem_cons_self) zero
    · have counter := inv.counted.counter
      rcases releasing with ⟨-,completing⟩ | ⟨x,-,phase⟩
      · rw [completing] at counter; simp only [reduceCtorEq,if_false] at counter; omega
      · have held : Holding (c.shared.phase x) := by rcases phase with phase | phase <;> simp [phase,Holding]
        have positive := List.length_pos_of_mem ((inv.counted.holding x).mpr held)
        split at counter <;> omega
    · have counter := inv.counted.counter
      have held : Holding (c.shared.phase x) := by rcases item with ⟨-,phase⟩ | ⟨-,phase⟩ <;> simp [phase,Holding]
      have positive := List.length_pos_of_mem ((inv.counted.holding x).mpr held)
      split at counter <;> omega
    · exact completed (inv.finish.finisher q (left ▸ finishing)).2

/-! ### What the state says about the steps so far -/

/-- The completion type, the stored error and the instructions that are left,
    as the steps of the run determine them. -/
structure Tracked (steps : List (Step Error)) (c : Config Party (OperationBase Error) (Instr Error)) : Prop where
  known : c.shared.completionType ≤ 3
  unwon : c.shared.completionType = 0 → winner steps = none
  emplacing : ∀ q e, .emplaceError e ∈ c.threads q → winner steps = some e
  stored : ∀ e, c.shared.error = some e → winner steps = some e
  announcing : c.shared.completionType = 1 → ∃ q, .compareExchangeEmplaced ∈ c.threads q
  reporting : Reported steps → c.shared.completionType = 0 → ∃ q e, .compareExchangeError e ∈ c.threads q
  storing : ∀ q, .storeStopped ∈ c.threads q → UpstreamStopped steps
  stopped : c.shared.completionType = 3 → UpstreamStopped steps
  answering : UpstreamStopped steps → c.shared.completionType = 3 ∨ ∃ q, .storeStopped ∈ c.threads q
  loaded : ∀ q ctype, .complete ctype ∈ c.threads q → ctype = c.shared.completionType

/-- Instructions that write neither the completion type nor the error. -/
def Plain : Instr Error → Prop
  | .compareExchangeError _ | .emplaceError _ | .compareExchangeEmplaced | .storeStopped => False
  | _ => True

theorem initial_tracked : Tracked [] (initial Error) := by
  constructor <;> simp [initial,start,constructed,winner,Reported,UpstreamStopped]

theorem run_reported : Reported (steps ++ [(c,.run p)]) ↔ Reported steps := by
  simp [reported_append,reports]

theorem run_upstreamStopped : UpstreamStopped (steps ++ [(c,.run p)]) ↔ UpstreamStopped steps := by
  simp [upstreamStopped_append,stopsUpstream]

theorem winner_run (steps : List (Step Error)) (left : c.threads p = i :: rest)
    (lost : ∀ e, i = .compareExchangeError e → c.shared.completionType ≠ 0) :
    winner (steps ++ [(c,.run p)]) = winner steps := by
  have nobody : wins (c,.run p) = none := by
    simp only [wins,left]
    split
    · rename_i e _ same
      obtain ⟨rfl,rfl⟩ := List.cons.inj same
      rw [if_neg (lost e rfl)]
    · rfl
  rw [winner_append,nobody,Option.or_none]

theorem plain_tracked (tracked : Tracked steps c) (left : c.threads p = i :: rest) (plain : Plain i)
    (type : s.completionType = c.shared.completionType) (error : s.error = c.shared.error)
    (new_plain : ∀ j ∈ new, Plain j) (loads : ∀ ctype, .complete ctype ∈ new → ctype = c.shared.completionType) :
    Tracked (steps ++ [(c,.run p)]) (c.put p s (new ++ rest)) := by
  have same : winner (steps ++ [(c,.run p)]) = winner steps :=
    winner_run steps left (fun e is => by rw [is] at plain; exact plain.elim)
  have stays : ∀ {j : Instr Error} {q : Party}, j ∈ c.threads q → ¬ Plain j →
      j ∈ (c.put p s (new ++ rest)).threads q :=
    fun member other => mem_put_of_ne left member (fun is => other (is ▸ plain))
  have before : ∀ {j : Instr Error} {q : Party}, j ∈ (c.put p s (new ++ rest)).threads q → ¬ Plain j →
      j ∈ c.threads q :=
    fun member other => (mem_of_mem_put left member).resolve_left (fun here => other (new_plain _ here))
  obtain ⟨known,unwon,emplacing,stored,announcing,reporting,storing,stopped,answering,loaded⟩ := tracked
  constructor <;> simp only [put_shared,type,error,same,run_reported,run_upstreamStopped]
  · exact known
  · exact unwon
  · exact fun q e member => emplacing q e (before member id)
  · exact stored
  · intro one
    obtain ⟨q,member⟩ := announcing one
    exact ⟨q,stays member id⟩
  · intro reported zero
    obtain ⟨q,e,member⟩ := reporting reported zero
    exact ⟨q,e,stays member id⟩
  · exact fun q member => storing q (before member id)
  · exact stopped
  · intro answer
    rcases answering answer with three | ⟨q,member⟩
    · exact .inl three
    · exact .inr ⟨q,stays member id⟩
  · intro q ctype member
    rcases mem_of_mem_put left member with here | here
    · exact loads ctype here
    · exact loaded q ctype here

/-- While somebody may still write the completion type, nobody has read it. -/
theorem not_loaded (inv : Fork.Invariant c) (light : Light i) (left : c.threads p = i :: rest) (q : Party)
    (ctype : Nat) : .complete ctype ∉ c.threads q :=
  fun member => held_of_light inv light (left ▸ List.mem_cons_self)
    (inv.finish.finisher q (finishing_of_complete (inv.counted.party q) member)).1

theorem compareExchangeError_tracked {e : Error} (inv : Fork.Invariant c) (tracked : Tracked steps c)
    (left : c.threads p = .compareExchangeError e :: rest) (ran : (s,new) ∈ exec p (.compareExchangeError e) c.shared) :
    Tracked (steps ++ [(c,.run p)]) (c.put p s (new ++ rest)) := by
  have unread := not_loaded inv (i := .compareExchangeError e) trivial left
  obtain ⟨known,unwon,emplacing,stored,announcing,reporting,storing,stopped,answering,loaded⟩ := tracked
  simp only [exec] at ran
  by_cases zero : c.shared.completionType = 0
  · rw [if_pos zero] at ran
    obtain ⟨rfl,rfl⟩ := Prod.mk.inj (List.mem_singleton.mp ran)
    have won : winner (steps ++ [(c,.run p)]) = some e := by
      rw [winner_append,unwon zero,Option.none_or]
      simp only [wins,left,zero,if_true]
    constructor <;> simp only [put_shared,run_reported,run_upstreamStopped,won]
    · decide
    · exact fun contra => absurd contra one_ne_zero
    · intro q e' member
      rcases mem_of_mem_put left member with here | here
      · simp only [List.mem_cons,Instr.emplaceError.injEq,reduceCtorEq,List.not_mem_nil,or_false] at here
        rw [here]
      · cases (unwon zero).symm.trans (emplacing q e' here)
    · intro e' same
      cases (unwon zero).symm.trans (stored e' same)
    · exact fun _ => ⟨p,by simp⟩
    · exact fun _ contra => absurd contra one_ne_zero
    · intro q member
      rcases mem_of_mem_put left member with here | here
      · simp at here
      · exact storing q here
    · exact fun contra => absurd contra (by decide)
    · intro answer
      rcases answering answer with three | ⟨q,member⟩
      · rw [zero] at three; exact absurd three (by decide)
      · exact .inr ⟨q,mem_put_of_ne left member (by simp)⟩
    · intro q ctype member
      rcases mem_of_mem_put left member with here | here
      · simp at here
      · exact absurd here (unread q ctype)
  · rw [if_neg zero] at ran
    obtain ⟨rfl,rfl⟩ := Prod.mk.inj (List.mem_singleton.mp ran)
    have same := winner_run steps left (fun _ _ => zero)
    have before : ∀ {j : Instr Error} {q : Party}, j ∈ (c.put p c.shared ([] ++ rest)).threads q → j ∈ c.threads q :=
      fun member => (mem_of_mem_put left member).resolve_left (List.not_mem_nil)
    constructor <;> simp only [put_shared,run_reported,run_upstreamStopped,same]
    · exact known
    · exact fun contra => absurd contra zero
    · exact fun q e' member => emplacing q e' (before member)
    · exact stored
    · intro one
      obtain ⟨q,member⟩ := announcing one
      exact ⟨q,mem_put_of_ne left member (by simp)⟩
    · exact fun _ contra => absurd contra zero
    · exact fun q member => storing q (before member)
    · exact stopped
    · intro answer
      rcases answering answer with three | ⟨q,member⟩
      · exact .inl three
      · exact .inr ⟨q,mem_put_of_ne left member (by simp)⟩
    · exact fun q ctype member => loaded q ctype (before member)

theorem emplaceError_tracked {e : Error} (tracked : Tracked steps c)
    (left : c.threads p = .emplaceError e :: rest) (ran : (s,new) ∈ exec p (.emplaceError e) c.shared) :
    Tracked (steps ++ [(c,.run p)]) (c.put p s (new ++ rest)) := by
  obtain ⟨rfl,rfl⟩ := Prod.mk.inj (List.mem_singleton.mp ran)
  have same := winner_run steps left (by simp)
  have before : ∀ {j : Instr Error} {q : Party},
      j ∈ (c.put p { c.shared with error := some e } ([] ++ rest)).threads q → j ∈ c.threads q :=
    fun member => (mem_of_mem_put left member).resolve_left (List.not_mem_nil)
  obtain ⟨known,unwon,emplacing,stored,announcing,reporting,storing,stopped,answering,loaded⟩ := tracked
  constructor <;> simp only [put_shared,run_reported,run_upstreamStopped,same]
  · exact known
  · exact unwon
  · exact fun q e' member => emplacing q e' (before member)
  · intro e' is
    obtain rfl := Option.some.inj is
    exact emplacing p e (left ▸ List.mem_cons_self)
  · intro one
    obtain ⟨q,member⟩ := announcing one
    exact ⟨q,mem_put_of_ne left member (by simp)⟩
  · intro reported zero
    obtain ⟨q,e',member⟩ := reporting reported zero
    exact ⟨q,e',mem_put_of_ne left member (by simp)⟩
  · exact fun q member => storing q (before member)
  · exact stopped
  · intro answer
    rcases answering answer with three | ⟨q,member⟩
    · exact .inl three
    · exact .inr ⟨q,mem_put_of_ne left member (by simp)⟩
  · exact fun q ctype member => loaded q ctype (before member)

theorem compareExchangeEmplaced_tracked (inv : Fork.Invariant c) (tracked : Tracked steps c)
    (left : c.threads p = .compareExchangeEmplaced :: rest) (ran : (s,new) ∈ exec p .compareExchangeEmplaced c.shared) :
    Tracked (steps ++ [(c,.run p)]) (c.put p s (new ++ rest)) := by
  obtain ⟨rfl,rfl⟩ := Prod.mk.inj (List.mem_singleton.mp ran)
  have unread := not_loaded inv (i := .compareExchangeEmplaced) trivial left
  have same := winner_run steps left (by simp)
  have before : ∀ {j : Instr Error} {q : Party} {s : OperationBase Error},
      j ∈ (c.put p s ([] ++ rest)).threads q → j ∈ c.threads q :=
    fun member => (mem_of_mem_put left member).resolve_left (List.not_mem_nil)
  obtain ⟨known,unwon,emplacing,stored,announcing,reporting,storing,stopped,answering,loaded⟩ := tracked
  have type : ∀ k, (if c.shared.completionType = 1 then { c.shared with completionType := 2 }
      else c.shared).completionType = k → k = 2 ∨ c.shared.completionType = k ∧ k ≠ 1 := by
    intro k is
    split at is
    · exact .inl is.symm
    · rename_i other; exact .inr ⟨is,fun one => other (is.trans one)⟩
  have error : (if c.shared.completionType = 1 then { c.shared with completionType := 2 }
      else c.shared).error = c.shared.error := by split <;> rfl
  constructor <;> simp only [put_shared,run_reported,run_upstreamStopped,same,error]
  · split
    · exact Nat.le_succ 2
    · exact known
  · exact fun zero => unwon (((type 0 zero).resolve_left (by decide)).1)
  · exact fun q e' member => emplacing q e' (before member)
  · exact stored
  · exact fun one => absurd rfl ((type 1 one).resolve_left (by decide)).2
  · intro reported zero
    obtain ⟨q,e',member⟩ := reporting reported (((type 0 zero).resolve_left (by decide)).1)
    exact ⟨q,e',mem_put_of_ne left member (by simp)⟩
  · exact fun q member => storing q (before member)
  · exact fun three => stopped (((type 3 three).resolve_left (by decide)).1)
  · intro answer
    rcases answering answer with three | ⟨q,member⟩
    · exact .inl (by simp [three])
    · exact .inr ⟨q,mem_put_of_ne left member (by simp)⟩
  · exact fun q ctype member => absurd (before member) (unread q ctype)

theorem storeStopped_tracked (inv : Fork.Invariant c) (tracked : Tracked steps c)
    (left : c.threads p = .storeStopped :: rest) (ran : (s,new) ∈ exec p .storeStopped c.shared) :
    Tracked (steps ++ [(c,.run p)]) (c.put p s (new ++ rest)) := by
  obtain ⟨rfl,rfl⟩ := Prod.mk.inj (List.mem_singleton.mp ran)
  have unread := not_loaded inv (i := .storeStopped) trivial left
  have same := winner_run steps left (by simp)
  have before : ∀ {j : Instr Error} {q : Party},
      j ∈ (c.put p { c.shared with completionType := 3 } ([] ++ rest)).threads q → j ∈ c.threads q :=
    fun member => (mem_of_mem_put left member).resolve_left (List.not_mem_nil)
  obtain ⟨known,unwon,emplacing,stored,announcing,reporting,storing,stopped,answering,loaded⟩ := tracked
  constructor <;> simp only [put_shared,run_reported,run_upstreamStopped,same]
  · exact le_refl 3
  · exact fun contra => absurd contra (by decide)
  · exact fun q e' member => emplacing q e' (before member)
  · exact stored
  · exact fun contra => absurd contra (by decide)
  · exact fun _ contra => absurd contra (by decide)
  · exact fun q member => storing q (before member)
  · exact fun _ => storing p (left ▸ List.mem_cons_self)
  · exact fun _ => .inl trivial
  · exact fun q ctype member => absurd (before member) (unread q ctype)

theorem run_tracked (inv : Fork.Invariant c) (tracked : Tracked steps c) (left : c.threads p = i :: rest)
    (ran : (s,new) ∈ exec p i c.shared) : Tracked (steps ++ [(c,.run p)]) (c.put p s (new ++ rest)) := by
  cases i with
  | compareExchangeError e => exact compareExchangeError_tracked inv tracked left ran
  | emplaceError e => exact emplaceError_tracked tracked left ran
  | compareExchangeEmplaced => exact compareExchangeEmplaced_tracked inv tracked left ran
  | storeStopped => exact storeStopped_tracked inv tracked left ran
  | exchangeStop =>
    obtain ⟨rfl,rfl⟩ := Prod.mk.inj (List.mem_singleton.mp ran)
    refine plain_tracked tracked left trivial rfl rfl ?_ ?_ <;> split <;> simp [Plain]
  | requestStop | resetCallback | complete ctype =>
    obtain ⟨rfl,rfl⟩ := Prod.mk.inj (List.mem_singleton.mp ran)
    exact plain_tracked tracked left trivial rfl rfl (by simp) (by simp)
  | decreaseRef =>
    obtain ⟨rfl,rfl⟩ := Prod.mk.inj (List.mem_singleton.mp ran)
    have kept : ∀ s : OperationBase Error, (release s p).completionType = s.completionType ∧
        (release s p).error = s.error := by
      intro s
      cases p <;> simp only [release,and_self]
      split <;> exact ⟨rfl,rfl⟩
    refine plain_tracked tracked left trivial (kept _).1 (kept _).2 ?_ ?_ <;> split <;> simp [complete,Plain]
  | loadCompletionType =>
    obtain ⟨rfl,rfl⟩ := Prod.mk.inj (List.mem_singleton.mp ran)
    exact plain_tracked tracked left trivial rfl rfl (by simp [Plain]) (by simp)
  | startItem | startDelete =>
    cases p with
    | item x =>
      obtain ⟨rfl,rfl⟩ := Prod.mk.inj (List.mem_singleton.mp ran)
      exact plain_tracked tracked left trivial rfl rfl (by simp) (by simp)
    | upstream | stopCallback => cases ran

/-- A handler that starts announces an error or the stopped completion with its own steps. -/
theorem handler_tracked {e : Event Error} {prog : List (Instr Error)} (tracked : Tracked steps c)
    (idle : c.threads p = []) (type : s.completionType = c.shared.completionType) (error : s.error = c.shared.error)
    (emplaces : ∀ e, .emplaceError e ∉ prog) (completes : ∀ ctype, .complete ctype ∉ prog)
    (announces : reports (.call e : Label Party (Event Error)) = true → ∃ e, .compareExchangeError e ∈ prog)
    (stores : .storeStopped ∈ prog ↔ stopsUpstream (.call e : Label Party (Event Error)) = true) :
    Tracked (steps ++ [(c,.call e)]) (c.put p s prog) := by
  have same : winner (steps ++ [(c,.call e)]) = winner steps := by rw [winner_append]; exact Option.or_none
  have before : ∀ {j : Instr Error} {q : Party}, j ∈ (c.put p s prog).threads q → j ∈ prog ∨ j ∈ c.threads q := by
    intro j q member
    rw [put_threads] at member
    split at member
    · exact .inl member
    · exact .inr member
  have stays : ∀ {j : Instr Error} {q : Party}, j ∈ c.threads q → j ∈ (c.put p s prog).threads q := by
    intro j q member
    rw [put_threads_ne c (fun here => by rw [here,idle] at member; cases member)]
    exact member
  obtain ⟨known,unwon,emplacing,stored,announcing,reporting,storing,stopped,answering,loaded⟩ := tracked
  constructor <;> simp only [put_shared,type,error,same,reported_append,upstreamStopped_append]
  · exact known
  · exact unwon
  · exact fun q e' member => emplacing q e' ((before member).resolve_left (emplaces e'))
  · exact stored
  · intro one
    obtain ⟨q,member⟩ := announcing one
    exact ⟨q,stays member⟩
  · intro reported zero
    rcases reported with earlier | now
    · obtain ⟨q,e',member⟩ := reporting earlier zero
      exact ⟨q,e',stays member⟩
    · obtain ⟨e',member⟩ := announces now
      exact ⟨p,e',by simpa using member⟩
  · intro q member
    rcases before member with here | here
    · exact .inr (stores.mp here)
    · exact .inl (storing q here)
  · exact fun three => .inl (stopped three)
  · intro answer
    rcases answer with earlier | now
    · rcases answering earlier with three | ⟨q,member⟩
      · exact .inl three
      · exact .inr ⟨q,stays member⟩
    · exact .inr ⟨p,by simpa using stores.mpr now⟩
  · exact fun q ctype member => loaded q ctype ((before member).resolve_left (completes ctype))

theorem move_tracked {e : Event Error} {x : Nat} {earlier later : Phase} {prog prog' : List (Instr Error)}
    (tracked : Tracked steps c) (idle : c.threads (.item x) = [])
    (moved : move c.shared x earlier later prog = some (s,prog'))
    (emplaces : ∀ e, .emplaceError e ∉ prog) (completes : ∀ ctype, .complete ctype ∉ prog)
    (announces : reports (.call e : Label Party (Event Error)) = true → ∃ e, .compareExchangeError e ∈ prog)
    (stores : .storeStopped ∈ prog ↔ stopsUpstream (.call e : Label Party (Event Error)) = true) :
    Tracked (steps ++ [(c,.call e)]) (c.put (.item x) s prog') := by
  unfold move at moved
  split at moved
  · obtain ⟨rfl,rfl⟩ := Prod.mk.inj (Option.some.inj moved)
    exact handler_tracked tracked idle rfl rfl emplaces completes announces stores
  · cases moved

theorem completeUpstream_tracked {e : Event Error} {prog prog' : List (Instr Error)} (tracked : Tracked steps c)
    (idle : c.threads .upstream = []) (moved : completeUpstream c.shared prog = some (s,prog'))
    (emplaces : ∀ e, .emplaceError e ∉ prog) (completes : ∀ ctype, .complete ctype ∉ prog)
    (announces : reports (.call e : Label Party (Event Error)) = true → ∃ e, .compareExchangeError e ∈ prog)
    (stores : .storeStopped ∈ prog ↔ stopsUpstream (.call e : Label Party (Event Error)) = true) :
    Tracked (steps ++ [(c,.call e)]) (c.put .upstream s prog') := by
  unfold completeUpstream at moved
  split at moved
  · obtain ⟨rfl,rfl⟩ := Prod.mk.inj (Option.some.inj moved)
    exact handler_tracked tracked idle rfl rfl emplaces completes announces stores
  · cases moved

theorem call_tracked {e : Event Error} {prog : List (Instr Error)} (ok : NoStopCallback c (.call e))
    (tracked : Tracked steps c) (idle : c.threads ((machine Error).party e) = [])
    (accepted : accept e c.shared = some (s,prog)) :
    Tracked (steps ++ [(c,.call e)]) (c.put ((machine Error).party e) s prog) := by
  cases e with
  | setNext x =>
    simp only [accept] at accepted
    split at accepted
    · unfold increaseRef at accepted
      split at accepted
      · rename_i counted
        split at counted
        · cases counted
        · obtain rfl := Option.some.inj counted
          obtain ⟨rfl,rfl⟩ := Prod.mk.inj (Option.some.inj accepted)
          exact handler_tracked tracked idle rfl rfl (by simp) (by simp) (by simp [reports]) (by simp [stopsUpstream])
      · obtain ⟨rfl,rfl⟩ := Prod.mk.inj (Option.some.inj accepted)
        exact handler_tracked tracked idle rfl rfl (by simp [stopAndRelease]) (by simp [stopAndRelease])
          (by simp [reports]) (by simp [stopAndRelease,stopsUpstream])
    · cases accepted
  | newValue x | nextValue x | nextStopped x | deleteValue x | newStopped x =>
    exact move_tracked tracked idle accepted (by simp [stopAndRelease]) (by simp [stopAndRelease]) (by simp [reports])
      (by simp [stopsUpstream,stopAndRelease])
  | newError x e =>
    exact move_tracked tracked idle accepted (by simp [setError,stopAndRelease]) (by simp [setError,stopAndRelease])
      (fun _ => ⟨e,by simp [setError]⟩) (by simp [setError,stopAndRelease,stopsUpstream])
  | upstreamValue =>
    exact completeUpstream_tracked tracked idle accepted (by simp) (by simp) (by simp [reports])
      (by simp [stopsUpstream])
  | upstreamError e =>
    exact completeUpstream_tracked tracked idle accepted (by simp [setError,stopAndRelease])
      (by simp [setError,stopAndRelease]) (fun _ => ⟨e,by simp [setError]⟩)
      (by simp [setError,stopAndRelease,stopsUpstream])
  | upstreamStopped =>
    exact completeUpstream_tracked tracked idle accepted (by simp [setStopped,stopAndRelease])
      (by simp [setStopped,stopAndRelease]) (by simp [reports]) (by simp [setStopped,stopsUpstream])
  | outerStop =>
    have unarmed : c.shared.stopCallback = false := ok
    simp only [accept,unarmed] at accepted
    split at accepted
    · cases accepted
    · obtain ⟨rfl,rfl⟩ := Prod.mk.inj (Option.some.inj accepted)
      exact handler_tracked tracked idle rfl rfl (by simp) (by simp) (by simp [reports]) (by simp [stopsUpstream])

theorem tracked (run : Run (machine Error) NoStopCallback (initial Error) steps c) : Tracked steps c :=
  run.invariant initial_tracked
    (fun _ _ _ _ _ _ _ reach tracked _ left ran => run_tracked (reach_invariant reach) tracked left ran)
    (fun _ _ _ _ _ _ tracked ok idle accepted => call_tracked ok tracked idle accepted)

/-! ### The signal of the outer receiver -/

/-- Once the receiver is completed, no reference is held. -/
theorem released_of_completed (inv : Fork.Invariant c) (completed : c.shared.completions ≠ []) :
    c.shared.upstream = .released ∧ ∀ x, ¬ Holding (c.shared.phase x) := by
  have counter := inv.counted.counter
  rw [inv.finish.finished completed] at counter
  constructor
  · by_contra other
    rw [if_neg other] at counter
    omega
  · intro x holding
    have positive := List.length_pos_of_mem ((inv.counted.holding x).mpr holding)
    split at counter <;> omega

theorem accept_completed {e : Event Error} {prog : List (Instr Error)} (inv : Fork.Invariant c)
    (completed : c.shared.completions ≠ []) (accepted : accept e c.shared = some (s,prog)) : e = .outerStop := by
  obtain ⟨released,settled⟩ := released_of_completed inv completed
  have no_move : ∀ {x : Nat} {earlier later : Phase} {handler : List (Instr Error)}, Holding earlier →
      move c.shared x earlier later handler ≠ some (s,prog) := by
    intro x earlier later handler holding moved
    unfold move at moved
    split at moved
    · rename_i phase
      exact settled x (phase ▸ holding)
    · cases moved
  cases e with
  | outerStop => rfl
  | setNext x => simp [accept,released] at accepted
  | upstreamValue | upstreamError e | upstreamStopped => simp [accept,completeUpstream,released] at accepted
  | newValue x | newError x e | newStopped x | nextValue x | nextStopped x | deleteValue x =>
    exact absurd accepted (no_move trivial)

theorem exec_completions (ran : (s,new) ∈ exec p i c.shared) (other : ∀ ctype, i ≠ .complete ctype) :
    s.completions = c.shared.completions := by
  cases i with
  | complete ctype => exact absurd rfl (other ctype)
  | compareExchangeError e =>
    simp only [exec] at ran
    split at ran <;> obtain ⟨rfl,rfl⟩ := Prod.mk.inj (List.mem_singleton.mp ran) <;> rfl
  | compareExchangeEmplaced =>
    obtain ⟨rfl,rfl⟩ := Prod.mk.inj (List.mem_singleton.mp ran)
    split <;> rfl
  | decreaseRef =>
    obtain ⟨rfl,rfl⟩ := Prod.mk.inj (List.mem_singleton.mp ran)
    cases p <;> simp only [release]
    split <;> rfl
  | startItem | startDelete =>
    cases p with
    | item x => obtain ⟨rfl,rfl⟩ := Prod.mk.inj (List.mem_singleton.mp ran); rfl
    | upstream | stopCallback => cases ran
  | emplaceError _ | storeStopped | exchangeStop | requestStop | resetCallback | loadCompletionType =>
    obtain ⟨rfl,rfl⟩ := Prod.mk.inj (List.mem_singleton.mp ran)
    rfl

theorem accept_completions {e : Event Error} {prog : List (Instr Error)}
    (accepted : accept e c.shared = some (s,prog)) : s.completions = c.shared.completions := by
  cases e with
  | setNext x =>
    simp only [accept,increaseRef] at accepted
    split at accepted
    · split at accepted
      · rename_i counted
        split at counted
        · cases counted
        · obtain rfl := Option.some.inj counted
          obtain ⟨rfl,rfl⟩ := Prod.mk.inj (Option.some.inj accepted)
          rfl
      · obtain ⟨rfl,rfl⟩ := Prod.mk.inj (Option.some.inj accepted)
        rfl
    · cases accepted
  | outerStop | upstreamValue | upstreamError e | upstreamStopped | newValue x | newError x e | newStopped x
  | nextValue x | nextStopped x | deleteValue x =>
    simp only [accept,completeUpstream,move] at accepted
    split at accepted <;> cases accepted
    rfl

/-- When the receiver is completed after an error, the error was stored, or the
    stopped completion of the upstream sequence overwrote its type. -/
theorem complete_outcome {ctype : Nat} (inv : Fork.Invariant c) (tracked : Tracked steps c)
    (left : c.threads p = .complete ctype :: rest) (reported : Reported steps) {signal : Signal Error}
    (member : signal ∈ send c.shared ctype) :
    (∃ e, winner steps = some e ∧ signal = .error e) ↔ ¬ UpstreamStopped steps := by
  have finishing : Finishing (c.threads p) :=
    finishing_of_complete (inv.counted.party p) (left ▸ List.mem_cons_self)
  have quiet : ∀ {j : Instr Error} {q : Party}, j ∈ c.threads q → ¬ Light j :=
    fun member light => quiet_of_finishing inv finishing light member
  obtain rfl := tracked.loaded p ctype (left ▸ List.mem_cons_self)
  have taken : c.shared.completionType ≠ 0 := by
    intro zero
    obtain ⟨q,e,here⟩ := tracked.reporting reported zero
    exact quiet here trivial
  have announced : c.shared.completionType ≠ 1 := by
    intro one
    obtain ⟨q,here⟩ := tracked.announcing one
    exact quiet here trivial
  by_cases answered : UpstreamStopped steps
  · have three : c.shared.completionType = 3 :=
      (tracked.answering answered).resolve_right (fun ⟨q,here⟩ => quiet here trivial)
    rw [three] at member
    simp only [send,List.mem_singleton] at member
    subst member
    simp [answered]
  · have two : c.shared.completionType = 2 := by
      have known := tracked.known
      have running : c.shared.completionType ≠ 3 := fun three => answered (tracked.stopped three)
      omega
    obtain ⟨e,stored⟩ := Option.isSome_iff_exists.mp (inv.erred.stored two)
    rw [two] at member
    simp only [send,stored,Option.map_some,Option.toList_some,List.mem_singleton] at member
    subst member
    simp [answered,tracked.stored e stored]

/-- As long as the callback on the outer stop token does not fire, and so also
    when that token is never requested: a fork to which an error was reported
    completes with the first error that won the compare-exchange if and only if
    the upstream sequence does not complete with stopped. -/
theorem fork_reports_first_error (run : Run (machine Error) NoStopCallback (initial Error) steps c)
    (reported : Reported steps) :
    ∀ signal ∈ c.shared.completions, (∃ e, winner steps = some e ∧ signal = .error e) ↔ ¬ UpstreamStopped steps := by
  revert reported
  have both : Tracked steps c ∧ (Reported steps → ∀ signal ∈ c.shared.completions,
      (∃ e, winner steps = some e ∧ signal = .error e) ↔ ¬ UpstreamStopped steps) := by
    refine run.invariant (I := fun steps c => Tracked steps c ∧ (Reported steps → ∀ signal ∈ c.shared.completions,
      (∃ e, winner steps = some e ∧ signal = .error e) ↔ ¬ UpstreamStopped steps)) ⟨initial_tracked,?_⟩ ?_ ?_
    · simp [initial,start,constructed]
    · intro steps c p i rest s new reach holds _ left ran
      have inv := reach_invariant reach
      have empty : c.shared.completions = [] := by
        by_contra completed
        rw [idle_of_completed inv completed p] at left
        cases left
      refine ⟨run_tracked inv holds.1 left ran,?_⟩
      rw [run_reported,run_upstreamStopped,put_shared]
      intro reported signal member
      by_cases completing : ∃ ctype, i = .complete ctype
      · obtain ⟨ctype,rfl⟩ := completing
        obtain ⟨rfl,rfl⟩ := Prod.mk.inj (List.mem_singleton.mp ran)
        simp only [empty,List.nil_append] at member
        rw [winner_run _ left (by simp)]
        exact complete_outcome inv holds.1 left reported member
      · rw [exec_completions ran (not_exists.mp completing),empty] at member
        cases member
    · intro steps c e s prog reach holds ok idle accepted
      refine ⟨call_tracked ok holds.1 idle accepted,?_⟩
      rw [put_shared,accept_completions accepted]
      intro reported signal member
      have completed : c.shared.completions ≠ [] := List.ne_nil_of_mem member
      obtain rfl := accept_completed (reach_invariant reach) completed accepted
      have same : winner (steps ++ [(c,.call .outerStop)]) = winner steps := by
        rw [winner_append]
        exact Option.or_none
      rw [reported_append] at reported
      rw [same,upstreamStopped_append]
      simpa [stopsUpstream] using holds.2 (by simpa [reports] using reported) signal member
  exact both.2

/-- The setup of an item fails, the upstream sequence completes, and the receiver
    gets the error. -/
theorem fork_reports_first_error_failing : ∃ steps c, Run (machine Nat) NoStopCallback (initial Nat) steps c ∧
    Reported steps ∧ c.shared.completions = [.error 7] ∧
    ((∃ e, winner steps = some e ∧ (.error 7 : Signal Nat) = .error e) ↔ ¬ UpstreamStopped steps) := by
  obtain ⟨steps,c,run,sent⟩ := exists_run_of_follow (machine Nat) NoStopCallback (initial Nat) neverStops
    noStopCallback_of_never
    [(.call (.setNext 0),0),(.call (.newError 0 7),0),(.run (.item 0),0),(.run (.item 0),0),(.run (.item 0),0),
      (.run (.item 0),0),(.run (.item 0),0),(.run (.item 0),0),(.call .upstreamValue,0),(.run .upstream,0),
      (.run .upstream,0),(.run .upstream,0),(.run .upstream,0)]
    (fun steps c => decide (Reported steps) && c.shared.completions = [.error 7]) (by decide)
  simp only [Bool.and_eq_true,decide_eq_true_eq] at sent
  exact ⟨steps,c,run,sent.1,sent.2,fork_reports_first_error run sent.1 _ (by simp [sent.2])⟩

/-- The upstream sequence answers the stop request that an error issues with a
    stopped completion, and the error is lost. -/
theorem stopped_overwrites_error : ∃ steps c, Run (machine Nat) NoStopCallback (initial Nat) steps c ∧
    Reported steps ∧ winner steps = some 7 ∧ c.shared.outerStopRequested = false ∧
    c.shared.completions = [.stopped] := by
  obtain ⟨steps,c,run,sent⟩ := exists_run_of_follow (machine Nat) NoStopCallback (initial Nat) neverStops
    noStopCallback_of_never
    [(.call (.setNext 0),0),(.call (.newError 0 7),0),(.run (.item 0),0),(.run (.item 0),0),(.run (.item 0),0),
      (.run (.item 0),0),(.run (.item 0),0),(.run (.item 0),0),(.call .upstreamStopped,0),(.run .upstream,0),
      (.run .upstream,0),(.run .upstream,0),(.run .upstream,0),(.run .upstream,0),(.run .upstream,0)]
    (fun steps c => decide (Reported steps) && winner steps = some 7 && c.shared.outerStopRequested = false &&
      c.shared.completions = [.stopped]) (by decide)
  simp only [Bool.and_eq_true,decide_eq_true_eq] at sent
  exact ⟨steps,c,run,sent.1.1.1,sent.1.1.2,sent.1.2,sent.2⟩

end SendersIo.ForkOutcome
