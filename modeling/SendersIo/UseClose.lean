import SendersIo.Interleaving
import SendersIo.Signals

/-!
The sequence of one resource. When its open completes with a token, the receiver of the
open stores the token, sets the item and connects it with the close of the token; from
the start on, `exec::finally` runs the close after the item. What throws before is caught
and sent to the outer receiver, and nobody closes the token.
-/
namespace SendersIo.UseClose
open SendersIo.Interleaving SendersIo.Signals
set_option linter.unusedSimpArgs false

variable {Token Error : Type}

/-- `use_op_`: not there, connected, the item runs, the close runs after the item, or
    both have completed. -/
inductive UseOp (Token : Type) where
  | empty
  | connected (t : Token)
  | inUse (t : Token)
  | closing (t : Token)
  | completed
  deriving DecidableEq

/-- `async_resource_::operation`, and what happened so far: how the open completed, whether
    its receiver caught an exception, the tokens that were closed, and the completions of
    the outer receiver, each with the tokens that were closed by then. -/
structure Operation (Token Error : Type) where
  token : Option Token
  useOp : UseOp Token
  stopRequested : Bool
  opened : Option (Completion Token Error)
  thrown : Bool
  closed : List Token
  completions : List (Signal Error × List Token)

/-- Who acts: the receiver of the open, `use_op_`, and whoever has the outer stop token. -/
inductive Party where
  | opener
  | user
  | environment
  deriving DecidableEq

/-- The steps of `open_receiver` and of `final_receiver`. -/
inductive Instr (Token Error : Type) where
  | emplaceToken (t : Token)
  | setNext (t : Token)
  | close (t : Token)
  | connect (t : Token)
  | start (t : Token)
  | complete (signal : Signal Error)
  | setValueUnlessStopped

/-- The open, the item and the close complete, the last of them with the signal that
    `exec::finally` makes of it; and the outer stop token is requested. -/
inductive Event (Token Error : Type) where
  | openCompletes (outcome : Completion Token Error)
  | useCompletes
  | closeCompletes (signal : Signal Error)
  | requestStop

/-- `open_receiver`. -/
def openReceiver : Completion Token Error → List (Instr Token Error)
  | .value t => [.emplaceToken t]
  | .error e => [.complete (.error e)]
  | .stopped => [.setValueUnlessStopped]

/-- `final_receiver`. -/
def finalReceiver : Signal Error → List (Instr Token Error)
  | .value _ => [.complete (.value ())]
  | .error e => [.complete (.error e)]
  | .stopped => [.setValueUnlessStopped]

/-- The outer receiver is completed. -/
def complete (s : Operation Token Error) (signal : Signal Error) : Operation Token Error :=
  { s with completions := s.completions ++ [(signal,s.closed)] }

/-- The `catch` of `open_receiver::set_value`. -/
def caught (exception : Error) (s : Operation Token Error) : Operation Token Error × List (Instr Token Error) :=
  ({ s with thrown := true },[.complete (.error exception)])

/-- What may throw has two outcomes. -/
def exec (exception : Error) (i : Instr Token Error) (s : Operation Token Error) :
    List (Operation Token Error × List (Instr Token Error)) :=
  match i with
  -- the token is moved
  | .emplaceToken t => [({ s with token := some t },[.setNext t]),caught exception s]
  | .setNext t => [(s,[.close t]),caught exception s]
  -- the sender that closes the token
  | .close t => [(s,[.connect t]),caught exception s]
  | .connect t => [({ s with useOp := .connected t },[.start t]),caught exception s]
  | .start t => [({ s with useOp := .inUse t },[])]
  | .complete signal => [(complete s signal,[])]
  | .setValueUnlessStopped => [(complete s (setValueUnlessStopped s.stopRequested),[])]

/-- The open completes once, the item completes once it was started, and then the close. -/
def accept (e : Event Token Error) (s : Operation Token Error) :
    Option (Operation Token Error × List (Instr Token Error)) :=
  match e with
  | .openCompletes outcome =>
    if s.opened.isNone then some ({ s with opened := some outcome },openReceiver outcome) else none
  | .useCompletes =>
    match s.useOp with
    | .inUse t => some ({ s with useOp := .closing t },[])
    | _ => none
  | .closeCompletes signal =>
    match s.useOp with
    | .closing t => some ({ s with useOp := .completed, closed := s.closed ++ [t] },finalReceiver signal)
    | _ => none
  | .requestStop => some ({ s with stopRequested := true },[])

def machine (exception : Error) : Machine Party (Operation Token Error) (Instr Token Error) (Event Token Error) where
  exec _ := exec exception
  accept := accept
  party
    | .openCompletes _ => .opener
    | .useCompletes => .user
    | .closeCompletes _ => .user
    | .requestStop => .environment

/-- The open is started. -/
def initial (Token Error : Type) : Config Party (Operation Token Error) (Instr Token Error) where
  shared := ⟨none,.empty,false,none,false,[],[]⟩
  threads _ := []

/-- The item and the close are done if they were started. -/
def UseOp.Done : UseOp Token → Prop
  | .empty => True
  | .completed => True
  | _ => False

/-- The open has completed, and so has everything that was started after it. -/
structure Ended (c : Config Party (Operation Token Error) (Instr Token Error)) : Prop where
  idle : ∀ p, c.threads p = []
  opened : c.shared.opened.isSome
  useOp : c.shared.useOp.Done

/-- The token was closed once, and the outer receiver was completed once, after that. -/
def ClosedFirst (s : Operation Token Error) (t : Token) : Prop :=
  s.closed = [t] ∧ ∃ signal, s.completions = [(signal,[t])]

/-! ### The stages of an operation -/

/-- The fields that decide what is left to do. -/
structure At (s : Operation Token Error) (opened : Option (Completion Token Error)) (useOp : UseOp Token)
    (thrown : Bool) (closed : List Token) (completions : List (Signal Error × List Token)) : Prop where
  opened : s.opened = opened
  useOp : s.useOp = useOp
  thrown : s.thrown = thrown
  closed : s.closed = closed
  completions : s.completions = completions

/-- What the receiver of the open and `use_op_` have left, by the stage. -/
inductive Stage (exception : Error) (s : Operation Token Error) : List (Instr Token Error) → List (Instr Token Error) → Prop
  | opening : At s none .empty false [] [] → Stage exception s [] []
  | failing (outcome : Completion Token Error) : outcome.isValue = false → At s (some outcome) .empty false [] [] →
      Stage exception s (openReceiver outcome) []
  | failed (outcome : Completion Token Error) (signal : Signal Error) : outcome.isValue = false →
      At s (some outcome) .empty false [] [(signal,[])] → Stage exception s [] []
  | trying (t : Token) (i : Instr Token Error) : i ∈ [.emplaceToken t,.setNext t,.close t,.connect t] →
      At s (some (.value t)) .empty false [] [] → Stage exception s [i] []
  | starting (t : Token) : At s (some (.value t)) (.connected t) false [] [] → Stage exception s [.start t] []
  | inUse (t : Token) : At s (some (.value t)) (.inUse t) false [] [] → Stage exception s [] []
  | closing (t : Token) : At s (some (.value t)) (.closing t) false [] [] → Stage exception s [] []
  | finishing (t : Token) (signal : Signal Error) : At s (some (.value t)) .completed false [t] [] →
      Stage exception s [] (finalReceiver signal)
  | finished (t : Token) (signal : Signal Error) : At s (some (.value t)) .completed false [t] [(signal,[t])] →
      Stage exception s [] []
  | throwing (t : Token) : At s (some (.value t)) .empty true [] [] →
      Stage exception s [.complete (.error exception)] []
  | thrown (t : Token) : At s (some (.value t)) .empty true [] [(.error exception,[])] → Stage exception s [] []

section
variable {exception : Error} {s s' : Operation Token Error} {i : Instr Token Error}
  {rest new open_ use prog : List (Instr Token Error)}

/-- A completion of the outer receiver takes the operation to its last stage. -/
theorem At.complete {opened : Option (Completion Token Error)} {useOp : UseOp Token} {thrown : Bool}
    {closed : List Token} (at_ : At s opened useOp thrown closed []) (signal : Signal Error) :
    At (complete s signal) opened useOp thrown closed [(signal,closed)] :=
  ⟨at_.opened,at_.useOp,at_.thrown,at_.closed,by simp [UseClose.complete,at_.completions,at_.closed]⟩

/-- The stage does not depend on the token or on the outer stop token. -/
theorem Stage.congr (stage : Stage exception s prog use)
    (same : ∀ {opened useOp thrown closed completions}, At s opened useOp thrown closed completions →
      At s' opened useOp thrown closed completions) : Stage exception s' prog use := by
  cases stage with
  | opening at_ => exact .opening (same at_)
  | failing outcome failed at_ => exact .failing outcome failed (same at_)
  | failed outcome signal failed at_ => exact .failed outcome signal failed (same at_)
  | trying t i member at_ => exact .trying t i member (same at_)
  | starting t at_ => exact .starting t (same at_)
  | inUse t at_ => exact .inUse t (same at_)
  | closing t at_ => exact .closing t (same at_)
  | finishing t signal at_ => exact .finishing t signal (same at_)
  | finished t signal at_ => exact .finished t signal (same at_)
  | throwing t at_ => exact .throwing t (same at_)
  | thrown t at_ => exact .thrown t (same at_)

/-- The open completes. -/
theorem Stage.call_open (stage : Stage exception s [] use) (unset : s.opened = none) (outcome : Completion Token Error) :
    Stage exception { s with opened := some outcome } (openReceiver outcome) use := by
  generalize ([] : List (Instr Token Error)) = prog at stage
  cases stage with
  | opening at_ =>
    have now : At { s with opened := some outcome } (some outcome) .empty false [] [] :=
      ⟨rfl,at_.useOp,at_.thrown,at_.closed,at_.completions⟩
    cases outcome with
    | value t => exact .trying t (.emplaceToken t) (by simp) now
    | error e => exact .failing (.error e) rfl now
    | stopped => exact .failing .stopped rfl now
  | failing _ _ at_ | failed _ _ _ at_ | trying _ _ _ at_ | starting _ at_ | inUse _ at_ | closing _ at_
  | finishing _ _ at_ | finished _ _ at_ | throwing _ at_ | thrown _ at_ => simp [at_.opened] at unset

/-- The item completes. -/
theorem Stage.call_use {t : Token} (stage : Stage exception s open_ use) (runs : s.useOp = .inUse t) :
    Stage exception { s with useOp := .closing t } open_ [] := by
  cases stage with
  | inUse t' at_ =>
    obtain rfl : t' = t := by simpa [at_.useOp] using runs
    exact .closing t' ⟨at_.opened,rfl,at_.thrown,at_.closed,at_.completions⟩
  | opening at_ | failing _ _ at_ | failed _ _ _ at_ | trying _ _ _ at_ | starting _ at_ | closing _ at_
  | finishing _ _ at_ | finished _ _ at_ | throwing _ at_ | thrown _ at_ => simp [at_.useOp] at runs

/-- The close completes. -/
theorem Stage.call_close {t : Token} (stage : Stage exception s open_ use)
    (runs : s.useOp = .closing t) (signal : Signal Error) :
    Stage exception { s with useOp := .completed, closed := s.closed ++ [t] } open_ (finalReceiver signal) := by
  cases stage with
  | closing t' at_ =>
    obtain rfl : t' = t := by simpa [at_.useOp] using runs
    exact .finishing t' signal ⟨at_.opened,rfl,at_.thrown,by simp [at_.closed],at_.completions⟩
  | opening at_ | failing _ _ at_ | failed _ _ _ at_ | trying _ _ _ at_ | starting _ at_ | inUse _ at_
  | finishing _ _ at_ | finished _ _ at_ | throwing _ at_ | thrown _ at_ => simp [at_.useOp] at runs

/-- A step of the receiver of the open. -/
theorem Stage.run_open (stage : Stage exception s (i :: rest) use) (ran : (s',new) ∈ exec exception i s) :
    Stage exception s' (new ++ rest) use := by
  generalize left : i :: rest = prog at stage
  cases stage with
  | failing outcome failed at_ =>
    cases outcome with
    | value t => cases failed
    | error e =>
      obtain ⟨rfl,rfl⟩ := List.cons.inj left
      obtain ⟨rfl,rfl⟩ := Prod.mk.inj (List.mem_singleton.mp ran)
      exact .failed (.error e) (.error e) rfl (at_.complete _)
    | stopped =>
      obtain ⟨rfl,rfl⟩ := List.cons.inj left
      obtain ⟨rfl,rfl⟩ := Prod.mk.inj (List.mem_singleton.mp ran)
      exact .failed .stopped _ rfl (at_.complete _)
  | trying t j member at_ =>
    obtain ⟨rfl,rfl⟩ := List.cons.inj left
    have throws : Stage exception (caught exception s).1 ((caught exception s).2 ++ []) [] :=
      .throwing t ⟨at_.opened,at_.useOp,rfl,at_.closed,at_.completions⟩
    have may (next : Operation Token Error × List (Instr Token Error)) (ran : (s',new) ∈ [next,caught exception s])
        (stage : Stage exception next.1 (next.2 ++ []) []) : Stage exception s' (new ++ []) [] := by
      rcases List.mem_pair.mp ran with same | same
      · rw [← same] at stage
        exact stage
      · rw [← same] at throws
        exact throws
    simp only [List.mem_cons,List.not_mem_nil,or_false] at member
    rcases member with rfl | rfl | rfl | rfl
    · exact may _ ran (.trying t (.setNext t) (by simp) ⟨at_.opened,at_.useOp,at_.thrown,at_.closed,at_.completions⟩)
    · exact may _ ran (.trying t (.close t) (by simp) at_)
    · exact may _ ran (.trying t (.connect t) (by simp) at_)
    · exact may _ ran (.starting t ⟨at_.opened,rfl,at_.thrown,at_.closed,at_.completions⟩)
  | starting t at_ =>
    obtain ⟨rfl,rfl⟩ := List.cons.inj left
    obtain ⟨rfl,rfl⟩ := Prod.mk.inj (List.mem_singleton.mp ran)
    exact .inUse t ⟨at_.opened,rfl,at_.thrown,at_.closed,at_.completions⟩
  | throwing t at_ =>
    obtain ⟨rfl,rfl⟩ := List.cons.inj left
    obtain ⟨rfl,rfl⟩ := Prod.mk.inj (List.mem_singleton.mp ran)
    exact .thrown t (at_.complete _)
  | _ => cases left

/-- A step of the receiver of `exec::finally`. -/
theorem Stage.run_use (stage : Stage exception s open_ (i :: rest)) (ran : (s',new) ∈ exec exception i s) :
    Stage exception s' open_ (new ++ rest) := by
  generalize left : i :: rest = prog at stage
  cases stage with
  | finishing t signal at_ =>
    cases signal <;>
      obtain ⟨rfl,rfl⟩ := List.cons.inj left <;>
      obtain ⟨rfl,rfl⟩ := Prod.mk.inj (List.mem_singleton.mp ran) <;>
      exact .finished t _ (at_.complete _)
  | _ => cases left

end

/-- What is left at the stage of the operation. -/
structure Staged (exception : Error) (c : Config Party (Operation Token Error) (Instr Token Error)) : Prop where
  stage : Stage exception c.shared (c.threads .opener) (c.threads .user)
  quiet : c.threads .environment = []

section
variable {exception : Error} {c : Config Party (Operation Token Error) (Instr Token Error)}

theorem Staged.call (staged : Staged exception c) {e : Event Token Error} {s : Operation Token Error}
    {prog : List (Instr Token Error)} (idle : c.threads ((machine exception).party e) = [])
    (accepted : accept e c.shared = some (s,prog)) : Staged exception (c.put ((machine exception).party e) s prog) := by
  obtain ⟨stage,quiet⟩ := staged
  cases e with
  | openCompletes outcome =>
    simp only [accept] at accepted
    split at accepted
    next unset =>
      cases accepted
      have idle : c.threads .opener = [] := idle
      rw [idle] at stage
      have called := stage.call_open (Option.isNone_iff_eq_none.mp unset) outcome
      exact ⟨by simpa [put_threads,machine] using called,by simpa [put_threads,machine] using quiet⟩
    next => cases accepted
  | useCompletes =>
    simp only [accept] at accepted
    split at accepted
    next t runs =>
      cases accepted
      have called := stage.call_use runs
      exact ⟨by simpa [put_threads,machine] using called,by simpa [put_threads,machine] using quiet⟩
    next => cases accepted
  | closeCompletes signal =>
    simp only [accept] at accepted
    split at accepted
    next t runs =>
      cases accepted
      have called := stage.call_close runs signal
      exact ⟨by simpa [put_threads,machine] using called,by simpa [put_threads,machine] using quiet⟩
    next => cases accepted
  | requestStop =>
    cases accepted
    have same : Stage exception { c.shared with stopRequested := true } (c.threads .opener) (c.threads .user) :=
      stage.congr fun at_ => ⟨at_.opened,at_.useOp,at_.thrown,at_.closed,at_.completions⟩
    exact ⟨by simpa [put_threads,machine] using same,by simp [put_threads,machine]⟩

theorem staged_reach (reach : Reach (machine exception) Any (initial Token Error) c) : Staged exception c := by
  refine reach.invariant ⟨.opening ⟨rfl,rfl,rfl,rfl,rfl⟩,rfl⟩ ?_ fun c e s prog staged _ idle accepted =>
    staged.call idle accepted
  intro c p i rest s new staged _ left ran
  obtain ⟨stage,quiet⟩ := staged
  cases p with
  | opener =>
    rw [left] at stage
    exact ⟨by simpa [put_threads] using stage.run_open ran,by simpa [put_threads] using quiet⟩
  | user =>
    rw [left] at stage
    exact ⟨by simpa [put_threads] using stage.run_use ran,by simpa [put_threads] using quiet⟩
  | environment => rw [quiet] at left; cases left

end

/-! ### How runs end -/

section
variable {exception : Error} {c : Config Party (Operation Token Error) (Instr Token Error)} {t : Token}

/-- No step ever waits. -/
theorem progress {p : Party} (left : c.threads p ≠ []) :
    (machine exception).next c (.run p) ≠ [] := by
  obtain ⟨i,rest,at_p⟩ := List.exists_cons_of_ne_nil left
  cases i <;> simp [Machine.next,machine,exec,at_p]

theorem ended_of_isEmpty (opened : c.shared.opened = some (.value t)) (useOp : c.shared.useOp.Done)
    (opener : (c.threads .opener).isEmpty) (user : (c.threads .user).isEmpty)
    (environment : (c.threads .environment).isEmpty) : Ended c := by
  refine ⟨fun p => ?_,by simp [opened],useOp⟩
  cases p with
  | opener => exact List.isEmpty_iff.mp opener
  | user => exact List.isEmpty_iff.mp user
  | environment => exact List.isEmpty_iff.mp environment

/-- The outer receiver is completed at most once, and after the close if nothing was thrown. -/
theorem Stage.safe {s : Operation Token Error} {open_ use : List (Instr Token Error)}
    (stage : Stage exception s open_ use) (opened : s.opened = some (.value t)) :
    s.completions.length ≤ 1 ∧ (s.thrown = false → ∀ d ∈ s.completions, d.2 = [t]) := by
  cases stage with
  | opening at_ | failing _ _ at_ | trying _ _ _ at_ | starting _ at_ | inUse _ at_ | closing _ at_
  | finishing _ _ at_ | throwing _ at_ => simp [at_.completions]
  | failed outcome signal failed at_ =>
    obtain rfl : outcome = .value t := by simpa [at_.opened] using opened
    cases failed
  | finished t' signal at_ =>
    obtain rfl : t' = t := by simpa [at_.opened] using opened
    simp [at_.completions]
  | thrown _ at_ => simp [at_.completions,at_.thrown]

/-- At the end of a run the token was closed first unless something was thrown. -/
theorem Staged.closedFirst_iff (staged : Staged exception c) (opened : c.shared.opened = some (.value t))
    (ended : Ended c) : ClosedFirst c.shared t ↔ c.shared.thrown = false := by
  have stage := staged.stage
  have done := ended.useOp
  have opener := ended.idle .opener
  have user := ended.idle .user
  unfold ClosedFirst
  generalize c.threads .opener = prog at stage opener
  generalize c.threads .user = use at stage user
  cases stage with
  | opening at_ => simp [at_.opened] at opened
  | failing outcome failed at_ | failed outcome _ failed at_ =>
    obtain rfl : outcome = .value t := by simpa [at_.opened] using opened
    cases failed
  | trying | starting | throwing => cases opener
  | inUse _ at_ | closing _ at_ => simp [at_.useOp,UseOp.Done] at done
  | finishing _ signal => cases signal <;> cases user
  | finished t' signal at_ =>
    obtain rfl : t' = t := by simpa [at_.opened] using opened
    simp [at_.closed,at_.completions,at_.thrown]
  | thrown _ at_ => simp [at_.closed,at_.thrown]

end

/-- Whatever the item, the close and the outer stop token do, the token of a resource is
    closed once before the outer receiver is completed, which is completed once, if and only
    if nothing is thrown after the open. -/
theorem use_closes_iff {Token Error : Type} (exception : Error)
    (c : Config Party (Operation Token Error) (Instr Token Error)) (t : Token)
    (reach : Reach (machine exception) Any (initial Token Error) c) (opened : c.shared.opened = some (.value t)) :
    (∀ p, c.threads p ≠ [] → (machine exception).next c (.run p) ≠ []) ∧
    c.shared.completions.length ≤ 1 ∧
    (c.shared.thrown = false → ∀ d ∈ c.shared.completions, d.2 = [t]) ∧
    (Ended c → (ClosedFirst c.shared t ↔ c.shared.thrown = false)) := by
  have staged := staged_reach reach
  obtain ⟨once,first⟩ := staged.stage.safe opened
  exact ⟨fun p => progress,once,first,staged.closedFirst_iff opened⟩

/-- An item that is stopped: the token is closed, and then the outer receiver is completed. -/
theorem use_closes_stopped : ∃ c : Config Party (Operation Nat Nat) (Instr Nat Nat),
    Reach (machine 0) Any (initial Nat Nat) c ∧ ClosedFirst c.shared 5 ∧ c.shared.completions.map (·.1) = [.value ()] := by
  obtain ⟨c,reach,computed⟩ := exists_of_follow (machine 0) Any (initial Nat Nat) (fun _ _ => true) (fun _ _ _ => trivial)
    [(.call (.openCompletes (.value 5)),0),(.run .opener,0),(.run .opener,0),(.run .opener,0),(.run .opener,0),
      (.run .opener,0),(.call .useCompletes,0),(.call (.closeCompletes .stopped),0),(.run .user,0)]
    (fun c => c.shared.opened = some (.value 5) ∧ c.shared.thrown = false ∧ c.shared.useOp = .completed ∧
      c.shared.completions.map (·.1) = [.value ()] ∧ (c.threads .opener).isEmpty ∧ (c.threads .user).isEmpty ∧
      (c.threads .environment).isEmpty) (by decide)
  obtain ⟨opened,calm,useOp,sent,opener,user,environment⟩ := of_decide_eq_true computed
  have ended : Ended c := ended_of_isEmpty opened (by rw [useOp]; trivial) opener user environment
  exact ⟨c,reach,((use_closes_iff 0 c 5 reach opened).2.2.2 ended).mpr calm,sent⟩

/-- The connect throws: the outer receiver gets the exception, and the token stays open. -/
theorem thrown_token_not_closed : ¬ ∀ c : Config Party (Operation Nat Nat) (Instr Nat Nat),
    Reach (machine 0) Any (initial Nat Nat) c → ∀ t, c.shared.opened = some (.value t) → Ended c →
      ClosedFirst c.shared t := by
  intro claimed
  obtain ⟨c,reach,computed⟩ := exists_of_follow (machine 0) Any (initial Nat Nat) (fun _ _ => true) (fun _ _ _ => trivial)
    [(.call (.openCompletes (.value 5)),0),(.run .opener,0),(.run .opener,0),(.run .opener,0),(.run .opener,1),
      (.run .opener,0)]
    (fun c => c.shared.opened = some (.value 5) ∧ c.shared.closed = [] ∧ c.shared.useOp = .empty ∧
      (c.threads .opener).isEmpty ∧ (c.threads .user).isEmpty ∧ (c.threads .environment).isEmpty) (by decide)
  obtain ⟨opened,unclosed,useOp,opener,user,environment⟩ := of_decide_eq_true computed
  have ended : Ended c := ended_of_isEmpty opened (by rw [useOp]; trivial) opener user environment
  have closed := (claimed c reach 5 opened ended).1
  rw [unclosed] at closed
  cases closed

end SendersIo.UseClose
