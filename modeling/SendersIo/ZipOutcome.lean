import SendersIo.Zip

/-!
How the outer receiver of a zip is completed: once, by the child that gives up
the last share of the pending counter, and with an error only if that child
brings one itself or finds one in `errors_`.
-/
namespace SendersIo.Zip
open SendersIo.Signals
variable {n : Nat} {Value Error : Type}

/-- The steps of the handlers of a child that use its share of the counter. -/
def Instr.ofChild : Instr n Value Error → Bool
  | .fetchSub _ _ | .resetStopCallback _ | .finish _ => true
  | _ => false

/-- The steps of the child that decremented the counter to zero. -/
def Instr.finishes : Instr n Value Error → Prop
  | .resetStopCallback _ | .finish _ => True
  | _ => False

/-- The error that an instruction will store or send. -/
def Instr.error? : Instr n Value Error → Option Error
  | .storeError e => some e
  | .fetchSub _ signal | .resetStopCallback signal | .finish signal => signal.error?
  | _ => none

/-- The signal that a child's handler carries to the outer receiver. -/
def Instr.signal? : Instr n Value Error → Option (Signal Error)
  | .fetchSub _ signal | .resetStopCallback signal | .finish signal => some signal
  | _ => none

/-- The last child fails, or it succeeds while an error is stored. -/
def Delivery.FromError (d : Delivery Error) : Prop :=
  match d.last with
  | .error _ => True
  | .value _ => d.stored = true
  | .stopped => False

end SendersIo.Zip

namespace SendersIo.ZipOutcome
open SendersIo.Interleaving SendersIo.Signals SendersIo.Zip
set_option linter.unusedSimpArgs false

variable {n : Nat} {Value Error : Type}

/-- The stop token of the outer receiver is not requested. -/
def NoOuterStop (_ : Config (Party n) (OperationBase n Value Error) (Instr n Value Error)) :
    Label (Party n) (Event n Value Error) → Prop
  | .call .outerStop => False
  | _ => True

/-- The steps that a party has left with a share of the counter. -/
def stage (c : Config (Party n) (OperationBase n Value Error) (Instr n Value Error)) (p : Party n) :
    List (Instr n Value Error) :=
  (c.threads p).filter Instr.ofChild

section
variable (s : OperationBase n Value Error) (stages : Party n → List (Instr n Value Error))

/-- The counter counts the children that have not decremented it, and the last
    one completes the outer receiver. -/
structure Counted : Prop where
  pending : s.nPendingOperations = n - s.decremented.length
  distinct : s.decremented.Nodup
  single : ∀ p, (stages p).length ≤ 1
  decrementing : ∀ p c signal, .fetchSub c signal ∈ stages p →
    p = .child c ∧ c ∈ s.completedChildren ∧ c ∉ s.decremented
  waiting : ∀ c ∈ s.completedChildren, c ∉ s.decremented → ∃ signal, .fetchSub c signal ∈ stages (.child c)
  known : ∀ c ∈ s.decremented, c ∈ s.completedChildren
  finisher : ∀ p, ∀ i ∈ stages p, i.finishes → s.completions = [] ∧ s.decremented.length = n
  alone : ∀ p q, ∀ i ∈ stages p, ∀ j ∈ stages q, i.finishes → j.finishes → p = q
  unfinished : s.completions = [] → s.decremented.length = n → 0 < n → ∃ p, ∃ i ∈ stages p, i.finishes
  finished : s.completions ≠ [] → s.decremented.length = n
  once : s.completions.length ≤ 1

end

/-- The errors that are stored, carried or sent have been reported. -/
structure Reported (c : Config (Party n) (OperationBase n Value Error) (Instr n Value Error)) : Prop where
  calm : c.shared.outerStopRequested = false
  stored : ∀ e, c.shared.errors = some e → e ∈ c.shared.reported
  carried : ∀ p, ∀ i ∈ c.threads p, ∀ e, i.error? = some e → e ∈ c.shared.reported
  failed : ∀ d ∈ c.shared.completions, d.FromError → ∃ e ∈ c.shared.reported, d.signal = .error e
  succeeded : ∀ d ∈ c.shared.completions, ¬ d.FromError → ∀ e, d.signal ≠ .error e
  positive : c.shared.reported ≠ [] → 0 < n

variable {s s' : OperationBase n Value Error} {stages : Party n → List (Instr n Value Error)}
  {c : Config (Party n) (OperationBase n Value Error) (Instr n Value Error)} {p : Party n} {i : Instr n Value Error}
  {new rest : List (Instr n Value Error)} {exception : Option Error} {signal : Signal Error}

/-! ### What a step does to the counter -/

theorem stage_put (c : Config (Party n) (OperationBase n Value Error) (Instr n Value Error)) (p : Party n)
    (s : OperationBase n Value Error) (prog : List (Instr n Value Error)) :
    stage (c.put p s prog) = Function.update (stage c) p (prog.filter Instr.ofChild) := by
  funext q
  by_cases same : q = p
  · subst same; simp [stage]
  · simp [stage,put_threads_ne c same,same]

theorem ofChild_of_finishes (finishes : i.finishes) : i.ofChild = true := by
  cases i <;> first | rfl | exact finishes.elim

theorem notLast_filter (signal : Signal Error) :
    (notLast signal : List (Instr n Value Error)).filter Instr.ofChild = [] := by
  cases signal <;> rfl

/-- What the steps that use no share of the counter leave as it is. -/
theorem ran_other (other : i.ofChild = false) (ran : Ran exception s i s' new) :
    s'.nPendingOperations = s.nPendingOperations ∧ s'.decremented = s.decremented ∧
    s'.completedChildren = s.completedChildren ∧ s'.completions = s.completions ∧
    new.filter Instr.ofChild = [] := by
  cases ran <;> simp only [Instr.ofChild,Bool.true_eq_false] at other
  case completeAllItemOps x ops held =>
    refine ⟨rfl,rfl,rfl,rfl,List.filter_eq_nil_iff.mpr fun j member => ?_⟩
    obtain ⟨k,rfl⟩ := mem_completeAll.mp member
    simp [Instr.ofChild]
  case clearQueues =>
    refine ⟨rfl,rfl,rfl,rfl,List.filter_eq_nil_iff.mpr fun j member => ?_⟩
    obtain ⟨k,x,_,rfl⟩ := mem_completeQueues.mp member
    simp [Instr.ofChild]
  all_goals first
    | exact ⟨rfl,rfl,rfl,rfl,rfl⟩
    | exact ⟨rfl,rfl,rfl,rfl,by split <;> rfl⟩

/-- Nothing finishes and nothing is delivered while a child has its share. -/
theorem Counted.early {k : Fin n} (counted : Counted s stages) (absent : k ∉ s.decremented) :
    s.completions = [] ∧ ∀ p, ∀ i ∈ stages p, ¬ i.finishes := by
  have few := length_of_not_mem counted.distinct absent
  constructor
  · by_contra delivered
    have := counted.finished delivered
    omega
  · intro p i member finishes
    have := (counted.finisher p i member finishes).2
    omega

/-- A party goes on to `next` without using a share. -/
theorem Counted.congr (counted : Counted s stages) (pending : s'.nPendingOperations = s.nPendingOperations)
    (decremented : s'.decremented = s.decremented) (completed : s'.completedChildren = s.completedChildren)
    (completions : s'.completions = s.completions) : Counted s' stages where
  pending := by rw [pending,decremented]; exact counted.pending
  distinct := decremented ▸ counted.distinct
  single := counted.single
  decrementing p c signal member := by
    rw [completed,decremented]; exact counted.decrementing p c signal member
  waiting c member out := counted.waiting c (completed ▸ member) (decremented ▸ out)
  known c member := completed ▸ counted.known c (decremented ▸ member)
  finisher p i member finishes := by rw [completions,decremented]; exact counted.finisher p i member finishes
  alone := counted.alone
  unfinished := by rw [completions,decremented]; exact counted.unfinished
  finished := by rw [completions,decremented]; exact counted.finished
  once := completions ▸ counted.once

/-- A child completes and is about to decrement the counter. -/
theorem Counted.complete {k : Fin n} (counted : Counted s stages) (fresh : k ∉ s.completedChildren)
    (idle : stages (.child k) = []) (pending : s'.nPendingOperations = s.nPendingOperations)
    (decremented : s'.decremented = s.decremented) (completed : s'.completedChildren = s.completedChildren ++ [k])
    (completions : s'.completions = s.completions) :
    Counted s' (Function.update stages (.child k) [.fetchSub k signal]) := by
  have absent : k ∉ s.decremented := fun member => fresh (counted.known k member)
  obtain ⟨open_,none⟩ := counted.early absent
  have few := length_of_not_mem counted.distinct absent
  have nobody : ∀ p, ∀ i ∈ Function.update stages (.child k) [.fetchSub k signal] p, ¬ i.finishes := by
    intro p i member
    by_cases same : p = .child k
    · simp [same] at member; subst member; exact id
    · exact none p i (by simpa [same] using member)
  constructor
  · rw [pending,decremented]; exact counted.pending
  · exact decremented ▸ counted.distinct
  · intro p
    by_cases same : p = .child k
    · simp [same]
    · simpa [same] using counted.single p
  · intro p c other member
    rw [completed,decremented]
    by_cases same : p = .child k
    · simp [same] at member
      obtain ⟨rfl,rfl⟩ := member
      exact ⟨same,by simp,absent⟩
    · obtain ⟨party,known,out⟩ := counted.decrementing p c other (by simpa [same] using member)
      exact ⟨party,List.mem_append_left _ known,out⟩
  · intro c member out
    rw [completed,List.mem_append,List.mem_singleton] at member
    by_cases same : c = k
    · subst same; exact ⟨signal,by simp⟩
    · obtain ⟨other,at_c⟩ := counted.waiting c (member.resolve_right same) (decremented ▸ out)
      exact ⟨other,by simpa [same] using at_c⟩
  · intro c member
    rw [completed]
    exact List.mem_append_left _ (counted.known c (decremented ▸ member))
  · exact fun p i member finishes => absurd finishes (nobody p i member)
  · exact fun p _ i member _ _ finishes => absurd finishes (nobody p i member)
  · rw [decremented]; intro _ all; omega
  · rw [completions,open_]; simp
  · rw [completions,open_]; simp

/-- A child gives up its share, and goes on to finish if it was the last one. -/
theorem Counted.decrement {k : Fin n} (counted : Counted s stages) (here : stages p = [.fetchSub k signal])
    (pending : s'.nPendingOperations = s.nPendingOperations - 1) (decremented : s'.decremented = s.decremented ++ [k])
    (completed : s'.completedChildren = s.completedChildren) (completions : s'.completions = s.completions) :
    Counted s' (Function.update stages p (if s.nPendingOperations > 1 then [] else [.resetStopCallback signal])) := by
  obtain ⟨rfl,known,absent⟩ := counted.decrementing p k signal (by simp [here])
  obtain ⟨open_,none⟩ := counted.early absent
  have few := length_of_not_mem counted.distinct absent
  have value := counted.pending
  generalize fate : (if s.nPendingOperations > 1 then [] else [.resetStopCallback signal] :
    List (Instr n Value Error)) = next
  have last : next = [] ∧ s'.decremented.length < n ∨ next = [.resetStopCallback signal] ∧ s'.decremented.length = n := by
    rw [decremented,List.length_append,List.length_singleton]
    split at fate
    · exact .inl ⟨fate.symm,by omega⟩
    · exact .inr ⟨fate.symm,by omega⟩
  have only : ∀ p, ∀ i ∈ Function.update stages (.child k) next p, i.finishes →
      p = .child k ∧ next = [.resetStopCallback signal] := by
    intro p i member finishes
    by_cases same : p = .child k
    · refine ⟨same,?_⟩
      rcases last with ⟨rfl,_⟩ | ⟨same,_⟩
      · simp [same] at member
      · exact same
    · exact absurd finishes (none p i (by simpa [same] using member))
  constructor
  · rw [pending,decremented,value]; simp; omega
  · rw [decremented]
    exact (List.perm_append_singleton k _).nodup_iff.mpr (List.nodup_cons.mpr ⟨absent,counted.distinct⟩)
  · intro p
    by_cases same : p = .child k
    · rcases last with ⟨rfl,_⟩ | ⟨rfl,_⟩ <;> simp [same]
    · simpa [same] using counted.single p
  · intro p c other member
    rw [completed,decremented]
    by_cases same : p = .child k
    · rcases last with ⟨rfl,_⟩ | ⟨rfl,_⟩ <;> simp [same] at member
    · obtain ⟨party,done,out⟩ := counted.decrementing p c other (by simpa [same] using member)
      refine ⟨party,done,?_⟩
      rw [List.mem_append,List.mem_singleton]
      rintro (before | rfl)
      · exact out before
      · exact same party
  · intro c member out
    rw [decremented,List.mem_append,List.mem_singleton,not_or] at out
    obtain ⟨other,at_c⟩ := counted.waiting c (completed ▸ member) out.1
    exact ⟨other,by simpa [out.2] using at_c⟩
  · intro c member
    rw [completed]
    rw [decremented,List.mem_append,List.mem_singleton] at member
    rcases member with before | rfl
    · exact counted.known c before
    · exact known
  · intro p i member finishes
    obtain ⟨_,reset⟩ := only p i member finishes
    rw [completions]
    refine ⟨open_,?_⟩
    rcases last with ⟨rfl,_⟩ | ⟨_,all⟩
    · cases reset
    · exact all
  · intro p q i member j member' finishes finishes'
    rw [(only p i member finishes).1,(only q j member' finishes').1]
  · intro _ all _
    rcases last with ⟨_,less⟩ | ⟨rfl,_⟩
    · omega
    · exact ⟨.child k,.resetStopCallback signal,by simp,trivial⟩
  · rw [completions,open_]; simp
  · rw [completions,open_]; simp

theorem Counted.reset (counted : Counted s stages) (here : stages p = [.resetStopCallback signal])
    (pending : s'.nPendingOperations = s.nPendingOperations) (decremented : s'.decremented = s.decremented)
    (completed : s'.completedChildren = s.completedChildren) (completions : s'.completions = s.completions) :
    Counted s' (Function.update stages p [.finish signal]) := by
  have finishing : (Instr.resetStopCallback signal : Instr n Value Error).finishes := trivial
  have before : ∀ q, ∀ i ∈ Function.update stages p [.finish signal] q, i.finishes → ∃ j ∈ stages q, j.finishes := by
    intro q i member finishes
    by_cases same : q = p
    · exact ⟨.resetStopCallback signal,by simp [same,here],trivial⟩
    · exact ⟨i,by simpa [same] using member,finishes⟩
  have decrementing : ∀ q c other, .fetchSub c other ∈ Function.update stages p [.finish signal] q ↔
      .fetchSub c other ∈ stages q := by
    intro q c other
    by_cases same : q = p
    · simp [same,here]
    · simp [same]
  refine Counted.congr (s := s) ?_ pending decremented completed completions
  exact {
    pending := counted.pending
    distinct := counted.distinct
    single := fun q => by
      by_cases same : q = p
      · simp [same]
      · simpa [same] using counted.single q
    decrementing := fun q c other member => counted.decrementing q c other ((decrementing q c other).mp member)
    waiting := fun c member out => by
      obtain ⟨other,at_c⟩ := counted.waiting c member out
      exact ⟨other,(decrementing _ c other).mpr at_c⟩
    known := counted.known
    finisher := fun q i member finishes => by
      obtain ⟨j,at_q,finishes'⟩ := before q i member finishes
      exact counted.finisher q j at_q finishes'
    alone := fun q r i member j member' finishes finishes' => by
      obtain ⟨i',at_q,first⟩ := before q i member finishes
      obtain ⟨j',at_r,second⟩ := before r j member' finishes'
      exact counted.alone q r i' at_q j' at_r first second
    unfinished := fun _ _ _ => ⟨p,.finish signal,by simp,trivial⟩
    finished := counted.finished
    once := counted.once }

/-- The outer receiver is completed, and nobody else will complete it. -/
theorem Counted.deliver {d : Delivery Error} (counted : Counted s stages) (here : stages p = [.finish signal])
    (pending : s'.nPendingOperations = s.nPendingOperations) (decremented : s'.decremented = s.decremented)
    (completed : s'.completedChildren = s.completedChildren) (completions : s'.completions = s.completions ++ [d]) :
    Counted s' (Function.update stages p []) := by
  obtain ⟨open_,all⟩ := counted.finisher p (.finish signal) (by simp [here]) trivial
  have nobody : ∀ q, ∀ i ∈ Function.update stages p [] q, ¬ i.finishes := by
    intro q i member finishes
    by_cases same : q = p
    · simp [same] at member
    · exact same (counted.alone q p i (by simpa [same] using member) (.finish signal) (by simp [here]) finishes trivial)
  constructor
  · rw [pending,decremented]; exact counted.pending
  · exact decremented ▸ counted.distinct
  · intro q
    by_cases same : q = p
    · simp [same]
    · simpa [same] using counted.single q
  · intro q c other member
    rw [completed,decremented]
    by_cases same : q = p
    · simp [same] at member
    · exact counted.decrementing q c other (by simpa [same] using member)
  · intro c _ out
    exact absurd (mem_of_length counted.distinct all c) (decremented ▸ out)
  · intro c member
    exact completed ▸ counted.known c (decremented ▸ member)
  · exact fun q i member finishes => absurd finishes (nobody q i member)
  · exact fun q _ i member _ _ finishes => absurd finishes (nobody q i member)
  · rw [completions]; simp
  · rw [decremented]; exact fun _ => all
  · rw [completions,open_]; simp

/-- The counter in any run. -/
theorem run_counted (counted : Counted c.shared (stage c)) (left : c.threads p = i :: rest)
    (ran : Ran exception c.shared i s new) : Counted s (stage (c.put p s (new ++ rest))) := by
  rw [stage_put,List.filter_append]
  by_cases other : i.ofChild = false
  · obtain ⟨pending,decremented,completed,completions,none_new⟩ := ran_other other ran
    rw [none_new,List.nil_append,
      Function.update_eq_self_iff.mpr (show rest.filter Instr.ofChild = stage c p by simp [stage,left,other])]
    exact counted.congr pending decremented completed completions
  have here : stage c p = i :: rest.filter Instr.ofChild := by simp [stage,left,other]
  have single := counted.single p
  rw [here] at single
  have none_left : rest.filter Instr.ofChild = [] := List.length_eq_zero_iff.mp (by simpa using single)
  rw [none_left] at here ⊢
  rw [List.append_nil]
  cases ran with
  | fetchSub k signal =>
    have next : (if c.shared.nPendingOperations > 1 then notLast signal else [.resetStopCallback signal] :
        List (Instr n Value Error)).filter Instr.ofChild =
        if c.shared.nPendingOperations > 1 then [] else [.resetStopCallback signal] := by
      split
      · exact notLast_filter signal
      · rfl
    rw [next]
    exact counted.decrement here rfl rfl rfl rfl
  | resetStopCallback signal => exact counted.reset here rfl rfl rfl rfl
  | finish signal => exact counted.deliver here rfl rfl rfl rfl
  | _ => simp [Instr.ofChild] at other

theorem call_counted {e : Event n Value Error} (counted : Counted c.shared (stage c))
    (idle : c.threads ((machine n Value exception).party e) = []) (raised : Raised c.shared e s new) :
    Counted s (stage (c.put ((machine n Value exception).party e) s new)) := by
  rw [stage_put]
  have before : stage c ((machine n Value exception).party e) = [] := by simp [stage,idle]
  have same : new.filter Instr.ofChild = [] → Function.update (stage c) ((machine n Value exception).party e)
      (new.filter Instr.ofChild) = stage c := fun none => by rw [none,← before,Function.update_eq_self]
  cases raised with
  | childCompletes k signal _ fresh _ => exact counted.complete fresh before rfl rfl rfl rfl
  | start => rw [same (by simp [List.filter_eq_nil_iff,Instr.ofChild])]; exact counted.congr rfl rfl rfl rfl
  | outerStop => rw [same (by split <;> rfl)]; exact counted.congr rfl rfl rfl rfl
  | _ => rw [same rfl]; exact counted.congr rfl rfl rfl rfl

/-! ### Where errors go -/

theorem error?_notLast {e : Error} {j : Instr n Value Error} (member : j ∈ notLast signal) (carries : j.error? = some e) :
    signal.error? = some e := by
  cases signal <;> simp [notLast,notifyStop,notifyError] at member
  · rcases member with rfl | rfl <;> cases carries
  · rcases member with rfl | rfl | rfl <;> simp_all [Instr.error?,Completion.error?]
  · rcases member with rfl | rfl <;> cases carries

/-- An error that an instruction leaves behind is one that it had, or a new report. -/
theorem ran_errors (ran : Ran exception s i s' new) :
    (∀ e ∈ s.reported, e ∈ s'.reported) ∧
    (∀ e, s'.errors = some e → s.errors = some e ∨ i.error? = some e) ∧
    (∀ j ∈ new, ∀ e, j.error? = some e → i.error? = some e ∨ e ∈ s'.reported) ∧
    s'.outerStopRequested = s.outerStopRequested ∧ (s'.reported = s.reported ∨ 0 < n) := by
  cases ran with
  | emplaceThrows x v e throws =>
    refine ⟨by simp +contextual,fun _ stored => .inl stored,?_,rfl,.inr (Fin.pos x.index)⟩
    simp [notifyError,notifyStop,Instr.error?]
  | zippedThrows x result next e throws =>
    refine ⟨by simp +contextual,fun _ stored => .inl stored,?_,rfl,.inr (Fin.pos x.index)⟩
    simp [notifyError,notifyStop,Instr.error?]
  | storeError e =>
    refine ⟨fun _ member => member,?_,by simp,rfl,.inl rfl⟩
    intro e' stored
    cases held : s.errors with
    | none => exact .inr (by simpa [held,Instr.error?] using stored)
    | some _ => exact .inl (by simpa [held] using stored)
  | fetchSub k signal =>
    refine ⟨fun _ member => member,fun _ stored => .inl stored,?_,rfl,.inl rfl⟩
    intro j member e carries
    left
    split at member
    · exact error?_notLast member carries
    · obtain rfl := List.mem_singleton.mp member
      exact carries
  | clearQueues =>
    refine ⟨fun _ member => member,fun _ stored => .inl stored,?_,rfl,.inl rfl⟩
    intro j member e carries
    obtain ⟨_,x,_,rfl⟩ := mem_completeQueues.mp member
    cases carries
  | completeAllItemOps x ops held =>
    refine ⟨fun _ member => member,fun _ stored => .inl stored,?_,rfl,.inl rfl⟩
    intro j member e carries
    obtain ⟨_,rfl⟩ := mem_completeAll.mp member
    cases carries
  | _ =>
    refine ⟨fun _ member => member,fun _ stored => .inl stored,?_,rfl,.inl rfl⟩
    intro j member e carries
    first
      | (simp at member; done)
      | (split at member <;> simp at member <;> (subst member; exact .inl carries))
      | (split at member <;> simp at member <;> rcases member with rfl | rfl <;> exact .inl carries)
      | (simp at member; subst member; first | cases carries | exact .inl carries)

/-- What the last child sends, while the outer stop token is not requested. -/
theorem outcome_of_calm (calm : s.outerStopRequested = false) (sent : Signal Error) :
    (∀ e, sent.error? = some e → outcome s sent = .error e) ∧
    ((Delivery.mk (outcome s sent) sent s.errors.isSome).FromError →
      ∃ e, (sent.error? = some e ∨ s.errors = some e) ∧ outcome s sent = .error e) ∧
    (¬ (Delivery.mk (outcome s sent) sent s.errors.isSome).FromError → ∀ e, outcome s sent ≠ .error e) := by
  cases sent with
  | value _ =>
    cases held : s.errors <;> simp [Completion.error?,outcome,Delivery.FromError,calm,held]
  | stopped =>
    by_cases stopped : s.stopRequested <;>
      simp [Completion.error?,outcome,Delivery.FromError,calm,stopped]
  | error e => simp [Completion.error?,outcome,Delivery.FromError]

theorem run_reported (reported : Reported c) (left : c.threads p = i :: rest)
    (ran : Ran exception c.shared i s new) : Reported (c.put p s (new ++ rest)) := by
  obtain ⟨grows,stores,carries,calm,fresh⟩ := ran_errors ran
  have carried : ∀ e, i.error? = some e → e ∈ s.reported := fun e has =>
    grows e (reported.carried p i (by simp [left]) e has)
  have delivered : s.completions = c.shared.completions ∨ ∃ signal, i = .finish signal ∧
      s.completions = c.shared.completions ++ [⟨outcome c.shared signal,signal,c.shared.errors.isSome⟩] := by
    cases ran with
    | finish signal => exact .inr ⟨signal,rfl,rfl⟩
    | _ => exact .inl rfl
  refine ⟨calm.trans reported.calm,?_,?_,?_,?_,?_⟩
  · intro e stored
    exact (stores e stored).elim (fun held => grows e (reported.stored e held)) (carried e)
  · intro q j member e has
    rw [put_threads] at member
    split at member
    · rcases List.mem_append.mp member with later | later
      · exact (carries j later e has).elim (carried e) id
      · exact grows e (reported.carried p j (by simp [left,later]) e has)
    · exact grows e (reported.carried q j member e has)
  · intro d member
    rcases delivered with same | ⟨signal,rfl,same⟩
    · intro failed
      obtain ⟨e,known,sent⟩ := reported.failed d (same ▸ member) failed
      exact ⟨e,grows e known,sent⟩
    · rw [put_shared,same,List.mem_append,List.mem_singleton] at member
      rcases member with before | rfl
      · intro failed
        obtain ⟨e,known,sent⟩ := reported.failed d before failed
        exact ⟨e,grows e known,sent⟩
      · intro failed
        obtain ⟨e,source,sent⟩ := (outcome_of_calm reported.calm signal).2.1 failed
        exact ⟨e,source.elim (carried e) (fun held => grows e (reported.stored e held)),sent⟩
  · intro d member
    rcases delivered with same | ⟨signal,rfl,same⟩
    · exact reported.succeeded d (same ▸ member)
    · rw [put_shared,same,List.mem_append,List.mem_singleton] at member
      rcases member with before | rfl
      · exact reported.succeeded d before
      · exact (outcome_of_calm reported.calm signal).2.2
  · intro some
    rcases fresh with same | positive
    · exact reported.positive (same ▸ some)
    · exact positive

theorem call_reported {e : Event n Value Error} (reported : Reported c) (ok : NoOuterStop c (.call e))
    (raised : Raised c.shared e s new) : Reported (c.put ((machine n Value exception).party e) s new) := by
  have effect : (∀ e ∈ c.shared.reported, e ∈ s.reported) ∧ s.errors = c.shared.errors ∧
      (∀ j ∈ new, ∀ e, j.error? = some e → e ∈ s.reported) ∧ s.outerStopRequested = c.shared.outerStopRequested ∧
      s.completions = c.shared.completions ∧ (s.reported = c.shared.reported ∨ 0 < n) := by
    cases raised with
    | start => simp [Instr.error?]
    | itemError x e =>
      refine ⟨by simp +contextual,rfl,?_,rfl,rfl,.inr (Fin.pos x.index)⟩
      simp [itemSetError,notifyError,notifyStop,Instr.error?]
    | childCompletes k signal =>
      refine ⟨by simp +contextual,rfl,?_,rfl,rfl,.inr (Fin.pos k)⟩
      simp +contextual [childComplete,Instr.error?]
    | outerStop => exact ok.elim
    | _ =>
      refine ⟨fun _ member => member,rfl,?_,rfl,rfl,.inl rfl⟩
      simp [itemSetValue,itemSetStopped,zippedSetValue,zippedSetStopped,notifyStop,Instr.error?]
  obtain ⟨grows,errors,carries,calm,completions,fresh⟩ := effect
  refine ⟨calm.trans reported.calm,?_,?_,?_,?_,?_⟩
  · intro e stored
    exact grows e (reported.stored e (errors ▸ stored))
  · intro q j member e has
    rw [put_threads] at member
    split at member
    · exact carries j member e has
    · exact grows e (reported.carried q j member e has)
  · intro d member failed
    obtain ⟨e,known,sent⟩ := reported.failed d (completions ▸ member) failed
    exact ⟨e,grows e known,sent⟩
  · intro d member
    exact reported.succeeded d (completions ▸ member)
  · intro some
    rcases fresh with same | positive
    · exact reported.positive (same ▸ some)
    · exact positive

/-! ### The outcome of a run -/

theorem initial_counted : Counted (initial n Value Error).shared (stage (initial n Value Error)) := by
  constructor <;> simp [initial,stage]
  omega

theorem initial_reported : Reported (initial n Value Error) := by
  constructor <;> simp [initial]

theorem reach_counted {allowed : Config (Party n) (OperationBase n Value Error) (Instr n Value Error) →
      Label (Party n) (Event n Value Error) → Prop}
    (reach : Reach (machine n Value exception) allowed (initial n Value Error) c) :
    Counted c.shared (stage c) :=
  reach.invariant (I := fun c => Counted c.shared (stage c)) initial_counted
    (fun _ _ _ _ _ _ counted _ left ran => run_counted counted left (ran_of_mem ran))
    (fun _ _ _ _ counted _ idle accepted => call_counted counted idle (raised_of_accept accepted))

theorem reach_reported (reach : Reach (machine n Value exception) NoOuterStop (initial n Value Error) c) : Reported c :=
  reach.invariant initial_reported
    (fun _ _ _ _ _ _ reported _ left ran => run_reported reported left (ran_of_mem ran))
    (fun _ _ _ _ reported ok _ accepted => call_reported reported ok (raised_of_accept accepted))

/-! ### The children and their items -/

/-- Every child is started, has no item in progress when it has completed, and is sent
    no error by its items. -/
structure Orderly (c : Config (Party n) (OperationBase n Value Error) (Instr n Value Error)) : Prop where
  children : c.shared.begun = true → ∀ k, k ∈ c.shared.startedChildren ∨ .startChild k ∈ c.threads .operation
  closed : ∀ k ∈ c.shared.completedChildren, ¬ ItemsOpen c.shared k
  fine : ∀ d ∈ c.shared.itemCompletions, ∀ e, d.2 ≠ .error e

/-- What is completed stays completed. -/
theorem itemsOpen_mono {k : Fin n} (started : s'.startedItems = s.startedItems)
    (grows : ∀ d ∈ s.itemCompletions, d ∈ s'.itemCompletions) (open_ : ItemsOpen s' k) : ItemsOpen s k := by
  obtain ⟨x,member,index,pending⟩ := open_
  refine ⟨x,started ▸ member,index,fun done => pending ?_⟩
  obtain ⟨d,here,rfl⟩ := List.mem_map.mp done
  exact List.mem_map_of_mem (grows d here)

theorem ran_frame (ran : Ran exception s i s' new) :
    s'.begun = s.begun ∧ s'.completedChildren = s.completedChildren ∧ s'.startedItems = s.startedItems ∧
    (∀ k ∈ s.startedChildren, k ∈ s'.startedChildren) ∧ (∀ d ∈ s.itemCompletions, d ∈ s'.itemCompletions) := by
  cases ran <;> simp +contextual

theorem run_orderly (orderly : Orderly c) (left : c.threads p = i :: rest) (ran : Ran exception c.shared i s new) :
    Orderly (c.put p s (new ++ rest)) := by
  obtain ⟨begun,completed,started,children,grows⟩ := ran_frame ran
  refine ⟨fun some k => ?_,fun k member => ?_,?_⟩
  · rw [put_shared,begun] at some
    rcases orderly.children some k with before | left_
    · exact .inl (children k before)
    · by_cases here : i = .startChild k
      · subst here
        cases ran
        exact .inl (by simp)
      · exact .inr (mem_put_of_ne left left_ (Ne.symm here))
  · rw [put_shared,completed] at member
    exact fun open_ => orderly.closed k member (itemsOpen_mono started grows open_)
  · have fine := orderly.fine
    cases ran with
    | complete x signal other =>
      intro d member
      rcases List.mem_append.mp member with before | now
      · exact fine d before
      · obtain rfl := List.mem_singleton.mp now
        exact other
    | setStopped x =>
      intro d member
      rcases List.mem_append.mp member with before | now
      · exact fine d before
      · obtain rfl := List.mem_singleton.mp now
        simp
    | _ => exact fine

theorem call_orderly {e : Event n Value Error} (orderly : Orderly c)
    (idle : c.threads ((machine n Value exception).party e) = []) (raised : Raised c.shared e s new) :
    Orderly (c.put ((machine n Value exception).party e) s new) := by
  have stays : ∀ {k : Fin n}, .startChild k ∈ c.threads .operation →
      .startChild k ∈ (c.put ((machine n Value exception).party e) s new).threads .operation := by
    intro k member
    rw [put_threads]
    split
    · rename_i here
      rw [here,idle] at member
      cases member
    · exact member
  cases raised with
  | start => exact ⟨fun _ k => .inr (by simp [machine]),orderly.closed,orderly.fine⟩
  | setNext x _ running fresh =>
    refine ⟨fun some k => (orderly.children some k).imp_right stays,fun k member open_ => ?_,orderly.fine⟩
    obtain ⟨y,started,index,pending⟩ := open_
    rcases List.mem_append.mp started with before | now
    · exact orderly.closed k member ⟨y,before,index,pending⟩
    · obtain rfl := List.mem_singleton.mp now
      exact running (index ▸ member)
  | childCompletes k signal _ _ none =>
    refine ⟨fun some j => (orderly.children some j).imp_right stays,fun j member => ?_,orderly.fine⟩
    rcases List.mem_append.mp member with before | now
    · exact orderly.closed j before
    · obtain rfl := List.mem_singleton.mp now
      exact none
  | _ => exact ⟨fun some k => (orderly.children some k).imp_right stays,orderly.closed,orderly.fine⟩

theorem reach_orderly {allowed : Config (Party n) (OperationBase n Value Error) (Instr n Value Error) →
      Label (Party n) (Event n Value Error) → Prop}
    (reach : Reach (machine n Value exception) allowed (initial n Value Error) c) : Orderly c :=
  reach.invariant ⟨by simp [initial],by simp [initial],by simp [initial]⟩
    (fun _ _ _ _ _ _ orderly _ left ran => run_orderly orderly left (ran_of_mem ran))
    (fun _ _ _ _ orderly _ idle accepted => call_orderly orderly idle (raised_of_accept accepted))

/-! ### What has happened in a run -/

/-- A step of a run, with the configuration before it. -/
abbrev Step (n : Nat) (Value Error : Type) :=
  Config (Party n) (OperationBase n Value Error) (Instr n Value Error) × Label (Party n) (Event n Value Error)

section
variable (steps : List (Step n Value Error))

/-- The child has completed with the signal. -/
def Completes (k : Fin n) (signal : Signal Error) : Prop := ∃ step ∈ steps, step.2 = .call (.childCompletes k signal)

/-- A handler has executed the store of the error. -/
def Stores (e : Error) : Prop := ∃ step ∈ steps, executed step = some (.storeError e)

/-- The child completes the outer receiver after these steps. -/
def Finishes (before : List (Step n Value Error)) (k : Fin n) (signal : Signal Error) : Prop :=
  ∃ step after, steps = before ++ step :: after ∧ step.2 = .run (.child k) ∧ executed step = some (.finish signal)

/-- The child that completes the outer receiver has itself completed with an error, or with a
    value, and some handler had executed its store of an error by then. -/
def BringsError : Prop :=
  ∃ before k signal, Finishes steps before k signal ∧
    ((∃ e, Completes before k (.error e)) ∨ Completes before k (.value ()) ∧ ∃ e, Stores before e)

end

variable {steps before : List (Step n Value Error)} {step : Step n Value Error} {k : Fin n}

theorem stores_append {e : Error} :
    Stores (steps ++ [step]) e ↔ Stores steps e ∨ executed step = some (.storeError e) := exists_mem_append_singleton

theorem completes_append : Completes (steps ++ [step]) k signal ↔
    Completes steps k signal ∨ step.2 = .call (.childCompletes k signal) := exists_mem_append_singleton

theorem finishes_append : Finishes (steps ++ [step]) before k signal ↔ Finishes steps before k signal ∨
    before = steps ∧ step.2 = .run (.child k) ∧ executed step = some (.finish signal) := by
  constructor
  · rintro ⟨last,after,split,party,finish⟩
    rcases append_singleton_eq.mp split with ⟨rfl,rfl,_⟩ | ⟨more,_,rfl⟩
    · exact .inr ⟨rfl,party,finish⟩
    · exact .inl ⟨last,more,rfl,party,finish⟩
  · rintro (⟨last,after,rfl,party,finish⟩ | ⟨rfl,party,finish⟩)
    · exact ⟨last,after ++ [step],by simp,party,finish⟩
    · exact ⟨step,[],rfl,party,finish⟩

/-- What the configuration remembers of the steps: each child completes once, its handler carries
    its signal, `errors_` holds an error once one was stored, and every error that was reported has
    been stored, is in the hands of a handler or was sent by the last child. -/
structure Traced (steps : List (Step n Value Error))
    (c : Config (Party n) (OperationBase n Value Error) (Instr n Value Error)) : Prop where
  known : ∀ k signal, Completes steps k signal → k ∈ c.shared.completedChildren
  unique : ∀ k signal signal', Completes steps k signal → Completes steps k signal' → signal = signal'
  carried : ∀ p, ∀ i ∈ c.threads p, ∀ signal, i.signal? = some signal → ∃ k, p = .child k ∧ Completes steps k signal
  stored : c.shared.errors.isSome = true ↔ ∃ e, Stores steps e
  pending : ∀ e ∈ c.shared.reported, Stores steps e ∨ (∃ p, ∃ i ∈ c.threads p, i.error? = some e) ∨
    ∃ before k, Finishes steps before k (.error e)
  delivered : ∀ before k signal, Finishes steps before k signal → Completes before k signal ∧
    ∃ d, c.shared.completions = [d] ∧ d.last = signal ∧ (d.stored = true ↔ ∃ e, Stores before e)
  delivers : c.shared.completions ≠ [] → ∃ before k signal, Finishes steps before k signal

/-- A signal is handed on from the decrement to the completion. -/
theorem ran_signal (ran : Ran exception s i s' new) {j : Instr n Value Error} (member : j ∈ new)
    (carries : j.signal? = some signal) : i.signal? = some signal := by
  have uses : j.ofChild = true := by cases j <;> first | rfl | cases carries
  cases other : i.ofChild with
  | false =>
    have none := (ran_other other ran).2.2.2.2
    have := List.mem_filter.mpr ⟨member,uses⟩
    rw [none] at this
    cases this
  | true =>
    cases ran with
    | fetchSub k signal' =>
      split at member
      · have := List.mem_filter.mpr ⟨member,uses⟩
        rw [notLast_filter] at this
        cases this
      · cases List.mem_singleton.mp member
        exact carries
    | resetStopCallback signal' =>
      cases List.mem_singleton.mp member
      exact carries
    | finish signal' =>
      cases List.mem_singleton.mp member
      cases carries
    | _ => cases other

/-- A stored error is kept, and no other step stores one. -/
theorem ran_stored (ran : Ran exception s i s' new) :
    s'.errors.isSome = true ↔ s.errors.isSome = true ∨ ∃ e, i = .storeError e := by
  cases ran with
  | storeError e => cases s.errors <;> simp
  | _ => simp

/-- An error in the hands of a handler is stored next, handed on, or sent. -/
theorem ran_error {e : Error} (ran : Ran exception s i s' new) (carries : i.error? = some e) :
    i = .storeError e ∨ i = .finish (.error e) ∨ ∃ j ∈ new, j.error? = some e := by
  cases ran with
  | storeError e' =>
    cases carries
    exact .inl rfl
  | fetchSub k signal =>
    cases signal with
    | error e' =>
      cases carries
      refine .inr (.inr ?_)
      split
      · exact ⟨.storeError e,by simp [notLast,notifyError],rfl⟩
      · exact ⟨.resetStopCallback (.error e),by simp,rfl⟩
    | value _ => cases carries
    | stopped => cases carries
  | resetStopCallback signal => exact .inr (.inr ⟨.finish signal,by simp,carries⟩)
  | finish signal =>
    cases signal with
    | error e' =>
      cases carries
      exact .inr (.inl rfl)
    | value _ => cases carries
    | stopped => cases carries
  | _ => cases carries

/-- An error that a step reports is in the hands of the handler that executes it. -/
theorem ran_reported {e : Error} (ran : Ran exception s i s' new) (member : e ∈ s'.reported) :
    e ∈ s.reported ∨ .storeError e ∈ new := by
  cases ran with
  | emplaceThrows x v e' throws =>
    rcases List.mem_append.mp member with before | now
    · exact .inl before
    · cases List.mem_singleton.mp now
      exact .inr (by simp [notifyError])
  | zippedThrows x result next e' throws =>
    rcases List.mem_append.mp member with before | now
    · exact .inl before
    · cases List.mem_singleton.mp now
      exact .inr (by simp [notifyError])
  | _ => exact .inl member

/-- A handler that carries a signal is that of a child that has completed with it. -/
theorem Traced.party (traced : Traced steps c) (left : c.threads p = i :: rest) {signal : Signal Error}
    (carries : i.signal? = some signal) : ∃ k, p = .child k ∧ Completes steps k signal :=
  traced.carried p i (left ▸ List.mem_cons_self) signal carries

/-- An error that was reported is stored or sent by the handler that has it, or stays with it. -/
theorem run_pending (traced : Traced steps c) (left : c.threads p = i :: rest) (ran : Ran exception c.shared i s new)
    {e : Error} (reported : e ∈ s.reported) :
    Stores (steps ++ [(c,.run p)]) e ∨
      (∃ q, ∃ j ∈ (c.put p s (new ++ rest)).threads q, j.error? = some e) ∨
      ∃ before k, Finishes (steps ++ [(c,.run p)]) before k (.error e) := by
  have now : executed ((c,.run p) : Step n Value Error) = some i := executed_run left
  simp only [stores_append,finishes_append,now,Option.some.injEq]
  rcases ran_reported ran reported with before | fresh
  · rcases traced.pending e before with stored | ⟨q,j,member,carries⟩ | ⟨before,k,sent⟩
    · exact .inl (.inl stored)
    · by_cases same : j = i
      · subst same
        rcases ran_error ran carries with stores | finish | ⟨j',member,carries⟩
        · exact .inl (.inr stores)
        · obtain ⟨k,here,_⟩ := traced.party left (show j.signal? = some (.error e) by rw [finish]; rfl)
          exact .inr (.inr ⟨steps,k,.inr ⟨rfl,by rw [here],finish⟩⟩)
        · exact .inr (.inl ⟨p,j',by simp [put_threads_self,member],carries⟩)
      · exact .inr (.inl ⟨q,j,mem_put_of_ne left member same,carries⟩)
    · exact .inr (.inr ⟨before,k,.inl sent⟩)
  · exact .inr (.inl ⟨p,.storeError e,by simp [put_threads_self,fresh],rfl⟩)

/-- The outer receiver gets what the child that completes it makes of the errors stored by then. -/
theorem run_delivered (counted : Counted c.shared (stage c)) (traced : Traced steps c) (left : c.threads p = i :: rest)
    (ran : Ran exception c.shared i s new) {before : List (Step n Value Error)} {k : Fin n} {signal : Signal Error}
    (finishes : Finishes (steps ++ [(c,.run p)]) before k signal) :
    Completes before k signal ∧
      ∃ d, s.completions = [d] ∧ d.last = signal ∧ (d.stored = true ↔ ∃ e, Stores before e) := by
  rcases finishes_append.mp finishes with earlier | ⟨rfl,here,finish⟩
  · obtain ⟨answered,d,sent,last,stored⟩ := traced.delivered before k signal earlier
    refine ⟨answered,d,?_,last,stored⟩
    cases ran with
    | finish signal' =>
      -- the outer receiver is completed once
      have := (counted.finisher p (.finish signal') (by simp [stage,left,Instr.ofChild]) trivial).1
      simp [this] at sent
    | _ => exact sent
  · rw [executed_run left] at finish
    cases finish
    obtain ⟨k',same,answered⟩ := traced.party left (show (Instr.finish signal).signal? = some signal from rfl)
    cases here
    cases same
    have empty := (counted.finisher (.child k) (.finish signal) (by simp [stage,left,Instr.ofChild]) trivial).1
    cases ran with
    | finish => exact ⟨answered,_,by rw [empty]; rfl,rfl,traced.stored⟩

theorem run_delivers (traced : Traced steps c) (left : c.threads p = i :: rest)
    (ran : Ran exception c.shared i s new) (completed : s.completions ≠ []) :
    ∃ before k signal, Finishes (steps ++ [(c,.run p)]) before k signal := by
  by_cases finishing : ∃ signal, i = .finish signal
  · obtain ⟨signal,rfl⟩ := finishing
    obtain ⟨k,here,_⟩ := traced.party left (show (Instr.finish signal).signal? = some signal from rfl)
    exact ⟨steps,k,signal,finishes_append.mpr (.inr ⟨rfl,by rw [here],executed_run left⟩)⟩
  · have same : s.completions = c.shared.completions := by
      cases ran <;> first | rfl | exact absurd ⟨_,rfl⟩ finishing
    obtain ⟨before,k,signal,finishes⟩ := traced.delivers (same ▸ completed)
    exact ⟨before,k,signal,finishes_append.mpr (.inl finishes)⟩

theorem run_traced (counted : Counted c.shared (stage c)) (traced : Traced steps c) (left : c.threads p = i :: rest)
    (ran : Ran exception c.shared i s new) : Traced (steps ++ [(c,.run p)]) (c.put p s (new ++ rest)) := by
  have completes : ∀ k signal, Completes (steps ++ [(c,.run p)]) k signal ↔ Completes steps k signal := fun k signal => by
    simp [completes_append]
  refine ⟨fun k signal done => ?_,fun k signal signal' => ?_,fun q j member signal carries => ?_,?_,
    fun _ => run_pending traced left ran,fun _ _ _ => run_delivered counted traced left ran,run_delivers traced left ran⟩
  · rw [put_shared,(ran_frame ran).2.1]
    exact traced.known k signal ((completes k signal).mp done)
  · rw [completes,completes]
    exact traced.unique k signal signal'
  · simp only [completes]
    rw [put_threads] at member
    split at member
    · next here =>
      subst here
      rcases List.mem_append.mp member with first | later
      · exact traced.party left (ran_signal ran first carries)
      · exact traced.carried q j (by simp [left,later]) signal carries
    · exact traced.carried q j member signal carries
  · rw [put_shared,ran_stored ran,traced.stored]
    simp only [stores_append,executed_run left,Option.some.injEq,exists_or]

/-- What a call adds to what the configuration remembers. -/
theorem raised_frame {e : Event n Value Error} (raised : Raised c.shared e s new) :
    s.errors = c.shared.errors ∧ s.completions = c.shared.completions ∧
    (∀ k ∈ c.shared.completedChildren, k ∈ s.completedChildren) ∧
    (∀ k signal, e = .childCompletes k signal → k ∉ c.shared.completedChildren ∧ k ∈ s.completedChildren) ∧
    (∀ j ∈ new, ∀ signal, j.signal? = some signal → ∃ k, e = .childCompletes k signal) ∧
    ∀ error ∈ s.reported, error ∈ c.shared.reported ∨ ∃ j ∈ new, j.error? = some error := by
  cases raised with
  | start =>
    refine ⟨rfl,rfl,fun _ => id,by simp,fun j member signal carries => ?_,fun _ => .inl⟩
    rcases List.mem_cons.mp member with rfl | later
    · cases carries
    · obtain ⟨k,_,rfl⟩ := List.mem_map.mp later
      cases carries
  | itemError x e =>
    refine ⟨rfl,rfl,fun _ => id,by simp,by simp [itemSetError,notifyError,notifyStop,Instr.signal?],
      fun error member => ?_⟩
    · rcases List.mem_append.mp member with before | now
      · exact .inl before
      · cases List.mem_singleton.mp now
        exact .inr ⟨.storeError e,by simp [itemSetError,notifyError],rfl⟩
  | childCompletes k signal _ fresh _ =>
    refine ⟨rfl,rfl,fun _ => List.mem_append_left _,?_,fun j member signal' carries => ?_,fun error member => ?_⟩
    · rintro k' signal' ⟨⟩
      exact ⟨fresh,by simp⟩
    · cases List.mem_singleton.mp member
      cases carries
      exact ⟨k,rfl⟩
    · rcases List.mem_append.mp member with before | now
      · exact .inl before
      · exact .inr ⟨.fetchSub k signal,by simp [childComplete],Option.mem_toList.mp now⟩
  | outerStop =>
    refine ⟨rfl,rfl,fun _ => id,by simp,fun j member signal carries => ?_,fun _ => .inl⟩
    split at member
    · cases List.mem_singleton.mp member
      cases carries
    · cases member
  | setNext x => exact ⟨rfl,rfl,fun _ => id,by simp,by simp,fun _ => .inl⟩
  | itemValue x v => exact ⟨rfl,rfl,fun _ => id,by simp,by simp [itemSetValue,Instr.signal?],fun _ => .inl⟩
  | itemStopped x =>
    exact ⟨rfl,rfl,fun _ => id,by simp,by simp [itemSetStopped,notifyStop,Instr.signal?],fun _ => .inl⟩
  | zippedValue x => exact ⟨rfl,rfl,fun _ => id,by simp,by simp [zippedSetValue,Instr.signal?],fun _ => .inl⟩
  | zippedStopped x =>
    exact ⟨rfl,rfl,fun _ => id,by simp,by simp [zippedSetStopped,notifyStop,Instr.signal?],fun _ => .inl⟩

theorem call_traced {e : Event n Value Error} (traced : Traced steps c)
    (idle : c.threads ((machine n Value exception).party e) = []) (raised : Raised c.shared e s new) :
    Traced (steps ++ [(c,.call e)]) (c.put ((machine n Value exception).party e) s new) := by
  obtain ⟨errors,completions,grows,completes,carries,reports⟩ := raised_frame raised
  have finishes : ∀ before k signal, Finishes (steps ++ [(c,.call e)]) before k signal ↔ Finishes steps before k signal :=
    fun before k signal => by simp [finishes_append]
  refine ⟨fun k signal done => ?_,fun k signal signal' done done' => ?_,fun q j member signal carried => ?_,?_,
    fun error reported => ?_,fun before k signal finish => ?_,fun completed => ?_⟩
  · rcases completes_append.mp done with before | now
    · exact grows k (traced.known k signal before)
    · exact (completes k signal (by simpa using now)).2
  · rcases completes_append.mp done with before | now <;> rcases completes_append.mp done' with before' | now'
    · exact traced.unique k signal signal' before before'
    · exact absurd (traced.known k signal before) (completes k signal' (by simpa using now')).1
    · exact absurd (traced.known k signal' before') (completes k signal (by simpa using now)).1
    · have same := now.symm.trans now'
      simpa using same
  · rw [put_threads] at member
    split at member
    · next here =>
      obtain ⟨k,rfl⟩ := carries j member signal carried
      exact ⟨k,here,completes_append.mpr (.inr rfl)⟩
    · obtain ⟨k,party,done⟩ := traced.carried q j member signal carried
      exact ⟨k,party,completes_append.mpr (.inl done)⟩
  · rw [put_shared,errors,traced.stored]
    simp [stores_append]
  · simp only [stores_append,executed_call,finishes,reduceCtorEq,or_false]
    rcases reports error reported with before | ⟨j,member,carried⟩
    · rcases traced.pending error before with stored | ⟨q,j,member,carried⟩ | sent
      · exact .inl stored
      · refine .inr (.inl ⟨q,j,?_,carried⟩)
        rw [put_threads]
        split
        · next here =>
          rw [here,idle] at member
          cases member
        · exact member
      · exact .inr (.inr sent)
    · exact .inr (.inl ⟨_,j,by rwa [put_threads_self],carried⟩)
  · rw [put_shared,completions]
    exact traced.delivered before k signal ((finishes before k signal).mp finish)
  · rw [put_shared,completions] at completed
    obtain ⟨before,k,signal,finish⟩ := traced.delivers completed
    exact ⟨before,k,signal,(finishes before k signal).mpr finish⟩

theorem run_reach_traced {allowed : Config (Party n) (OperationBase n Value Error) (Instr n Value Error) →
      Label (Party n) (Event n Value Error) → Prop}
    (run : Run (machine n Value exception) allowed (initial n Value Error) steps c) : Traced steps c := by
  refine run.invariant (I := Traced) ?_ ?_ ?_
  · exact ⟨by simp [Completes],by simp [Completes],by simp [initial],by simp [initial,Stores],by simp [initial],
      by simp [Finishes],by simp [initial]⟩
  · intro steps c p i rest s new reach traced _ left ran
    exact run_traced (reach_counted reach) traced left (ran_of_mem ran)
  · intro steps c e s prog _ traced _ idle accepted
    exact call_traced traced idle (raised_of_accept accepted)

/-! ### The outcome -/

theorem fromError_iff (traced : Traced steps c) {d : Delivery Error} (member : d ∈ c.shared.completions) :
    d.FromError ↔ BringsError steps := by
  constructor
  · intro fails
    obtain ⟨before,k,signal,finishes⟩ := traced.delivers (List.ne_nil_of_mem member)
    obtain ⟨answered,d',only,last,stored⟩ := traced.delivered before k signal finishes
    rw [only,List.mem_singleton] at member
    subst member
    refine ⟨before,k,signal,finishes,?_⟩
    rw [Delivery.FromError,last] at fails
    cases signal with
    | error e => exact .inl ⟨e,answered⟩
    | value _ => exact .inr ⟨answered,stored.mp fails⟩
    | stopped => exact fails.elim
  · rintro ⟨before,k,signal,finishes,brings⟩
    obtain ⟨answered,d',only,last,stored⟩ := traced.delivered before k signal finishes
    rw [only,List.mem_singleton] at member
    subst member
    -- a child completes with one signal only
    have unique : ∀ signal', Completes before k signal' → signal' = signal := fun signal' done => by
      obtain ⟨step,after,rfl,_⟩ := finishes
      have whole : ∀ signal, Completes before k signal → Completes (before ++ step :: after) k signal :=
        fun _ ⟨step,here,same⟩ => ⟨step,List.mem_append_left _ here,same⟩
      exact traced.unique k _ _ (whole _ done) (whole _ answered)
    rw [Delivery.FromError,last]
    rcases brings with ⟨e,fails⟩ | ⟨succeeds,holds⟩
    · rw [← unique _ fails]
      trivial
    · rw [← unique _ succeeds]
      exact stored.mpr holds

/-- As long as the outer stop token is not requested and once an error has been
    reported: the outer receiver is completed at most once, exactly once when
    every child has completed and nothing is left to run; every error that was
    reported has been stored, is in the hands of a handler or was sent; and the
    outer receiver is completed with an error that was reported if and only if the
    child that finished last failed, or succeeded after an error had been stored. -/
theorem error_outcome (run : Run (machine n Value exception) NoOuterStop (initial n Value Error) steps c)
    (failed : c.shared.reported ≠ []) :
    c.shared.completions.length ≤ 1 ∧
    ((∀ p, c.threads p = []) → (∀ i, i ∈ c.shared.completedChildren) → c.shared.completions.length = 1) ∧
    (∀ e ∈ c.shared.reported, Stores steps e ∨ (∃ p, ∃ i ∈ c.threads p, i.error? = some e) ∨
      ∃ before k, Finishes steps before k (.error e)) ∧
    ∀ d ∈ c.shared.completions, (∃ e ∈ c.shared.reported, d.signal = .error e) ↔ BringsError steps := by
  have counted := reach_counted run.reach
  have reported := reach_reported run.reach
  have traced := run_reach_traced run
  refine ⟨counted.once,?_,traced.pending,?_⟩
  · intro idle completed
    have all : c.shared.decremented.length = n := by
      apply length_of_mem counted.distinct
      intro i
      by_contra out
      obtain ⟨signal,pending⟩ := counted.waiting i (completed i) out
      simp [stage,idle] at pending
    have once := counted.once
    cases sent : c.shared.completions with
    | nil =>
      obtain ⟨p,i,member,_⟩ := counted.unfinished sent all (reported.positive failed)
      simp [stage,idle] at member
    | cons d rest => simp [sent] at once ⊢; exact once
  · intro d member
    rw [← fromError_iff traced member]
    constructor
    · rintro ⟨e,_,sent⟩
      by_contra succeeded
      exact reported.succeeded d member succeeded e sent
    · exact reported.failed d member

def staysCalm : Label (Party n) (Event n Value Error) → Bool
  | .call .outerStop => false
  | _ => true

theorem noOuterStop_of_calm (c : Config (Party n) (OperationBase n Value Error) (Instr n Value Error))
    (l : Label (Party n) (Event n Value Error)) (calm : staysCalm l = true) : NoOuterStop c l := by
  cases l with
  | run p => trivial
  | call e => cases e <;> simp [staysCalm,NoOuterStop] at calm ⊢

/-- An item of the only child fails, and the child then completes with a value. -/
theorem error_outcome_stored : ∃ steps c, Run (machine 1 Nat none) NoOuterStop (initial 1 Nat Nat) steps c ∧
    c.shared.reported = [7] ∧ c.shared.completions = [⟨.error 7,.value (),true⟩] ∧ BringsError steps := by
  obtain ⟨steps,c,run,sent⟩ := exists_run_of_follow (machine 1 Nat (none : Option Nat)) NoOuterStop (initial 1 Nat Nat)
    (fun _ l => staysCalm l) noOuterStop_of_calm
    (List.flatten [[(.call .start,0)],List.replicate 3 (.run .operation,0),
      [(.call (.setNext ⟨0,0⟩),0),(.call (.itemError ⟨0,0⟩ 7),0)],List.replicate 6 (.run (.item ⟨0,0⟩),0),
      [(.call (.childCompletes 0 (.value ())),0)],List.replicate 4 (.run (.child 0),0)])
    (fun _ c => c.shared.reported = [7] && c.shared.completions = [⟨.error 7,.value (),true⟩]) (by decide)
  simp only [Bool.and_eq_true,decide_eq_true_eq] at sent
  have outcome := (error_outcome run (by simp [sent.1])).2.2.2 ⟨.error 7,.value (),true⟩ (by simp [sent.2])
  exact ⟨steps,c,run,sent.1,sent.2,outcome.mp ⟨7,by simp [sent.1],rfl⟩⟩

/-- The same item fails, and the child answers the stop request with `set_stopped`:
    the error is stored and the outer receiver gets a value. -/
theorem stored_error_is_lost : ∃ c, Reach (machine 1 Nat none) NoOuterStop (initial 1 Nat Nat) c ∧
    c.shared.reported = [7] ∧ c.shared.errors = some 7 ∧ c.shared.completions = [⟨.value (),.stopped,true⟩] := by
  obtain ⟨c,reach,sent⟩ := exists_of_follow (machine 1 Nat (none : Option Nat)) NoOuterStop (initial 1 Nat Nat)
    (fun _ l => staysCalm l) noOuterStop_of_calm
    (List.flatten [[(.call .start,0)],List.replicate 3 (.run .operation,0),
      [(.call (.setNext ⟨0,0⟩),0),(.call (.itemError ⟨0,0⟩ 7),0)],List.replicate 6 (.run (.item ⟨0,0⟩),0),
      [(.call (.childCompletes 0 .stopped),0)],List.replicate 4 (.run (.child 0),0)])
    (fun c => c.shared.reported = [7] && c.shared.errors = some 7 &&
      c.shared.completions = [⟨.value (),.stopped,true⟩]) (by decide)
  simp only [Bool.and_eq_true,decide_eq_true_eq] at sent
  exact ⟨c,reach,sent.1.1,sent.1.2,sent.2⟩

end SendersIo.ZipOutcome
