import Mathlib.Logic.Function.Basic
import Mathlib.Algebra.Order.BigOperators.Group.Finset
import Mathlib.Algebra.Ring.Nat
import Mathlib.Data.Fintype.Card

/-!
Interleaved runs of parties that share a state. A party is whoever executes a
handler: a thread, an operation, a callback. What a party still has to do is a
list of instructions; one instruction is one atomic step. The environment calls
a handler of an idle party at any time, and a step of any party may come next
(`Reach`). A single thread runs handlers to completion instead, except that a
callout may call further handlers before it returns (`Nested`).
-/
namespace SendersIo.Interleaving
universe u

/-- A machine: what an instruction of a party does (one entry for every possible
    outcome, none where the behaviour is undefined or has to wait), and which
    events the environment may raise, with the handler that each of them runs. -/
structure Machine (Party State Instr Event : Type u) where
  exec : Party → Instr → State → List (State × List Instr)
  accept : Event → State → Option (State × List Instr)
  party : Event → Party

/-- The shared state and the instructions that every party has left. -/
structure Config (Party State Instr : Type u) where
  shared : State
  threads : Party → List Instr

/-- What may happen next: a party executes its next instruction, or the
    environment raises an event. -/
inductive Label (Party Event : Type u) where
  | run (p : Party)
  | call (e : Event)

variable {Party State Instr Event : Type u} [DecidableEq Party]

/-- The configuration after a party changed the shared state and what it has left. -/
def Config.put (c : Config Party State Instr) (p : Party) (s : State) (prog : List Instr) :
    Config Party State Instr :=
  ⟨s,Function.update c.threads p prog⟩

@[simp] theorem put_shared (c : Config Party State Instr) (p : Party) (s : State) (prog : List Instr) :
    (c.put p s prog).shared = s := rfl

@[simp] theorem put_threads_self (c : Config Party State Instr) (p : Party) (s : State) (prog : List Instr) :
    (c.put p s prog).threads p = prog := by
  simp [Config.put]

theorem put_threads_ne (c : Config Party State Instr) {p q : Party} (other : q ≠ p) (s : State) (prog : List Instr) :
    (c.put p s prog).threads q = c.threads q := by
  simp [Config.put,other]

theorem put_threads (c : Config Party State Instr) (p q : Party) (s : State) (prog : List Instr) :
    (c.put p s prog).threads q = if q = p then prog else c.threads q := by
  by_cases same : q = p
  · subst same; simp
  · simp [put_threads_ne c same,same]

/-- What a party has left after a step is new, or was left before. -/
theorem mem_of_mem_put {c : Config Party State Instr} {p q : Party} {i j : Instr} {rest new : List Instr} {s : State}
    (left : c.threads p = i :: rest) (member : j ∈ (c.put p s (new ++ rest)).threads q) :
    j ∈ new ∨ j ∈ c.threads q := by
  rw [put_threads] at member
  split at member
  · rename_i here
    subst here
    rw [left]
    exact (List.mem_append.mp member).imp_right (List.mem_cons_of_mem i)
  · exact .inr member

/-- A step leaves every instruction but the one it executes. -/
theorem mem_put_of_ne {c : Config Party State Instr} {p q : Party} {i j : Instr} {rest new : List Instr} {s : State}
    (left : c.threads p = i :: rest) (member : j ∈ c.threads q) (other : j ≠ i) :
    j ∈ (c.put p s (new ++ rest)).threads q := by
  rw [put_threads]
  split
  · rename_i here
    subst here
    rw [left] at member
    exact List.mem_append_right _ ((List.mem_cons.mp member).resolve_left other)
  · exact member

/-! ### What all parties have left -/

/-- The size of what the given parties have left, where `w` measures what one
    party has left. -/
def Config.total (c : Config Party State Instr) (parties : Finset Party) (w : List Instr → Nat) : Nat :=
  parties.sum fun p => w (c.threads p)

section
variable {c : Config Party State Instr} {parties : Finset Party} {p q : Party} {w v : List Instr → Nat}
  {s : State} {prog : List Instr}

theorem size_le_total (nothing : w [] = 0) (idle : ∀ q ∉ parties, c.threads q = []) (p : Party) :
    w (c.threads p) ≤ c.total parties w := by
  by_cases member : p ∈ parties
  · exact Finset.single_le_sum (f := fun q => w (c.threads q)) (fun _ _ => Nat.zero_le _) member
  · rw [idle p member,nothing]
    exact Nat.zero_le _

/-- Two parties have no more left than all of them. -/
theorem size_add_le_total (nothing : w [] = 0) (idle : ∀ q ∉ parties, c.threads q = []) (other : q ≠ p) :
    w (c.threads p) + w (c.threads q) ≤ c.total parties w := by
  have rest : w (c.threads q) ≤ c.total (parties.erase p) w := by
    by_cases member : q ∈ parties
    · exact Finset.single_le_sum (f := fun r => w (c.threads r)) (fun _ _ => Nat.zero_le _)
        (Finset.mem_erase.mpr ⟨other,member⟩)
    · rw [idle q member,nothing]
      exact Nat.zero_le _
  by_cases member : p ∈ parties
  · have whole := Finset.add_sum_erase parties (fun r => w (c.threads r)) member
    simp only [Config.total] at rest ⊢
    omega
  · rw [idle p member,nothing,Nat.zero_add]
    exact size_le_total nothing idle q

omit [DecidableEq Party] in
theorem total_zero (nothing : w [] = 0) (idle : ∀ q, c.threads q = []) : c.total parties w = 0 :=
  Finset.sum_eq_zero fun q _ => by rw [idle q,nothing]

/-- A step changes the total by what its party has left. -/
theorem total_put (p : Party) (s : State) (prog : List Instr) (nothing : w [] = 0) (idle : ∀ q ∉ parties, c.threads q = [])
    (stable : ∀ q, q ≠ p → v (c.threads q) = w (c.threads q)) :
    (c.put p s prog).total (insert p parties) v + w (c.threads p) = c.total parties w + v prog := by
  have others : ((insert p parties).erase p).sum (fun q => v ((c.put p s prog).threads q)) =
      ((insert p parties).erase p).sum fun q => w (c.threads q) :=
    Finset.sum_congr rfl fun q member => by
      have other := (Finset.mem_erase.mp member).1
      rw [put_threads_ne c other,stable q other]
  have after := Finset.add_sum_erase (insert p parties) (fun q => v ((c.put p s prog).threads q))
    (Finset.mem_insert_self p parties)
  have before := Finset.add_sum_erase (insert p parties) (fun q => w (c.threads q))
    (Finset.mem_insert_self p parties)
  have same : (insert p parties).sum (fun q => w (c.threads q)) = c.total parties w := by
    by_cases member : p ∈ parties
    · rw [Finset.insert_eq_of_mem member]
      rfl
    · rw [Finset.sum_insert member,idle p member,nothing,Nat.zero_add]
      rfl
  simp only [put_threads_self] at after
  rw [same] at before
  show (insert p parties).sum (fun q => v ((c.put p s prog).threads q)) + _ = _
  omega

/-- The rule of `total_put` for a step after which what every other party has left may weigh more. -/
theorem total_put_le {k : Nat} (p : Party) (s : State) (prog : List Instr) (nothing : w [] = 0)
    (idle : ∀ q ∉ parties, c.threads q = []) (others : ∀ q, q ≠ p → v (c.threads q) ≤ w (c.threads q) + k) :
    (c.put p s prog).total (insert p parties) v + w (c.threads p) ≤ c.total parties w + v prog + parties.card * k := by
  have least := total_put (v := w) p s prog nothing idle fun _ _ => rfl
  have heavier : (c.put p s prog).total ((insert p parties).erase p) v ≤
      (c.put p s prog).total ((insert p parties).erase p) w + ((insert p parties).erase p).card * k := by
    simp only [Config.total]
    rw [← Finset.sum_const_nat fun _ _ => rfl,← Finset.sum_add_distrib]
    refine Finset.sum_le_sum fun q member => ?_
    rw [put_threads_ne c (Finset.mem_erase.mp member).1]
    exact others q (Finset.mem_erase.mp member).1
  have fewer : ((insert p parties).erase p).card * k ≤ parties.card * k :=
    Nat.mul_le_mul_right k (Finset.card_le_card (Finset.erase_insert_subset p parties))
  have heavy := Finset.add_sum_erase (insert p parties) (fun q => v ((c.put p s prog).threads q))
    (Finset.mem_insert_self p parties)
  have light := Finset.add_sum_erase (insert p parties) (fun q => w ((c.put p s prog).threads q))
    (Finset.mem_insert_self p parties)
  simp only [put_threads_self] at heavy light
  simp only [Config.total] at heavier least ⊢
  omega

theorem idle_put (idle : ∀ q ∉ parties, c.threads q = []) :
    ∀ q ∉ insert p parties, (c.put p s prog).threads q = [] := by
  intro q out
  have other : q ≠ p := by
    rintro rfl
    exact out (Finset.mem_insert_self q parties)
  rw [put_threads_ne c other]
  exact idle q (fun member => out (Finset.mem_insert_of_mem member))

end

variable (M : Machine Party State Instr Event)

/-- Every configuration that a label leads to. -/
def Machine.next (c : Config Party State Instr) : Label Party Event → List (Config Party State Instr)
  | .run p =>
    match c.threads p with
    | [] => []
    | i :: rest => (M.exec p i c.shared).map fun out => c.put p out.1 (out.2 ++ rest)
  | .call e =>
    match c.threads (M.party e),M.accept e c.shared with
    | [],some out => [c.put (M.party e) out.1 out.2]
    | _,_ => []

theorem mem_next_run {c c' : Config Party State Instr} {p : Party} :
    c' ∈ M.next c (.run p) ↔ ∃ i rest s new,
      c.threads p = i :: rest ∧ (s,new) ∈ M.exec p i c.shared ∧ c' = c.put p s (new ++ rest) := by
  simp only [Machine.next]
  cases left : c.threads p with
  | nil => simp
  | cons i rest =>
    simp only [List.mem_map,Prod.exists]
    constructor
    · rintro ⟨s,new,ran,rfl⟩; exact ⟨i,rest,s,new,rfl,ran,rfl⟩
    · rintro ⟨i',rest',s,new,same,ran,rfl⟩
      obtain ⟨rfl,rfl⟩ := List.cons.inj same
      exact ⟨s,new,ran,rfl⟩

/-- A party can go on when its next instruction has an outcome. -/
theorem next_of_exec {c : Config Party State Instr} {p : Party} {i : Instr} {rest : List Instr}
    (left : c.threads p = i :: rest) (some : ∃ out, out ∈ M.exec p i c.shared) : ∃ c', c' ∈ M.next c (.run p) := by
  obtain ⟨⟨s,new⟩,ran⟩ := some
  exact ⟨_,(mem_next_run M).mpr ⟨i,rest,s,new,left,ran,rfl⟩⟩

theorem mem_next_call {c c' : Config Party State Instr} {e : Event} :
    c' ∈ M.next c (.call e) ↔ ∃ s prog,
      c.threads (M.party e) = [] ∧ M.accept e c.shared = some (s,prog) ∧ c' = c.put (M.party e) s prog := by
  simp only [Machine.next]
  cases left : c.threads (M.party e) with
  | nil =>
    cases accepted : M.accept e c.shared with
    | none => simp
    | some out => simp [Prod.ext_iff,and_assoc,eq_comm]
  | cons i rest => simp

/-- An event can be raised when its party is idle and the event is accepted. -/
theorem next_of_accept {c : Config Party State Instr} {e : Event} (idle : c.threads (M.party e) = [])
    (some : ∃ out, M.accept e c.shared = some out) : ∃ c', c' ∈ M.next c (.call e) := by
  obtain ⟨⟨s,prog⟩,accepted⟩ := some
  exact ⟨_,(mem_next_call M).mpr ⟨s,prog,idle,accepted,rfl⟩⟩

/-! ### Interleaved runs -/

/-- The configurations of the runs from `c₀` whose every step is allowed. -/
inductive Reach (allowed : Config Party State Instr → Label Party Event → Prop) (c₀ : Config Party State Instr) :
    Config Party State Instr → Prop
  | start : Reach allowed c₀ c₀
  | step {c c' : Config Party State Instr} {l : Label Party Event} :
      Reach allowed c₀ c → allowed c l → c' ∈ M.next c l → Reach allowed c₀ c'

/-- Any step is allowed. -/
def Any (_ : Config Party State Instr) (_ : Label Party Event) : Prop := True

variable {M}
variable {allowed : Config Party State Instr → Label Party Event → Prop} {c₀ c : Config Party State Instr}

theorem Reach.any (reach : Reach M allowed c₀ c) : Reach M Any c₀ c := by
  induction reach with
  | start => exact .start
  | step _ _ moved ih => exact .step ih trivial moved

theorem Reach.trans {c' : Config Party State Instr} (reach : Reach M allowed c₀ c) (later : Reach M allowed c c') :
    Reach M allowed c₀ c' := by
  induction later with
  | start => exact reach
  | step _ ok moved ih => exact .step ih ok moved

/-- What holds at the start and is kept by every instruction and every event
    holds in every reachable configuration. -/
theorem Reach.invariant {I : Config Party State Instr → Prop} (start : I c₀)
    (run : ∀ c p i rest s new, I c → allowed c (.run p) → c.threads p = i :: rest →
      (s,new) ∈ M.exec p i c.shared → I (c.put p s (new ++ rest)))
    (call : ∀ c e s prog, I c → allowed c (.call e) → c.threads (M.party e) = [] →
      M.accept e c.shared = some (s,prog) → I (c.put (M.party e) s prog))
    (reach : Reach M allowed c₀ c) : I c := by
  induction reach with
  | start => exact start
  | @step c c' l _ ok moved ih =>
    cases l with
    | run p =>
      obtain ⟨i,rest,s,new,left,ran,rfl⟩ := (mem_next_run M).mp moved
      exact run c p i rest s new ih ok left ran
    | call e =>
      obtain ⟨s,prog,idle,accepted,rfl⟩ := (mem_next_call M).mp moved
      exact call c e s prog ih ok idle accepted

/-- A property of the shared state that every instruction and every event keeps. -/
theorem Reach.shared_invariant {I : State → Prop} (start : I c₀.shared)
    (run : ∀ p i s s' new, I s → (s',new) ∈ M.exec p i s → I s')
    (call : ∀ e s s' prog, I s → M.accept e s = some (s',prog) → I s')
    (reach : Reach M allowed c₀ c) : I c.shared :=
  reach.invariant (I := fun c => I c.shared) start
    (fun c p i _ s new holds _ _ ran => run p i c.shared s new holds ran)
    (fun c e s prog holds _ _ accepted => call e c.shared s prog holds accepted)

/-! ### Runs with their steps -/

variable (M) in
/-- The runs from `c₀` whose every step is allowed: the steps taken, each with the
    configuration before it, and the configuration they lead to. -/
inductive Run (allowed : Config Party State Instr → Label Party Event → Prop) (c₀ : Config Party State Instr) :
    List (Config Party State Instr × Label Party Event) → Config Party State Instr → Prop
  | start : Run allowed c₀ [] c₀
  | step {steps : List (Config Party State Instr × Label Party Event)} {c c' : Config Party State Instr}
      {l : Label Party Event} :
      Run allowed c₀ steps c → allowed c l → c' ∈ M.next c l → Run allowed c₀ (steps ++ [(c,l)]) c'

variable {steps : List (Config Party State Instr × Label Party Event)}

theorem Run.reach (run : Run M allowed c₀ steps c) : Reach M allowed c₀ c := by
  induction run with
  | start => exact .start
  | step _ ok moved ih => exact .step ih ok moved

/-- The rule of `Reach.invariant` for a property that also speaks about the steps taken. -/
theorem Run.invariant {I : List (Config Party State Instr × Label Party Event) → Config Party State Instr → Prop}
    (start : I [] c₀)
    (instruction : ∀ steps c p i rest s new, Reach M allowed c₀ c → I steps c → allowed c (.run p) →
      c.threads p = i :: rest → (s,new) ∈ M.exec p i c.shared →
      I (steps ++ [(c,.run p)]) (c.put p s (new ++ rest)))
    (call : ∀ steps c e s prog, Reach M allowed c₀ c → I steps c → allowed c (.call e) →
      c.threads (M.party e) = [] → M.accept e c.shared = some (s,prog) →
      I (steps ++ [(c,.call e)]) (c.put (M.party e) s prog))
    (run : Run M allowed c₀ steps c) : I steps c := by
  induction run with
  | start => exact start
  | @step steps c c' l before ok moved ih =>
    cases l with
    | run p =>
      obtain ⟨i,rest,s,new,left,ran,rfl⟩ := (mem_next_run M).mp moved
      exact instruction steps c p i rest s new before.reach ih ok left ran
    | call e =>
      obtain ⟨s,prog,idle,accepted,rfl⟩ := (mem_next_call M).mp moved
      exact call steps c e s prog before.reach ih ok idle accepted

theorem exists_mem_append_singleton {α : Type u} {P : α → Prop} {l : List α} {x : α} :
    (∃ y ∈ l ++ [x], P y) ↔ (∃ y ∈ l, P y) ∨ P x := by
  simp only [List.mem_append,List.mem_singleton,or_and_right,exists_or,exists_eq_left]

theorem append_singleton_eq {α : Type u} {l before after : List α} {x y : α} :
    l ++ [x] = before ++ y :: after ↔
      (before = l ∧ y = x ∧ after = []) ∨ ∃ more, after = more ++ [x] ∧ l = before ++ y :: more := by
  constructor
  · intro split
    rcases List.eq_nil_or_concat after with rfl | ⟨more,last,rfl⟩
    · obtain ⟨rfl,same⟩ := List.append_inj' split rfl
      exact .inl ⟨rfl,(List.singleton_inj.mp same).symm,rfl⟩
    · rw [List.concat_eq_append,← List.cons_append,← List.append_assoc] at split
      obtain ⟨rfl,same⟩ := List.append_inj' split rfl
      exact .inr ⟨more,by rw [List.concat_eq_append,List.singleton_inj.mp same],rfl⟩
  · rintro (⟨rfl,rfl,rfl⟩ | ⟨more,rfl,rfl⟩)
    · rfl
    · simp

/-- The steps before a step of a run are a run to the configuration that it starts from. -/
theorem Run.before (run : Run M allowed c₀ steps c) {before after : List (Config Party State Instr × Label Party Event)}
    {step : Config Party State Instr × Label Party Event} (split : steps = before ++ step :: after) :
    Run M allowed c₀ before step.1 := by
  induction run generalizing after with
  | start => simp at split
  | @step steps c c' l earlier ok moved ih =>
    rcases append_singleton_eq.mp split with ⟨rfl,rfl,_⟩ | ⟨more,_,rfl⟩
    · exact earlier
    · exact ih rfl

/-- A run takes no more steps than its calls bring with them, if every instruction
    weighs more than what it leaves to do. -/
theorem Run.length_le (budget : State → Nat) (weight : Instr → Nat) (start : ∀ p, c₀.threads p = [])
    (ran_less : ∀ p i s s' new, (s',new) ∈ M.exec p i s → (new.map weight).sum + budget s < weight i + budget s')
    (called_less : ∀ e s s' prog, M.accept e s = some (s',prog) → (prog.map weight).sum + budget s < budget s')
    (run : Run M allowed c₀ steps c) : steps.length ≤ budget c.shared := by
  suffices bounded : ∃ parties : Finset Party, (∀ q ∉ parties, c.threads q = []) ∧
      steps.length + c.total parties (fun prog => (prog.map weight).sum) ≤ budget c.shared by
    obtain ⟨_,_,fits⟩ := bounded
    exact (Nat.le_add_right _ _).trans fits
  refine run.invariant (I := fun steps c => ∃ parties : Finset Party, (∀ q ∉ parties, c.threads q = []) ∧
    steps.length + c.total parties (fun prog => (prog.map weight).sum) ≤ budget c.shared) ?_ ?_ ?_
  · exact ⟨∅,fun q _ => start q,by simp [Config.total]⟩
  · rintro steps c p i rest s new _ ⟨parties,idle,fits⟩ _ left ran
    have less := ran_less p i c.shared s new ran
    have total := total_put (w := fun prog => (prog.map weight).sum) (v := fun prog => (prog.map weight).sum) p s
      (new ++ rest) rfl idle (fun _ _ => rfl)
    simp only [left,List.map_append,List.sum_append,List.map_cons,List.sum_cons] at total
    refine ⟨insert p parties,idle_put idle,?_⟩
    simp only [List.length_append,List.length_singleton,put_shared]
    omega
  · rintro steps c e s prog _ ⟨parties,idle,fits⟩ _ quiet accepted
    have less := called_less e c.shared s prog accepted
    have total := total_put (w := fun prog => (prog.map weight).sum) (v := fun prog => (prog.map weight).sum)
      (M.party e) s prog rfl idle (fun _ _ => rfl)
    simp only [quiet,List.map_nil,List.sum_nil] at total
    refine ⟨insert (M.party e) parties,idle_put idle,?_⟩
    simp only [List.length_append,List.length_singleton,put_shared]
    omega

/-- The instruction that a step of a run executes. -/
def executed (step : Config Party State Instr × Label Party Event) : Option Instr :=
  match step.2 with
  | .run p => (step.1.threads p).head?
  | .call _ => none

omit [DecidableEq Party] in
theorem executed_run {c : Config Party State Instr} {p : Party} {i : Instr} {rest : List Instr}
    (left : c.threads p = i :: rest) : executed ((c,.run p) : _ × Label Party Event) = some i := by
  simp [executed,left]

omit [DecidableEq Party] in
@[simp] theorem executed_call (c : Config Party State Instr) (e : Event) :
    executed ((c,.call e) : _ × Label Party Event) = none := rfl

/-! ### Runs that are computed -/

variable (M) in
/-- The configuration after the given labels, each with the index of the outcome
    taken, as long as every step is one that `ok` accepts. -/
def follow (ok : Config Party State Instr → Label Party Event → Bool) :
    List (Label Party Event × Nat) → Config Party State Instr → Option (Config Party State Instr)
  | [],c => some c
  | (l,k) :: rest,c =>
    match (M.next c l)[k]? with
    | some c' => if ok c l then follow ok rest c' else none
    | none => none

theorem reach_of_follow {ok : Config Party State Instr → Label Party Event → Bool}
    (sound : ∀ c l, ok c l = true → allowed c l) {trace : List (Label Party Event × Nat)}
    {c c' : Config Party State Instr} (reach : Reach M allowed c₀ c) (followed : follow M ok trace c = some c') :
    Reach M allowed c₀ c' := by
  induction trace generalizing c with
  | nil => cases followed; exact reach
  | cons head rest ih =>
    obtain ⟨l,k⟩ := head
    simp only [follow] at followed
    cases at_k : (M.next c l)[k]? with
    | none => simp [at_k] at followed
    | some d =>
      simp only [at_k] at followed
      split at followed
      next accepted => exact ih (.step reach (sound c l accepted) (List.mem_of_getElem? at_k)) followed
      next => cases followed

/-- A computed run that ends in a configuration with a property shows that such
    a configuration is reachable. -/
theorem exists_of_follow (M : Machine Party State Instr Event)
    (allowed : Config Party State Instr → Label Party Event → Prop) (c₀ : Config Party State Instr)
    (ok : Config Party State Instr → Label Party Event → Bool) (sound : ∀ c l, ok c l = true → allowed c l)
    (trace : List (Label Party Event × Nat)) (P : Config Party State Instr → Bool)
    (computed : (follow M ok trace c₀).any P = true) : ∃ c, Reach M allowed c₀ c ∧ P c = true := by
  obtain ⟨c,followed,holds⟩ := (Option.any_eq_true _ _).mp computed
  exact ⟨c,reach_of_follow sound .start followed,holds⟩

variable (M) in
/-- The steps that `follow` takes. -/
def followed : List (Label Party Event × Nat) → Config Party State Instr →
    List (Config Party State Instr × Label Party Event)
  | [],_ => []
  | (l,k) :: rest,c =>
    match (M.next c l)[k]? with
    | some c' => (c,l) :: followed rest c'
    | none => []

/-- A computed run is a run, and it keeps what each of its steps keeps. -/
theorem run_of_follow {I : Config Party State Instr → Prop} {ok : Config Party State Instr → Label Party Event → Bool}
    (sound : ∀ c l, I c → ok c l = true → allowed c l) {trace : List (Label Party Event × Nat)}
    (keeps : ∀ step ∈ trace, ∀ c c', I c → c' ∈ M.next c step.1 → I c') {c c' : Config Party State Instr}
    (holds : I c) (run : Run M allowed c₀ steps c) (reached : follow M ok trace c = some c') :
    Run M allowed c₀ (steps ++ followed M trace c) c' ∧ I c' := by
  induction trace generalizing c steps with
  | nil => cases reached; simpa [followed] using ⟨run,holds⟩
  | cons head rest ih =>
    obtain ⟨l,k⟩ := head
    simp only [follow] at reached
    cases at_k : (M.next c l)[k]? with
    | none => simp [at_k] at reached
    | some d =>
      simp only [at_k] at reached
      split at reached
      next accepted =>
        have moved := List.mem_of_getElem? at_k
        have := ih (fun step member => keeps step (List.mem_cons_of_mem _ member))
          (keeps _ List.mem_cons_self c d holds moved) (.step run (sound c l holds accepted) moved) reached
        simpa [followed,at_k] using this
      next => cases reached

/-- The rule of `exists_of_follow` for a property of the steps and the configuration. -/
theorem exists_run_of_follow (M : Machine Party State Instr Event)
    (allowed : Config Party State Instr → Label Party Event → Prop) (c₀ : Config Party State Instr)
    (ok : Config Party State Instr → Label Party Event → Bool) (sound : ∀ c l, ok c l = true → allowed c l)
    (trace : List (Label Party Event × Nat))
    (P : List (Config Party State Instr × Label Party Event) → Config Party State Instr → Bool)
    (computed : (follow M ok trace c₀).any (P (followed M trace c₀)) = true) :
    ∃ steps c, Run M allowed c₀ steps c ∧ P steps c = true := by
  obtain ⟨c,reached,holds⟩ := (Option.any_eq_true _ _).mp computed
  have run := run_of_follow (I := fun _ => True) (fun c l _ => sound c l) (fun _ _ _ _ _ _ => trivial) trivial .start
    reached
  exact ⟨_,c,run.1,by simpa using holds⟩

/-- The party of a label. -/
def Machine.actor (M : Machine Party State Instr Event) : Label Party Event → Party
  | .run p => p
  | .call e => M.party e

theorem idle_of_next {among : List Party} {l : Label Party Event} (actor : M.actor l ∈ among)
    {c c' : Config Party State Instr} (idle : ∀ q ∉ among, c.threads q = []) (moved : c' ∈ M.next c l) :
    ∀ q ∉ among, c'.threads q = [] := by
  intro q out
  have other : q ≠ M.actor l := by
    rintro rfl
    exact out actor
  cases l with
  | run p =>
    obtain ⟨i,after,s,new,_,_,rfl⟩ := (mem_next_run M).mp moved
    rw [put_threads_ne c (p := p) other]
    exact idle q out
  | call e =>
    obtain ⟨s,prog,_,_,rfl⟩ := (mem_next_call M).mp moved
    rw [put_threads_ne c (p := M.party e) other]
    exact idle q out

/-- The rule of `exists_run_of_follow` for a run of the given parties: a step is
    judged, and the last configuration described, knowing that the others are idle. -/
theorem exists_run_among (M : Machine Party State Instr Event)
    (allowed : Config Party State Instr → Label Party Event → Prop) (c₀ : Config Party State Instr)
    (among : List Party) (ok : Config Party State Instr → Label Party Event → Bool)
    (sound : ∀ c l, (∀ q ∉ among, c.threads q = []) → ok c l = true → allowed c l)
    (trace : List (Label Party Event × Nat)) (start : ∀ q, c₀.threads q = [])
    (actors : ∀ step ∈ trace, M.actor step.1 ∈ among)
    (P : List (Config Party State Instr × Label Party Event) → Config Party State Instr → Bool)
    (computed : (follow M ok trace c₀).any (P (followed M trace c₀)) = true) :
    ∃ steps c, Run M allowed c₀ steps c ∧ (∀ q ∉ among, c.threads q = []) ∧ P steps c = true := by
  obtain ⟨c,reached,holds⟩ := (Option.any_eq_true _ _).mp computed
  have run := run_of_follow sound (fun step member _ _ idle moved => idle_of_next (actors step member) idle moved)
    (fun q _ => start q) .start reached
  exact ⟨_,c,run.1,run.2,by simpa using holds⟩

/-! ### Runs of a single thread -/

/-- Control is outside of the handlers: no handler is active, or the innermost
    one is at an instruction that stands for code it has called. -/
def Outside (callout : Instr → Bool) (c : Config Party State Instr) : List Party → Prop
  | [] => True
  | p :: _ => ∃ i rest, c.threads p = i :: rest ∧ callout i = true

variable (M) in
/-- The configurations of a single thread with the stack of its active handlers.
    Only the innermost handler executes; the environment calls a handler only
    while control is outside of the handlers. -/
inductive Nested (callout : Instr → Bool) (allowed : Config Party State Instr → Label Party Event → Prop)
    (c₀ : Config Party State Instr) : Config Party State Instr → List Party → Prop
  | start : Nested callout allowed c₀ c₀ []
  | run {c c' : Config Party State Instr} {p : Party} {below : List Party} :
      Nested callout allowed c₀ c (p :: below) → allowed c (.run p) → c' ∈ M.next c (.run p) →
      Nested callout allowed c₀ c' (p :: below)
  | finish {c : Config Party State Instr} {p : Party} {below : List Party} :
      Nested callout allowed c₀ c (p :: below) → c.threads p = [] → Nested callout allowed c₀ c below
  | call {c c' : Config Party State Instr} {e : Event} {stack : List Party} :
      Nested callout allowed c₀ c stack → Outside callout c stack → allowed c (.call e) →
      c' ∈ M.next c (.call e) → Nested callout allowed c₀ c' (M.party e :: stack)

variable {callout : Instr → Bool} {stack : List Party}

/-- A single thread's run is one of the interleaved runs. -/
theorem Nested.reach (nested : Nested M callout allowed c₀ c stack) : Reach M allowed c₀ c := by
  induction nested with
  | start => exact .start
  | run _ ok moved ih => exact .step ih ok moved
  | finish _ _ ih => exact ih
  | call _ _ ok moved ih => exact .step ih ok moved

/-- The environment calls the handler of an event. -/
theorem Nested.enter {p : Party} {s : State} {prog : List Instr} (nested : Nested M callout allowed c₀ c stack)
    (out : Outside callout c stack) (e : Event) (ok : allowed c (.call e))
    (party : M.party e = p) (idle : c.threads p = []) (accepted : M.accept e c.shared = some (s,prog)) :
    Nested M callout allowed c₀ (c.put p s prog) (p :: stack) := by
  subst party
  exact .call nested out ok ((mem_next_call M).mpr ⟨s,prog,idle,accepted,rfl⟩)

/-- The rule of `Reach.invariant` for a single thread and its stack. -/
theorem Nested.invariant {I : Config Party State Instr → List Party → Prop} (start : I c₀ [])
    (run : ∀ c p below i rest s new, I c (p :: below) → allowed c (.run p) → c.threads p = i :: rest →
      (s,new) ∈ M.exec p i c.shared → I (c.put p s (new ++ rest)) (p :: below))
    (finish : ∀ c p below, I c (p :: below) → c.threads p = [] → I c below)
    (call : ∀ c e stack s prog, I c stack → Outside callout c stack → allowed c (.call e) →
      c.threads (M.party e) = [] → M.accept e c.shared = some (s,prog) →
      I (c.put (M.party e) s prog) (M.party e :: stack))
    (nested : Nested M callout allowed c₀ c stack) : I c stack := by
  induction nested with
  | start => exact start
  | run _ ok moved ih =>
    obtain ⟨i,rest,s,new,left,ran,rfl⟩ := (mem_next_run M).mp moved
    exact run _ _ _ i rest s new ih ok left ran
  | finish _ idle ih => exact finish _ _ _ ih idle
  | call _ out ok moved ih =>
    obtain ⟨s,prog,idle,accepted,rfl⟩ := (mem_next_call M).mp moved
    exact call _ _ _ s prog ih out ok idle accepted

/-- A party without an active handler has nothing left. -/
theorem Nested.idle (start : ∀ p, c₀.threads p = []) (nested : Nested M callout allowed c₀ c stack) :
    ∀ p ∉ stack, c.threads p = [] := by
  induction nested with
  | start => exact fun p _ => start p
  | @run c c' q below _ _ moved ih =>
    obtain ⟨i,rest,s,new,_,_,rfl⟩ := (mem_next_run M).mp moved
    intro p out
    have other : p ≠ q := by
      rintro rfl
      exact out List.mem_cons_self
    rw [put_threads_ne c other]
    exact ih p out
  | @finish c q below _ done ih =>
    intro p out
    by_cases same : p = q
    · rw [same]
      exact done
    · exact ih p fun member => (List.mem_cons.mp member).elim same out
  | @call c c' e stack _ _ _ moved ih =>
    obtain ⟨s,prog,_,_,rfl⟩ := (mem_next_call M).mp moved
    intro p out
    have other : p ≠ M.party e := by
      rintro rfl
      exact out List.mem_cons_self
    rw [put_threads_ne c other]
    exact ih p fun member => out (List.mem_cons_of_mem _ member)

/-- The handlers that are not the innermost one are in code that they have called. -/
theorem Nested.suspended (nested : Nested M callout allowed c₀ c stack) :
    stack.Nodup ∧ ∀ p ∈ stack.tail, ∃ i rest, c.threads p = i :: rest ∧ callout i = true := by
  induction nested with
  | start => exact ⟨.nil,nofun⟩
  | @run c c' q below _ _ moved ih =>
    obtain ⟨i,rest,s,new,_,_,rfl⟩ := (mem_next_run M).mp moved
    refine ⟨ih.1,fun p member => ?_⟩
    have other : p ≠ q := by
      rintro rfl
      exact (List.nodup_cons.mp ih.1).1 member
    rw [put_threads_ne c other]
    exact ih.2 p member
  | finish _ _ ih => exact ⟨(List.nodup_cons.mp ih.1).2,fun p member => ih.2 p (List.mem_of_mem_tail member)⟩
  | @call c c' e stack _ out _ moved ih =>
    obtain ⟨s,prog,idle,_,rfl⟩ := (mem_next_call M).mp moved
    have busy : ∀ p ∈ stack, ∃ i rest, c.threads p = i :: rest ∧ callout i = true := by
      intro p member
      cases stack with
      | nil => cases member
      | cons q below =>
        rcases List.mem_cons.mp member with rfl | later
        · exact out
        · exact ih.2 p later
    have other : ∀ p ∈ stack, p ≠ M.party e := by
      rintro p member rfl
      obtain ⟨i,rest,left,_⟩ := busy _ member
      simp [idle] at left
    refine ⟨List.nodup_cons.mpr ⟨fun member => other _ member rfl,ih.1⟩,fun p member => ?_⟩
    rw [put_threads_ne c (other p member)]
    exact busy p member

/-- While control is outside of the handlers, all of them are in code that they have called. -/
theorem Nested.called (nested : Nested M callout allowed c₀ c stack) (out : Outside callout c stack) :
    ∀ p ∈ stack, ∃ i rest, c.threads p = i :: rest ∧ callout i = true := by
  intro p member
  cases stack with
  | nil => cases member
  | cons q below =>
    rcases List.mem_cons.mp member with rfl | later
    · exact out
    · exact nested.suspended.2 p later

/-- Only the innermost handler can be at an instruction of its own. -/
theorem Nested.innermost {p : Party} {i : Instr} {rest : List Instr} (start : ∀ p, c₀.threads p = [])
    (nested : Nested M callout allowed c₀ c stack) (left : c.threads p = i :: rest) (own : callout i = false) :
    ∃ below, stack = p :: below := by
  have active : p ∈ stack := by
    by_contra out
    simp [nested.idle start p out] at left
  cases stack with
  | nil => cases active
  | cons q below =>
    rcases List.mem_cons.mp active with rfl | later
    · exact ⟨below,rfl⟩
    · obtain ⟨j,rest',same,called⟩ := nested.suspended.2 p later
      obtain ⟨rfl,rfl⟩ := List.cons.inj (left.symm.trans same)
      simp [own] at called

/-! ### Runs of a single thread that end -/

variable (M) in
/-- One move of a single thread. -/
inductive Advance (callout : Instr → Bool) (allowed : Config Party State Instr → Label Party Event → Prop) :
    Config Party State Instr × List Party → Config Party State Instr × List Party → Prop
  | run {c c' : Config Party State Instr} {p : Party} {below : List Party} :
      allowed c (.run p) → c' ∈ M.next c (.run p) → Advance callout allowed (c,p :: below) (c',p :: below)
  | finish {c : Config Party State Instr} {p : Party} {below : List Party} :
      c.threads p = [] → Advance callout allowed (c,p :: below) (c,below)
  | call {c c' : Config Party State Instr} {e : Event} {stack : List Party} :
      Outside callout c stack → allowed c (.call e) → c' ∈ M.next c (.call e) →
      Advance callout allowed (c,stack) (c',M.party e :: stack)

theorem Nested.advance {now later : Config Party State Instr × List Party}
    (nested : Nested M callout allowed c₀ now.1 now.2) (move : Advance M callout allowed now later) :
    Nested M callout allowed c₀ later.1 later.2 := by
  cases move with
  | run ok moved => exact .run nested ok moved
  | finish idle => exact .finish nested idle
  | call out ok moved => exact .call nested out ok moved

/-- No run of a single thread goes on for ever if every move makes a measure smaller. -/
theorem no_endless_run (measure : Config Party State Instr × List Party → Nat)
    (lowers : ∀ now later, Nested M callout allowed c₀ now.1 now.2 → Advance M callout allowed now later →
      measure later < measure now) :
    ¬ ∃ f : Nat → Config Party State Instr × List Party,
      f 0 = (c₀,[]) ∧ ∀ k, Advance M callout allowed (f k) (f (k + 1)) := by
  rintro ⟨f,start,moves⟩
  have nested : ∀ k, Nested M callout allowed c₀ (f k).1 (f k).2 := by
    intro k
    induction k with
    | zero =>
      rw [start]
      exact .start
    | succ k ih => exact ih.advance (moves k)
  have smaller : ∀ k, measure (f k) + k ≤ measure (f 0) := by
    intro k
    induction k with
    | zero => exact Nat.le_refl _
    | succ k ih =>
      have := lowers _ _ (nested k) (moves k)
      omega
  have := smaller (measure (f 0) + 1)
  omega

/-- The moves that are still to come, if every instruction of an active handler stands for
    as many as it weighs: those, the returns of the handlers, and what the shared state
    still allows for. -/
def effort (potential : State → Nat) (weight : Instr → Nat) (now : Config Party State Instr × List Party) : Nat :=
  potential now.1.shared + (now.2.map fun p => ((now.1.threads p).map weight).sum + 1).sum

/-- No run of a single thread goes on for ever if every instruction weighs more than what
    it leaves to do, and every call brings less than it takes. -/
theorem no_endless_run_of_effort (potential : State → Nat) (weight : Instr → Nat)
    (run : ∀ c p below i rest s new, Nested M callout allowed c₀ c (p :: below) → c.threads p = i :: rest →
      (s,new) ∈ M.exec p i c.shared → potential s + (new.map weight).sum < potential c.shared + weight i)
    (call : ∀ c stack e s prog, Nested M callout allowed c₀ c stack → Outside callout c stack → allowed c (.call e) →
      M.accept e c.shared = some (s,prog) → potential s + (prog.map weight).sum + 1 < potential c.shared) :
    ¬ ∃ f : Nat → Config Party State Instr × List Party,
      f 0 = (c₀,[]) ∧ ∀ k, Advance M callout allowed (f k) (f (k + 1)) := by
  refine no_endless_run (effort potential weight) ?_
  have others : ∀ (c : Config Party State Instr) (p : Party) (s : State) (prog : List Instr) (l : List Party), p ∉ l →
      (l.map fun q => (((c.put p s prog).threads q).map weight).sum + 1) =
        l.map fun q => ((c.threads q).map weight).sum + 1 := by
    refine fun c p s prog l out => List.map_congr_left fun q member => ?_
    rw [put_threads_ne c]
    rintro rfl
    exact out member
  intro now later nested move
  cases move with
  | @run c c' p below _ moved =>
    obtain ⟨i,rest,s,new,left,ran,rfl⟩ := (mem_next_run M).mp moved
    have less := run c p below i rest s new nested left ran
    simp only [effort,List.map_cons,List.sum_cons,others c p s (new ++ rest) below (List.nodup_cons.mp nested.suspended.1).1,
      put_shared,put_threads_self,left,List.map_append,List.sum_append]
    omega
  | finish idle =>
    simp only [effort,List.map_cons,List.sum_cons,idle,List.map_nil,List.sum_nil]
    omega
  | @call c c' e stack out ok moved =>
    obtain ⟨s,prog,idle,accepted,rfl⟩ := (mem_next_call M).mp moved
    have less := call c stack e s prog nested out ok accepted
    have fresh := (List.nodup_cons.mp (Nested.call nested out ok moved).suspended.1).1
    simp only [effort,List.map_cons,List.sum_cons,others c (M.party e) s prog stack fresh,put_shared,put_threads_self]
    omega

/-- A step of a single thread: the innermost handler takes an outcome of its next
    instruction, or returns, or the environment calls a handler. -/
inductive Move (Event : Type u) where
  | run (k : Nat)
  | finish
  | call (e : Event) (k : Nat)

variable (M) in
/-- The configuration and the stack after the given moves. -/
def followNested (callout : Instr → Bool) (ok : Config Party State Instr → Label Party Event → Bool) :
    List (Move Event) → Config Party State Instr → List Party → Option (Config Party State Instr × List Party)
  | [],c,stack => some (c,stack)
  | .run k :: rest,c,p :: below =>
    match (M.next c (.run p))[k]? with
    | some c' => if ok c (.run p) then followNested callout ok rest c' (p :: below) else none
    | none => none
  | .finish :: rest,c,p :: below => if (c.threads p).isEmpty then followNested callout ok rest c below else none
  | .call e k :: rest,c,stack =>
    if (stack.head?.all fun p => (c.threads p).head?.any callout) && ok c (.call e) then
      match (M.next c (.call e))[k]? with
      | some c' => followNested callout ok rest c' (M.party e :: stack)
      | none => none
    else none
  | _ :: _,_,[] => none

theorem nested_of_follow {ok : Config Party State Instr → Label Party Event → Bool}
    (sound : ∀ c l, ok c l = true → allowed c l) {moves : List (Move Event)}
    {c : Config Party State Instr} {stack : List Party} {final : Config Party State Instr × List Party}
    (nested : Nested M callout allowed c₀ c stack) (followed : followNested M callout ok moves c stack = some final) :
    Nested M callout allowed c₀ final.1 final.2 := by
  induction moves generalizing c stack with
  | nil => simp only [followNested] at followed; cases followed; exact nested
  | cons move rest ih =>
    cases move with
    | run k =>
      cases stack with
      | nil => simp [followNested] at followed
      | cons p below =>
        simp only [followNested] at followed
        cases at_k : (M.next c (.run p))[k]? with
        | none => simp [at_k] at followed
        | some d =>
          simp only [at_k] at followed
          split at followed
          next accepted => exact ih (.run nested (sound c _ accepted) (List.mem_of_getElem? at_k)) followed
          next => cases followed
    | finish =>
      cases stack with
      | nil => simp [followNested] at followed
      | cons p below =>
        simp only [followNested] at followed
        split at followed
        next idle => exact ih (.finish nested (List.isEmpty_iff.mp idle)) followed
        next => cases followed
    | call e k =>
      simp only [followNested] at followed
      split at followed
      next accepted =>
        obtain ⟨outside,may⟩ := Bool.and_eq_true_iff.mp accepted
        have out : Outside callout c stack := by
          cases stack with
          | nil => trivial
          | cons p below =>
            simp only [List.head?_cons,Option.all_some] at outside
            cases left : c.threads p with
            | nil => simp [left] at outside
            | cons i rest => exact ⟨i,rest,left,by simpa [left] using outside⟩
        cases at_k : (M.next c (.call e))[k]? with
        | none => simp [at_k] at followed
        | some d =>
          simp only [at_k] at followed
          exact ih (.call nested out (sound c _ may) (List.mem_of_getElem? at_k)) followed
      next => cases followed

/-- The rule of `exists_of_follow` for a single thread. -/
theorem exists_of_followNested (M : Machine Party State Instr Event) (callout : Instr → Bool)
    (allowed : Config Party State Instr → Label Party Event → Prop) (c₀ : Config Party State Instr)
    (ok : Config Party State Instr → Label Party Event → Bool) (sound : ∀ c l, ok c l = true → allowed c l)
    (moves : List (Move Event)) (P : Config Party State Instr → List Party → Bool)
    (computed : (followNested M callout ok moves c₀ []).any (fun final => P final.1 final.2) = true) :
    ∃ c stack, Nested M callout allowed c₀ c stack ∧ P c stack = true := by
  obtain ⟨final,followed,holds⟩ := (Option.any_eq_true _ _).mp computed
  exact ⟨final.1,final.2,nested_of_follow sound .start followed,holds⟩

/-! ### Counters that every party decrements once -/

section
variable {n : Nat} {l : List (Fin n)}

/-- Before a party has decremented the counter, not all of them have. -/
theorem length_of_not_mem {i : Fin n} (distinct : l.Nodup) (absent : i ∉ l) : l.length < n := by
  have := (List.nodup_cons.mpr ⟨absent,distinct⟩).length_le_card
  simp only [List.length_cons,Fintype.card_fin] at this
  omega

theorem mem_of_length (distinct : l.Nodup) (all : l.length = n) (i : Fin n) : i ∈ l := by
  by_contra absent
  have := length_of_not_mem distinct absent
  omega

theorem length_of_mem (distinct : l.Nodup) (all : ∀ i, i ∈ l) : l.length = n := by
  have full := List.toFinset_card_of_nodup distinct
  rw [show l.toFinset = Finset.univ from Finset.eq_univ_iff_forall.mpr (by simpa using all)] at full
  simpa using full.symm

end

end SendersIo.Interleaving
