import SendersIo.AsyncMutex

/-!
What the asynchronous mutex guarantees to those who wait. The order of completions grows at its end
only: once operations have been popped, nobody who was not is completed before them. No `start`
ever waits for another one, and together they take a number of steps that is bounded by the
number of operations: whoever looks at the queue again and finds it empty has been paid for by
the operation that somebody else has taken from it.
-/
namespace SendersIo.MutexProgress
open SendersIo.Interleaving SendersIo.AsyncMutex

variable {Op : Type} [DecidableEq Op] {c c' : Config Op (Base Op) (Instr Op)} {h h' : Option Op} {x : Op}
  {s : Base Op} {i : Instr Op} {new rest : List (Instr Op)} {ops : List Op}

/-! ### The order of completions -/

/-- The operations that have been completed, or popped to be completed next, in this order. -/
def settled (c : Config Op (Base Op) (Instr Op)) (h : Option Op) : List Op := c.shared.completed ++ popped c h

omit [DecidableEq Op] in
theorem free_pendingOf {prog : List (Instr Op)} (free : Free prog) : pendingOf prog = none := by
  cases free <;> rfl

/-- Whoever has popped operations holds the flag. -/
theorem popped_of_holding (ops : List Op) (held : Held c h) (holding : pendingOf (c.threads x) = some ops) : popped c h = ops := by
  have this : h = some x := by
    by_contra other
    simp [free_pendingOf (held.others x other)] at holding
  subst this
  rw [popped,holding]
  rfl

/-- A party that does not hold the flag completes nothing. -/
theorem free_settled (held : Held c h) (held' : Held (c.put x s (new ++ rest)) h') (other : h ≠ some x)
    (left : c.threads x = i :: rest) (ran : (s,new) ∈ exec x i c.shared) :
    settled c h <+: settled (c.put x s (new ++ rest)) h' := by
  have kept : s.completed = c.shared.completed := by
    have free := held.others x other
    rw [left] at free
    cases free with
    | begun => rw [(Prod.mk.inj (List.mem_singleton.mp ran)).1]
    | checking => rw [(Prod.mk.inj (List.mem_singleton.mp ran)).1]
    | trying =>
      simp only [exec] at ran
      split at ran <;> rw [(Prod.mk.inj (List.mem_singleton.mp ran)).1]
  rw [settled,settled,put_shared,kept]
  refine (List.prefix_append_right_inj _).mpr ?_
  cases h with
  | none => exact List.nil_prefix
  | some y =>
    have different : y ≠ x := fun same => other (congrArg some same)
    obtain ⟨ops,holding⟩ := Option.isSome_iff_exists.mp (held.holder y rfl)
    rw [popped_of_holding ops held holding,popped_of_holding ops held' (x := y) (by rwa [put_threads_ne c different])]

/-- The holder of the flag completes what it has popped in order, and pops again only when it has
    completed all of it. -/
theorem holding_settled (held : Held c (some x)) (held' : Held (c.put x s (new ++ rest)) h')
    (left : c.threads x = i :: rest) (ran : (s,new) ∈ exec x i c.shared) :
    settled c (some x) <+: settled (c.put x s (new ++ rest)) h' := by
  rw [settled,settled,put_shared]
  rcases pendingOf_isSome (held.holder x rfl) with popping | ⟨pending,completing⟩ | ⟨op,tail,back,_,same⟩ | storing
  · obtain ⟨rfl,rfl⟩ : i = _ ∧ rest = _ := by simpa [left] using popping
    obtain ⟨pending,_,rfl,rfl⟩ : ∃ pending, c.shared.inflightOperations.Perm pending ∧ s = _ ∧ new = _ := by
      simpa [exec,List.mem_permutations,List.perm_comm,eq_comm] using ran
    rw [popped_of_holding [] held (x := x) (by rw [popping]; rfl),List.append_nil]
    exact List.prefix_append _ _
  · obtain ⟨rfl,rfl⟩ : i = _ ∧ rest = _ := by simpa [left] using completing
    cases pending with
    | nil => simp [exec] at ran
    | cons next pending =>
      obtain ⟨rfl,rfl⟩ := Prod.mk.inj (List.mem_singleton.mp ran)
      rw [popped_of_holding (next :: pending) held (x := x) (by rw [completing]; rfl),
        popped_of_holding pending held' (x := x) (by simpa using pendingOf_returned next pending)]
      simp
  · obtain ⟨rfl,rfl⟩ : i = _ ∧ rest = _ := by simpa [left] using back
    obtain ⟨rfl,rfl⟩ := Prod.mk.inj (List.mem_singleton.mp ran)
    obtain ⟨ops,holding⟩ := Option.isSome_iff_exists.mp (held.holder x rfl)
    rw [popped_of_holding ops held holding,popped_of_holding ops held' (x := x) (by simpa [same] using holding)]
  · obtain ⟨rfl,rfl⟩ : i = _ ∧ rest = _ := by simpa [left] using storing
    obtain ⟨rfl,rfl⟩ := Prod.mk.inj (List.mem_singleton.mp ran)
    rw [popped_of_holding [] held (x := x) (by rw [storing]; rfl),List.append_nil]
    exact List.prefix_append _ _

theorem run_settled (held : Held c h) (held' : Held (c.put x s (new ++ rest)) h') (left : c.threads x = i :: rest)
    (ran : (s,new) ∈ exec x i c.shared) : settled c h <+: settled (c.put x s (new ++ rest)) h' := by
  by_cases this : h = some x
  · subst this
    exact holding_settled held held' left ran
  · exact free_settled held held' this left ran

theorem call_settled {prog : List (Instr Op)} (held : Held c h) (idle : c.threads x = [])
    (accepted : accept x c.shared = some (s,prog)) :
    settled (c.put x s prog) h = settled c h := by
  have other : h ≠ some x := by
    rintro rfl
    simpa [idle,pendingOf] using held.holder x rfl
  unfold accept at accepted
  split at accepted
  · cases accepted
  · cases accepted
    rw [settled,settled,popped_put_other other]
    rfl

/-- Of the order of completions only the end is open. -/
theorem settled_grows (held : Held c h) (later : Reach (machine Op) Any c c') :
    ∃ h', Held c' h' ∧ settled c h <+: settled c' h' := by
  refine later.invariant (I := fun c' => ∃ h', Held c' h' ∧ settled c h <+: settled c' h')
    ⟨h,held,List.prefix_refl _⟩ ?_ ?_
  · rintro c' p i rest s new ⟨h',held',grown⟩ _ left ran
    obtain ⟨h'',held''⟩ := run_held held' left ran
    exact ⟨h'',held'',grown.trans (run_settled held' held'' left ran)⟩
  · rintro c' op s prog ⟨h',held',grown⟩ _ idle accepted
    exact ⟨h',call_held held' idle accepted,by rwa [call_settled held' idle accepted]⟩

/-- Whatever happens after somebody has popped operations, these are completed next and in the
    order in which they were popped: the later completions have not come so far, or come after
    them. -/
theorem popped_complete_next (reach : Reach (machine Op) Any (initial Op) c) (holding : pendingOf (c.threads x) = some ops)
    (later : Reach (machine Op) Any c c') :
    c'.shared.completed <+: c.shared.completed ++ ops ∨ c.shared.completed ++ ops <+: c'.shared.completed := by
  obtain ⟨h,held⟩ := reach_held reach
  obtain ⟨h',_,grown⟩ := settled_grows held later
  rw [settled,popped_of_holding _ held holding] at grown
  exact List.prefix_or_prefix_of_prefix (List.prefix_append _ _) grown

/-- The third operation is started when the first two have been popped, and completed after them. -/
theorem popped_complete_next_started : ∃ c, Reach (machine Nat) Any (initial Nat) c ∧
    pendingOf (c.threads 0) = some [1,0] ∧
    ∀ c', Reach (machine Nat) Any c c' → c'.shared.completed <+: [1,0] ∨ [1,0] <+: c'.shared.completed := by
  obtain ⟨c,reach,found⟩ := exists_of_follow (machine Nat) Any (initial Nat) (fun _ _ => true) (fun _ _ _ => trivial)
    [(.call 0,0),(.run 0,0),(.call 1,0),(.run 1,0),(.run 0,0),(.run 0,0),(.call 2,0),(.run 2,0),(.run 2,0)]
    (fun c => c.shared.completed = [] && pendingOf (c.threads 0) = some [1,0]) (by decide)
  obtain ⟨none,holding⟩ : c.shared.completed = [] ∧ pendingOf (c.threads 0) = some [1,0] := by simpa using found
  refine ⟨c,reach,holding,fun c' later => ?_⟩
  have next := popped_complete_next reach holding later
  rwa [none] at next

/-! ### The number of steps -/

/-- What an instruction pays for: its own step and those of what it leaves to do, and for a push
    also the looks at the queue that every `start` repeats when it is not empty. -/
def weight (k : Nat) (queued : Bool) : Instr Op → Nat
  | .pushFront => 4 + 4 * k
  | .compareExchange => 4
  | .popAll => 3
  | .completeNext pending => 2 * pending.length + 3
  | .returned _ => 1
  | .storeFalse => if queued then 6 else 2
  | .checkEmpty => if queued then 5 else 1

def size (k : Nat) (queued : Bool) (prog : List (Instr Op)) : Nat := (prog.map (weight k queued)).sum

def queued (s : Base Op) : Bool := !s.inflightOperations.isEmpty

/-- What is left to pay for: what every `start` has left, and the completion of what is queued. -/
def owed (k : Nat) (parties : Finset Op) (c : Config Op (Base Op) (Instr Op)) : Nat :=
  c.total parties (size k (queued c.shared)) + 3 * c.shared.inflightOperations.length

section
variable {k : Nat} {q q' : Bool} {prog : List (Instr Op)} {parties : Finset Op}

omit [DecidableEq Op] in
@[simp] theorem size_nil : size k q ([] : List (Instr Op)) = 0 := rfl

omit [DecidableEq Op] in
@[simp] theorem size_cons (i : Instr Op) : size k q (i :: prog) = weight k q i + size k q prog := by simp [size]

omit [DecidableEq Op] in
@[simp] theorem size_append : size k q (new ++ rest) = size k q new + size k q rest := by simp [size]

omit [DecidableEq Op] in
theorem size_whilePending (pending : List Op) (done : Instr Op) :
    size k q (whilePending pending done) = if pending = [] then weight k q done else 2 * pending.length + 3 := by
  cases pending <;> simp [whilePending,weight]

/-- What a party has left has one look at the queue in it at most. -/
theorem size_queued (held : Held c h) (y : Op) : size k q (c.threads y) ≤ size k q' (c.threads y) + 4 := by
  by_cases this : h = some y
  · have last : ∀ prog : List (Instr Op), (pendingOf prog).isSome = true → runningOf prog = [] →
        size k q prog ≤ size k q' prog + 4 := by
      intro prog holding quiet
      rcases pendingOf_isSome holding with rfl | ⟨_,rfl⟩ | ⟨_,_,rfl,_,_⟩ | rfl
      · simp [weight]
      · simp [weight]
      · cases quiet
      · cases q <;> cases q' <;> simp [weight]
    have holding := held.holder y this
    rcases pendingOf_isSome holding with is | ⟨_,is⟩ | ⟨_,tail,is,quiet,same⟩ | is
    · exact last _ holding (by rw [is]; rfl)
    · exact last _ holding (by rw [is]; rfl)
    · have := last tail (by rwa [same]) quiet
      simp only [is,size_cons,weight]
      omega
    · exact last _ holding (by rw [is]; rfl)
  · have free := held.others y this
    generalize c.threads y = prog at free
    cases free with
    | done => simp
    | begun => simp [startOp,weight]
    | trying => simp [weight]
    | checking => cases q <;> cases q' <;> simp [weight]

omit [DecidableEq Op] in
/-- Nothing becomes dearer when the queue becomes empty. -/
theorem size_emptied (prog : List (Instr Op)) : size k false prog ≤ size k q prog := by
  induction prog with
  | nil => simp
  | cons i prog ih =>
    have first : weight k false i ≤ weight k q i := by cases i <;> cases q <;> simp [weight]
    simp only [size_cons]
    omega

/-- A step that does not put anything into the queue pays for itself. -/
theorem owed_taken (idle : ∀ y ∉ parties, c.threads y = []) (left : c.threads x = i :: rest)
    (fewer : queued s = queued c.shared ∨ queued s = false)
    (pays : size k (queued s) new + 3 * s.inflightOperations.length + 1 ≤
      weight k (queued c.shared) i + 3 * c.shared.inflightOperations.length) :
    owed k (insert x parties) (c.put x s (new ++ rest)) + 1 ≤ owed k parties c := by
  have cheaper : ∀ prog : List (Instr Op), size k (queued s) prog ≤ size k (queued c.shared) prog := by
    intro prog
    rcases fewer with same | emptied
    · rw [same]
    · rw [emptied]
      exact size_emptied prog
  have total := total_put_le (v := size k (queued s)) (w := size k (queued c.shared)) (k := 0) x s (new ++ rest)
    size_nil idle fun y _ => cheaper _
  have after := cheaper rest
  simp only [left,size_cons,size_append] at total
  simp only [owed,put_shared]
  omega

/-- A push pays for what it makes dearer for everybody. -/
theorem owed_pushed (held : Held c h) (idle : ∀ y ∉ parties, c.threads y = []) (left : c.threads x = .pushFront :: rest)
    (enough : parties.card ≤ k) (ran : (s,new) ∈ exec x .pushFront c.shared) :
    owed k (insert x parties) (c.put x s (new ++ rest)) + 1 ≤ owed k parties c := by
  obtain ⟨rfl,rfl⟩ := Prod.mk.inj (List.mem_singleton.mp ran)
  have other : h ≠ some x := by
    rintro rfl
    simpa [left,pendingOf] using held.holder x rfl
  have tail : rest = [.compareExchange] := by
    have free := held.others x other
    rw [left] at free
    cases free
    rfl
  subst tail
  have total := total_put_le (v := size k true) (w := size k (queued c.shared)) (k := 4) x
    { c.shared with inflightOperations := x :: c.shared.inflightOperations } ([] ++ [.compareExchange])
    size_nil idle fun y _ => size_queued held y
  have dearer := Nat.mul_le_mul_right 4 enough
  simp only [left,List.nil_append,size_cons,size_nil,weight] at total
  simp only [owed,put_shared,List.nil_append,List.length_cons,
    show queued { c.shared with inflightOperations := x :: c.shared.inflightOperations } = true from rfl]
  omega

/-- Every step of a `start` is paid for. -/
theorem owed_run (held : Held c h) (idle : ∀ y ∉ parties, c.threads y = []) (enough : parties.card ≤ k)
    (left : c.threads x = i :: rest) (ran : (s,new) ∈ exec x i c.shared) :
    owed k (insert x parties) (c.put x s (new ++ rest)) + 1 ≤ owed k parties c := by
  cases i with
  | pushFront => exact owed_pushed held idle left enough ran
  | compareExchange =>
    simp only [exec] at ran
    split at ran
    all_goals
      obtain ⟨rfl,rfl⟩ := Prod.mk.inj (List.mem_singleton.mp ran)
      refine owed_taken idle left (.inl rfl) ?_
      simp [weight]
      try omega
  | popAll =>
    obtain ⟨pending,perm,rfl,rfl⟩ : ∃ pending, c.shared.inflightOperations.Perm pending ∧ s = _ ∧ new = _ := by
      simpa [exec,List.mem_permutations,List.perm_comm,eq_comm] using ran
    have same := perm.length_eq
    refine owed_taken idle left (.inr rfl) ?_
    rw [size_whilePending]
    split
    · simp [weight,queued]
    · next some =>
      have := List.length_pos_iff.mpr some
      simp only [weight,List.length_nil]
      omega
  | completeNext pending =>
    cases pending with
    | nil => cases ran
    | cons next pending =>
      obtain ⟨rfl,rfl⟩ := Prod.mk.inj (List.mem_singleton.mp ran)
      refine owed_taken idle left (.inl rfl) ?_
      rw [size_cons,size_whilePending]
      split
      · simp only [weight,List.length_cons]
        omega
      · simp only [weight,List.length_cons]
        omega
  | returned op =>
    obtain ⟨rfl,rfl⟩ := Prod.mk.inj (List.mem_singleton.mp ran)
    refine owed_taken idle left (.inl rfl) ?_
    simp only [size_nil,weight]
    omega
  | storeFalse =>
    obtain ⟨rfl,rfl⟩ := Prod.mk.inj (List.mem_singleton.mp ran)
    refine owed_taken idle left (.inl rfl) ?_
    cases empty : c.shared.inflightOperations.isEmpty <;>
      simp only [weight,queued,empty,size_cons,size_nil,Bool.not_false,Bool.not_true,Bool.false_eq_true,reduceIte] <;> omega
  | checkEmpty =>
    obtain ⟨rfl,rfl⟩ := Prod.mk.inj (List.mem_singleton.mp ran)
    refine owed_taken idle left (.inl rfl) ?_
    cases empty : c.shared.inflightOperations.isEmpty <;>
      simp only [weight,queued,empty,size_cons,size_nil,Bool.not_false,Bool.not_true,Bool.false_eq_true,reduceIte] <;> omega

/-- A `start` that is called brings what it will pay. -/
theorem owed_call {prog : List (Instr Op)} (idle : ∀ y ∉ parties, c.threads y = []) (quiet : c.threads x = [])
    (accepted : accept x c.shared = some (s,prog)) :
    owed k (insert x parties) (c.put x s prog) ≤ owed k parties c + (8 + 4 * k) := by
  unfold accept at accepted
  split at accepted
  · cases accepted
  · cases accepted
    have total := total_put (v := size k (queued c.shared)) (w := size k (queued c.shared)) x
      { c.shared with started := x :: c.shared.started } startOp size_nil idle fun _ _ => rfl
    simp only [quiet,size_nil,startOp,size_cons,weight] at total
    simp only [owed,put_shared,startOp,show queued { c.shared with started := x :: c.shared.started } = queued c.shared from rfl]
    omega

theorem accept_started {prog : List (Instr Op)} (accepted : accept x c.shared = some (s,prog)) :
    s.started = x :: c.shared.started := by
  unfold accept at accepted
  split at accepted
  · cases accepted
  · cases accepted
    rfl

theorem exec_started (ran : (s,new) ∈ exec x i c.shared) : s.started = c.shared.started := by
  cases i with
  | compareExchange =>
    simp only [exec] at ran
    split at ran <;> rw [(Prod.mk.inj (List.mem_singleton.mp ran)).1]
  | popAll =>
    obtain ⟨_,_,same⟩ := List.mem_map.mp ran
    rw [← (Prod.mk.inj same).1]
  | completeNext pending =>
    cases pending with
    | nil => cases ran
    | cons next pending => rw [(Prod.mk.inj (List.mem_singleton.mp ran)).1]
  | _ => rw [(Prod.mk.inj (List.mem_singleton.mp ran)).1]

end

omit [DecidableEq Op] in
theorem mem_whilePending {pending : List Op} {done : Instr Op} (other : ∀ l, done ≠ .completeNext l)
    (member : .completeNext [] ∈ whilePending pending done) : False := by
  cases pending with
  | nil => exact other [] (List.mem_singleton.mp member).symm
  | cons op pending => simp [whilePending] at member

/-- The loop over popped operations goes on only while there are some. -/
theorem pending_some (reach : Reach (machine Op) Any (initial Op) c) : ∀ y, .completeNext [] ∉ c.threads y := by
  refine reach.invariant (I := fun c => ∀ y, .completeNext [] ∉ c.threads y) (by simp [initial]) ?_ ?_
  · intro c x i rest s new never _ left ran y member
    rcases mem_of_mem_put left member with fresh | before
    · cases i with
      | compareExchange =>
        simp only [machine,exec] at ran
        split at ran
        all_goals
          obtain ⟨rfl,rfl⟩ := Prod.mk.inj (List.mem_singleton.mp ran)
          simp at fresh
      | popAll =>
        obtain ⟨_,_,same⟩ := List.mem_map.mp ran
        obtain ⟨rfl,rfl⟩ := Prod.mk.inj same
        exact mem_whilePending (by simp) fresh
      | completeNext pending =>
        cases pending with
        | nil => cases ran
        | cons next pending =>
          obtain ⟨rfl,rfl⟩ := Prod.mk.inj (List.mem_singleton.mp ran)
          exact mem_whilePending (by simp) ((List.mem_cons.mp fresh).resolve_left (by simp))
      | checkEmpty =>
        obtain ⟨rfl,rfl⟩ := Prod.mk.inj (List.mem_singleton.mp ran)
        split at fresh <;> simp at fresh
      | _ =>
        obtain ⟨rfl,rfl⟩ := Prod.mk.inj (List.mem_singleton.mp ran)
        simp at fresh
    · exact never y before
  · intro c op s prog never _ _ accepted y member
    simp only [machine,accept] at accepted
    split at accepted
    · cases accepted
    · cases accepted
      rw [put_threads] at member
      split at member
      · simp [startOp] at member
      · exact never y member

/-- No step of a `start` has to wait for another one. -/
theorem never_blocked (reach : Reach (machine Op) Any (initial Op) c) (busy : c.threads x ≠ []) :
    ∃ c', c' ∈ (machine Op).next c (.run x) := by
  obtain ⟨i,rest,left⟩ := List.exists_cons_of_ne_nil busy
  refine next_of_exec _ left ?_
  cases i with
  | compareExchange =>
    simp only [machine,exec]
    split <;> exact ⟨_,List.mem_singleton_self _⟩
  | popAll => exact ⟨_,List.mem_map_of_mem (List.mem_permutations.mpr (List.Perm.refl _))⟩
  | completeNext pending =>
    cases pending with
    | nil => exact absurd (left ▸ List.mem_cons_self) (pending_some reach x)
    | cons next pending => exact ⟨_,List.mem_singleton_self _⟩
  | _ => exact ⟨_,List.mem_singleton_self _⟩

variable {steps : List (Config Op (Base Op) (Instr Op) × Label Op Op)}

/-- The steps taken and those owed are no more than what the started operations have brought. -/
theorem steps_owed (run : Run (machine Op) Any (initial Op) steps c) :
    ∃ parties : Finset Op, (∀ y ∉ parties, c.threads y = []) ∧ parties.card ≤ c.shared.started.length ∧
      ∀ k, c.shared.started.length ≤ k → steps.length + owed k parties c ≤ c.shared.started.length * (9 + 4 * k) := by
  refine run.invariant (I := fun steps c => ∃ parties : Finset Op, (∀ y ∉ parties, c.threads y = []) ∧
    parties.card ≤ c.shared.started.length ∧
    ∀ k, c.shared.started.length ≤ k → steps.length + owed k parties c ≤ c.shared.started.length * (9 + 4 * k)) ?_ ?_ ?_
  · exact ⟨∅,fun _ _ => rfl,Nat.le_refl _,fun k _ => by simp [owed,Config.total,initial]⟩
  · rintro steps c x i rest s new reach ⟨parties,idle,few,fits⟩ _ left ran
    obtain ⟨h,held⟩ := reach_held reach
    have inside : x ∈ parties := by
      by_contra outside
      simp [idle x outside] at left
    have started := exec_started ran
    refine ⟨insert x parties,idle_put idle,?_,?_⟩
    · rw [Finset.insert_eq_of_mem inside,put_shared,started]
      exact few
    · intro k enough
      rw [put_shared,started] at enough ⊢
      have paid := owed_run held idle (few.trans enough) left ran
      have before := fits k enough
      simp only [List.length_append,List.length_singleton]
      omega
  · rintro steps c x s prog _ ⟨parties,idle,few,fits⟩ _ quiet accepted
    have started := accept_started accepted
    refine ⟨insert x parties,idle_put idle,?_,?_⟩
    · rw [put_shared,started,List.length_cons]
      exact (Finset.card_insert_le x parties).trans (Nat.succ_le_succ few)
    · intro k enough
      rw [put_shared,started,List.length_cons] at enough ⊢
      have brought : owed k (insert x parties) (c.put x s prog) ≤ owed k parties c + (8 + 4 * k) :=
        owed_call idle quiet accepted
      have before := fits k (Nat.le_of_succ_le enough)
      rw [List.length_append,List.length_singleton,Nat.add_mul]
      change _ + owed k (insert x parties) (c.put x s prog) ≤ _
      omega

/-- The starts of `n` operations take `n * (9 + 4 * n)` steps at most, in any order, and none of them
    ever waits for another one: so all of them return, whoever is delayed for how long. -/
theorem lock_terminates (run : Run (machine Op) Any (initial Op) steps c) :
    steps.length ≤ c.shared.started.length * (9 + 4 * c.shared.started.length) ∧
    ∀ x, c.threads x ≠ [] → ∃ c', c' ∈ (machine Op).next c (.run x) := by
  obtain ⟨_,_,_,fits⟩ := steps_owed run
  exact ⟨(Nat.le_add_right _ _).trans (fits _ (Nat.le_refl _)),fun x => never_blocked run.reach⟩

/-- Two operations, the second of which finds the flag taken. -/
theorem lock_terminates_two : ∃ steps c, Run (machine Nat) Any (initial Nat) steps c ∧ c.shared.started = [1,0] ∧
    steps.length ≤ 34 := by
  obtain ⟨steps,c,run,found⟩ := exists_run_of_follow (machine Nat) Any (initial Nat) (fun _ _ => true)
    (fun _ _ _ => trivial) [(.call 0,0),(.run 0,0),(.run 0,0),(.call 1,0),(.run 1,0),(.run 1,0)]
    (fun _ c => c.shared.started = [1,0]) (by decide)
  have started : c.shared.started = [1,0] := by simpa using found
  have bounded := (lock_terminates run).1
  rw [started] at bounded
  exact ⟨steps,c,run,started,bounded⟩

end SendersIo.MutexProgress
