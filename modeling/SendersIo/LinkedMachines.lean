import SendersIo.Interleaving

/-!
Two machines that call each other. An instruction of the one may raise an event of the other, and
is a step of both then. The environment raises the other events, as far as they are permitted.
Either machine goes through a run of its own (`Joint.first`, `Joint.second`), and what the steps of
both keep holds of every pair of configurations that they reach (`Joint.invariant`).
-/
namespace SendersIo.LinkedMachines
open SendersIo.Interleaving
universe u

/-- The events of the other machine that an instruction raises, in either direction; and the
    events of either machine that the environment may raise. -/
structure Link (P S I E Q T J F : Type u) where
  calls : P → I → S → Option F
  callsBack : Q → J → T → Option E
  permits : E → Config P S I × Config Q T J → Bool
  permitsBack : F → Config P S I × Config Q T J → Bool

variable {P S I E Q T J F : Type u} [DecidableEq P] [DecidableEq Q]

/-- The link, seen from the other machine. -/
def Link.swap (L : Link P S I E Q T J F) : Link Q T J F P S I E where
  calls := L.callsBack
  callsBack := L.calls
  permits f now := L.permitsBack f now.swap
  permitsBack e now := L.permits e now.swap

variable (L : Link P S I E Q T J F) (M : Machine P S I E) (N : Machine Q T J F)

/-- What a label of the first machine leads to. -/
def Link.advance (now : Config P S I × Config Q T J) : Label P E → List (Config P S I × Config Q T J)
  | .run p =>
    match (now.1.threads p).head?.bind fun i => L.calls p i now.1.shared with
    | none => (M.next now.1 (.run p)).map fun c => (c,now.2)
    | some f => (M.next now.1 (.run p)).flatMap fun c => (N.next now.2 (.call f)).map fun d => (c,d)
  | .call e => if L.permits e now then (M.next now.1 (.call e)).map fun c => (c,now.2) else []

/-- What a label of either machine leads to. -/
def Link.next (now : Config P S I × Config Q T J) : Label P E ⊕ Label Q F → List (Config P S I × Config Q T J)
  | .inl l => L.advance M N now l
  | .inr l => (L.swap.advance N M now.swap l).map Prod.swap

/-- The pairs of configurations that are reached. -/
inductive Joint (start : Config P S I × Config Q T J) : Config P S I × Config Q T J → Prop
  | start : Joint start start
  | step {now later : Config P S I × Config Q T J} {l : Label P E ⊕ Label Q F} :
      Joint start now → later ∈ L.next M N now l → Joint start later

/-- The steps of the first machine: it goes on alone, it calls the other one, or an event of it
    is raised. -/
inductive Step : Config P S I × Config Q T J → Config P S I × Config Q T J → Prop
  | run {c : Config P S I} {d : Config Q T J} {p : P} {i : I} {rest new : List I} {s : S} :
      c.threads p = i :: rest → L.calls p i c.shared = none → (s,new) ∈ M.exec p i c.shared →
      Step (c,d) (c.put p s (new ++ rest),d)
  | calling {c : Config P S I} {d : Config Q T J} {p : P} {i : I} {rest new : List I} {s : S} {f : F} {t : T}
      {prog : List J} : c.threads p = i :: rest → L.calls p i c.shared = some f → (s,new) ∈ M.exec p i c.shared →
      d.threads (N.party f) = [] → N.accept f d.shared = some (t,prog) →
      Step (c,d) (c.put p s (new ++ rest),d.put (N.party f) t prog)
  | call {c : Config P S I} {d : Config Q T J} {e : E} {s : S} {prog : List I} : L.permits e (c,d) = true →
      c.threads (M.party e) = [] → M.accept e c.shared = some (s,prog) → Step (c,d) (c.put (M.party e) s prog,d)

variable {L M N} {start now later : Config P S I × Config Q T J} {c c' : Config P S I} {d d' : Config Q T J}

theorem step_of_mem_advance {l : Label P E} (moved : later ∈ L.advance M N now l) : Step L M N now later := by
  obtain ⟨c,d⟩ := now
  cases l with
  | run p =>
    simp only [Link.advance] at moved
    split at moved
    · next none =>
      obtain ⟨c',ran,rfl⟩ := List.mem_map.mp moved
      obtain ⟨i,rest,s,new,left,outcome,rfl⟩ := (mem_next_run M).mp ran
      exact .run left (by simpa [left] using none) outcome
    · next f calls =>
      obtain ⟨c',ran,called⟩ := List.mem_flatMap.mp moved
      obtain ⟨d',entered,rfl⟩ := List.mem_map.mp called
      obtain ⟨i,rest,s,new,left,outcome,rfl⟩ := (mem_next_run M).mp ran
      obtain ⟨t,prog,idle,accepted,rfl⟩ := (mem_next_call N).mp entered
      exact .calling left (by simpa [left] using calls) outcome idle accepted
  | call e =>
    simp only [Link.advance] at moved
    split at moved
    · next permitted =>
      obtain ⟨c',entered,rfl⟩ := List.mem_map.mp moved
      obtain ⟨s,prog,idle,accepted,rfl⟩ := (mem_next_call M).mp entered
      exact .call permitted idle accepted
    · cases moved

/-- A step of the pair is one of either machine. -/
theorem steps_of_mem_next {l : Label P E ⊕ Label Q F} (moved : later ∈ L.next M N now l) :
    Step L M N now later ∨ Step L.swap N M now.swap later.swap := by
  cases l with
  | inl l => exact .inl (step_of_mem_advance moved)
  | inr l =>
    obtain ⟨other,back,rfl⟩ := List.mem_map.mp moved
    rw [Prod.swap_swap]
    exact .inr (step_of_mem_advance back)

/-- A party whose next instruction has an outcome can go on, if the event that it raises is
    accepted. -/
theorem next_of_run {p : P} {i : I} {rest : List I} (left : c.threads p = i :: rest)
    (outcome : ∃ out, out ∈ M.exec p i c.shared)
    (called : ∀ f, L.calls p i c.shared = some f → ∃ d', d' ∈ N.next d (.call f)) :
    ∃ later, later ∈ L.next M N (c,d) (.inl (.run p)) := by
  obtain ⟨c',ran⟩ := next_of_exec M left outcome
  simp only [Link.next,Link.advance,left,List.head?_cons,Option.bind_some]
  cases calls : L.calls p i c.shared with
  | none => exact ⟨_,List.mem_map.mpr ⟨c',ran,rfl⟩⟩
  | some f =>
    obtain ⟨d',entered⟩ := called f calls
    exact ⟨_,List.mem_flatMap.mpr ⟨c',ran,List.mem_map.mpr ⟨d',entered,rfl⟩⟩⟩

/-- What holds at the start and is kept by the steps of either machine holds of every pair that is
    reached. -/
theorem Joint.invariant {R : Config P S I → Config Q T J → Prop} (joint : Joint L M N start now)
    (begins : R start.1 start.2)
    (first : ∀ c d c' d', Joint L M N start (c,d) → R c d → Step L M N (c,d) (c',d') → R c' d')
    (second : ∀ c d c' d', Joint L M N start (c,d) → R c d → Step L.swap N M (d,c) (d',c') → R c' d') :
    R now.1 now.2 := by
  induction joint with
  | start => exact begins
  | step before moved ih => exact (steps_of_mem_next moved).elim (first _ _ _ _ before ih) (second _ _ _ _ before ih)

/-- The first machine goes through a run of its own, of steps that the link allows. -/
theorem Joint.first {allowed : Config P S I → Label P E → Prop} (joint : Joint L M N start now)
    (runs : ∀ c p, allowed c (.run p)) (permitted : ∀ c d e, L.permits e (c,d) = true → allowed c (.call e))
    (called : ∀ c q j t e, L.callsBack q j t = some e → allowed c (.call e)) : Reach M allowed start.1 now.1 := by
  refine joint.invariant (R := fun c _ => Reach M allowed start.1 c) .start ?_ ?_
  · intro c d c' d' _ reach step
    cases step with
    | run left _ ran => exact .step reach (runs c _) ((mem_next_run M).mpr ⟨_,_,_,_,left,ran,rfl⟩)
    | calling left _ ran _ _ => exact .step reach (runs c _) ((mem_next_run M).mpr ⟨_,_,_,_,left,ran,rfl⟩)
    | call permits idle accepted =>
      exact .step reach (permitted c d _ permits) ((mem_next_call M).mpr ⟨_,_,idle,accepted,rfl⟩)
  · intro c d c' d' _ reach step
    cases step with
    | run _ _ _ => exact reach
    | calling _ calls _ idle accepted =>
      exact .step reach (called c _ _ _ _ calls) ((mem_next_call M).mpr ⟨_,_,idle,accepted,rfl⟩)
    | call _ _ _ => exact reach

/-- And so does the second one. -/
theorem Joint.second {allowed : Config Q T J → Label Q F → Prop} (joint : Joint L M N start now)
    (runs : ∀ d q, allowed d (.run q)) (permitted : ∀ c d f, L.permitsBack f (c,d) = true → allowed d (.call f))
    (called : ∀ d p i s f, L.calls p i s = some f → allowed d (.call f)) : Reach N allowed start.2 now.2 := by
  refine joint.invariant (R := fun _ d => Reach N allowed start.2 d) .start ?_ ?_
  · intro c d c' d' _ reach step
    cases step with
    | run _ _ _ => exact reach
    | calling _ calls _ idle accepted =>
      exact .step reach (called d _ _ _ _ calls) ((mem_next_call N).mpr ⟨_,_,idle,accepted,rfl⟩)
    | call _ _ _ => exact reach
  · intro c d c' d' _ reach step
    cases step with
    | run left _ ran => exact .step reach (runs d _) ((mem_next_run N).mpr ⟨_,_,_,_,left,ran,rfl⟩)
    | calling left _ ran _ _ => exact .step reach (runs d _) ((mem_next_run N).mpr ⟨_,_,_,_,left,ran,rfl⟩)
    | call permits idle accepted =>
      exact .step reach (permitted c d _ permits) ((mem_next_call N).mpr ⟨_,_,idle,accepted,rfl⟩)

/-! ### Runs that are computed -/

variable (L M N) in
/-- The pair after the given labels, each with the index of the outcome taken. -/
def follow : List ((Label P E ⊕ Label Q F) × Nat) → Config P S I × Config Q T J → Option (Config P S I × Config Q T J)
  | [],now => some now
  | (l,k) :: rest,now => (L.next M N now l)[k]?.bind (follow rest)

theorem joint_of_follow {trace : List ((Label P E ⊕ Label Q F) × Nat)} (joint : Joint L M N start now)
    (followed : follow L M N trace now = some later) : Joint L M N start later := by
  induction trace generalizing now with
  | nil => cases followed; exact joint
  | cons head rest ih =>
    obtain ⟨between,moved,followed⟩ := Option.bind_eq_some_iff.mp followed
    exact ih (.step joint (List.mem_of_getElem? moved)) followed

/-- A computed run that ends in a pair with a property shows that such a pair is reached. -/
theorem exists_of_follow (L : Link P S I E Q T J F) (M : Machine P S I E) (N : Machine Q T J F)
    (start : Config P S I × Config Q T J) (trace : List ((Label P E ⊕ Label Q F) × Nat))
    (R : Config P S I × Config Q T J → Bool) (computed : (follow L M N trace start).any R = true) :
    ∃ now, Joint L M N start now ∧ R now = true := by
  obtain ⟨now,followed,holds⟩ := (Option.any_eq_true _ _).mp computed
  exact ⟨now,joint_of_follow .start followed,holds⟩

end SendersIo.LinkedMachines
