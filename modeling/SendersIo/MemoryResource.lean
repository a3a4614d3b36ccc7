import SendersIo.MemoryPool

/-!
A memory pool on top of a memory resource. `memory_resource::allocate` asks the
resource for a block and, when it got one, asks it again for the place of a
placement new, so the block it returns is the second one; nobody keeps the first.
-/
namespace SendersIo.MemoryResource
open SendersIo.Bytes SendersIo.Interleaving SendersIo.SizeClasses
open SendersIo.MemoryPool (Pool Party Instr Event Invariant)

/-- The pool, with the calls of `do_allocate` so far and the blocks that it returned,
    each with the size that was asked for. -/
structure System where
  pool : Pool
  calls : Nat
  returned : List (Nat × Nat)

/-- A block that `do_allocate` may return: not null, in the address space and apart
    from the blocks it has returned. -/
def Fresh (s : System) (base bytes : Nat) : Prop :=
  base ≠ 0 ∧ base + bytes ≤ 2 ^ 64 ∧ ∀ b ∈ s.returned, base + bytes ≤ b.1 ∨ b.1 + b.2 ≤ base

instance (s : System) (base bytes : Nat) : Decidable (Fresh s base bytes) := by
  unfold Fresh; infer_instance

/-- `do_allocate` of a resource that answers its n-th call with `resource n`; where
    that is not a fresh block, there is no entry. -/
def doAllocate (resource : Nat → Option Nat) (s : System) (bytes : Nat) : Option (Option Nat × System) :=
  match resource s.calls with
  | none => some (none,{ s with calls := s.calls + 1 })
  | some base =>
    if Fresh s base bytes then
      some (some base,{ s with calls := s.calls + 1, returned := s.returned ++ [(base,bytes)] })
    else none

/-- `memory_resource::allocate`. -/
def resourceAllocate (resource : Nat → Option Nat) (s : System) (bytes : Nat) : Option (Option Nat × System) :=
  (doAllocate resource s bytes).bind fun
    | (none,s) => some (none,s)
    -- `::operator new(bytes, do_allocate(bytes, alignment))`
    | (some _,s) => doAllocate resource s bytes

/-- The pool takes what its step makes of it. -/
def System.lift (s : System) (out : List (Pool × List Instr)) : List (System × List Instr) :=
  out.map fun (pool,new) => ({ s with pool },new)

/-- `allocate_operation::start`, under the lock, when the free list of the class is
    empty. A block without room for the header is written past its end. -/
def start (resource : Nat → Option Nat) (s : System) (op : Nat) (i : Fin 32) : List (System × List Instr) :=
  match blockBytes i with
  | none => []
  | some bytes =>
    match resourceAllocate resource s bytes with
    | none => []
    | some (ptr,s) =>
      if ptr.isSome ∧ bytes < headerBytes then [] else s.lift (MemoryPool.allocate (fun _ => ptr) s.pool op i)

def exec (resource : Nat → Option Nat) : Instr → System → List (System × List Instr)
  | .allocate op i,s =>
    if s.pool.blockLists i = 0 then start resource s op i
    else s.lift (MemoryPool.allocate (fun _ => none) s.pool op i)
  | j,s => s.lift (MemoryPool.exec (fun _ => none) j s.pool)

def machine (resource : Nat → Option Nat) : Machine Party System Instr Event where
  exec _ := exec resource
  accept e s := (MemoryPool.accept e s.pool).map fun (pool,prog) => ({ s with pool },prog)
  party := (MemoryPool.machine fun _ => none).party

/-- The pool is constructed over a resource that has not been asked. -/
def initial (memory : Store) : Config Party System Instr where
  shared := ⟨(MemoryPool.initial memory).shared,0,[]⟩
  threads _ := []

/-- The pool with what its parties have left. -/
def poolConfig (c : Config Party System Instr) : Config Party Pool Instr := ⟨c.shared.pool,c.threads⟩

/-- The pool is sound, and of the blocks that the resource returned it has some, and
    at least as many are lost. -/
structure Halved (c : Config Party System Instr) : Prop where
  sound : ∃ lists place, Invariant (poolConfig c) lists place
  balance : ∃ lost, c.shared.returned.Perm (c.shared.pool.obtained ++ lost) ∧
    c.shared.pool.obtained.length ≤ lost.length

variable {resource : Nat → Option Nat} {s s' : System} {c : Config Party System Instr} {bytes : Nat} {ptr : Option Nat}
  {pool pool' : Pool} {p : Party} {j : Instr} {rest new : List Instr}

/-- A block with its size, if there is one. -/
def sized (ptr : Option Nat) (bytes : Nat) : List (Nat × Nat) := ptr.toList.map (·,bytes)

theorem doAllocate_returned (asked : doAllocate resource s bytes = some (ptr,s')) :
    s'.pool = s.pool ∧ s'.returned = s.returned ++ sized ptr bytes := by
  unfold doAllocate at asked
  split at asked
  · cases asked
    simp [sized]
  · split at asked
    · cases asked
      simp [sized]
    · cases asked

/-- An allocation that succeeds loses a block of the resource. -/
theorem resourceAllocate_returned (asked : resourceAllocate resource s bytes = some (ptr,s')) :
    s'.pool = s.pool ∧ ∃ lost, s'.returned = s.returned ++ lost ++ sized ptr bytes ∧
      (sized ptr bytes).length ≤ lost.length := by
  unfold resourceAllocate at asked
  cases first : doAllocate resource s bytes with
  | none => simp [first] at asked
  | some out =>
    obtain ⟨got,s₁⟩ := out
    obtain ⟨pool,returned⟩ := doAllocate_returned first
    cases got with
    | none =>
      obtain ⟨rfl,rfl⟩ : none = ptr ∧ s₁ = s' := by simpa [first] using asked
      exact ⟨pool,[],by simpa using returned,by simp [sized]⟩
    | some base =>
      rw [first] at asked
      obtain ⟨pool',returned'⟩ := doAllocate_returned (s := s₁) asked
      refine ⟨pool'.trans pool,[(base,bytes)],?_,?_⟩
      · rw [returned',returned]
        rfl
      · cases ptr <;> simp [sized]

/-- A start that finds no free block adds the block that it gets upstream. -/
theorem obtained_allocate {op : Nat} {i : Fin 32} (size : blockBytes i = some bytes) (nothing : pool.blockLists i = 0)
    (ran : (pool',new) ∈ MemoryPool.allocate (fun _ => ptr) pool op i) :
    pool'.obtained = pool.obtained ++ sized ptr bytes := by
  simp only [MemoryPool.allocate,if_pos nothing,size] at ran
  cases ptr with
  | none =>
    obtain ⟨rfl,-⟩ : pool' = _ ∧ new = _ := by simpa using ran
    simp [sized,Pool.obtained]
  | some base =>
    simp only at ran
    split at ran
    · obtain ⟨rfl,-⟩ : pool' = _ ∧ new = _ := by simpa using ran
      simp [sized,Pool.obtained]
    · cases ran

/-- No other step of the pool obtains a block. -/
theorem obtained_exec (ran : (pool',new) ∈ MemoryPool.exec (fun _ => none) j pool) : pool'.obtained = pool.obtained := by
  rcases (MemoryPool.exec_frame ran).blocks with same | ⟨_,_,_,_,⟨⟩,_⟩
  rw [Pool.obtained,same,Pool.obtained]

theorem run_keeps (halved : Halved c) (left : c.threads p = j :: rest) (ran : (s,new) ∈ exec resource j c.shared) :
    Halved (c.put p s (new ++ rest)) := by
  obtain ⟨⟨lists,place,inv⟩,lost,all,more⟩ := halved
  -- a step of the pool that asks nothing of the resource
  have quiet : (s,new) ∈ c.shared.lift (MemoryPool.exec (fun _ => none) j c.shared.pool) →
      Halved (c.put p s (new ++ rest)) := by
    intro ran
    obtain ⟨⟨pool,new'⟩,ran,same⟩ := List.mem_map.mp ran
    cases same
    have obtained := obtained_exec ran
    exact ⟨MemoryPool.run_keeps (fun _ => none) inv (p := p) left (by simp) ran,lost,by simpa [obtained] using all,
      by simpa [obtained] using more⟩
  cases j with
  | allocate op i =>
    simp only [exec] at ran
    split at ran
    · rename_i nothing
      simp only [start] at ran
      cases size : blockBytes i with
      | none => simp [size] at ran
      | some bytes =>
        cases asked : resourceAllocate resource c.shared bytes with
        | none => simp [size,asked] at ran
        | some out =>
          obtain ⟨ptr,s₁⟩ := out
          simp only [size,asked] at ran
          split at ran
          · cases ran
          · rename_i room
            obtain ⟨⟨pool,new'⟩,ran,same⟩ := List.mem_map.mp ran
            cases same
            obtain ⟨same,gone,returned,less⟩ := resourceAllocate_returned asked
            rw [same] at ran
            have obtained := obtained_allocate size nothing ran
            refine ⟨MemoryPool.run_keeps (fun _ => ptr) inv (p := p) left ?_ ran,lost ++ gone,?_,?_⟩
            · rintro op' i' here bytes' base size' rfl
              cases here
              rw [size] at size'
              cases size'
              simpa using room
            · simp only [put_shared,returned,obtained]
              calc c.shared.returned ++ gone ++ sized ptr bytes
                  _ |>.Perm (c.shared.pool.obtained ++ lost ++ gone ++ sized ptr bytes) :=
                    (all.append_right gone).append_right _
                  _ |>.Perm (c.shared.pool.obtained ++ sized ptr bytes ++ (lost ++ gone)) := by
                    rw [List.append_assoc,List.append_assoc,List.append_assoc]
                    refine List.Perm.append_left _ ?_
                    rw [← List.append_assoc]
                    exact List.perm_append_comm
            · simp only [put_shared,obtained,List.length_append]
              omega
    · exact quiet ran
  | setValue op x => exact quiet ran
  | readHeader x => exact quiet ran
  | reclaim x block => exact quiet ran
  | complete op => exact quiet ran

theorem obtained_accept {e : Event} {prog : List Instr} (accepted : MemoryPool.accept e pool = some (pool',prog)) :
    pool'.obtained = pool.obtained := by
  rw [Pool.obtained,(MemoryPool.accept_frame accepted).blocks,Pool.obtained]

theorem call_keeps {e : Event} (halved : Halved c) (idle : c.threads ((machine resource).party e) = [])
    (accepted : (machine resource).accept e c.shared = some (s,new)) :
    Halved (c.put ((machine resource).party e) s new) := by
  obtain ⟨⟨pool,prog⟩,accepted,same⟩ := Option.map_eq_some_iff.mp accepted
  cases same
  obtain ⟨⟨lists,place,inv⟩,lost,all,more⟩ := halved
  have obtained := obtained_accept accepted
  exact ⟨MemoryPool.call_keeps (fun _ => none) inv idle accepted,lost,by simpa [obtained] using all,
    by simpa [obtained] using more⟩

theorem reach_halved {memory : Store} (reach : Reach (machine resource) Any (initial memory) c) : Halved c :=
  reach.invariant
    ⟨⟨_,_,show Invariant (poolConfig (initial memory)) _ _ from MemoryPool.initial_invariant memory⟩,[],
      by simp [initial,MemoryPool.initial,Pool.obtained],by simp [initial,MemoryPool.initial,Pool.obtained]⟩
    (fun _ _ _ _ _ _ halved _ left ran => run_keeps halved left ran)
    (fun _ _ _ _ halved _ idle accepted => call_keeps halved idle accepted)

/-- The destructor of a pool that nobody uses any more gives back each of its blocks
    once. The resource has returned these and at least as many more, so all that it
    has returned is given back if and only if it has returned nothing. -/
theorem resource_blocks_released {memory : Store} (reach : Reach (machine resource) Any (initial memory) c)
    (idle : ∀ p, c.threads p = []) (none : c.shared.pool.received = []) :
    ∃ released lost, MemoryPool.destroy (c.shared.pool.blocks.length + 1) c.shared.pool = some released ∧
      c.shared.returned.Perm (released ++ lost) ∧ released.length ≤ lost.length ∧
      ((released.map Prod.fst).Perm (c.shared.returned.map Prod.fst) ↔ c.shared.returned = []) := by
  obtain ⟨⟨lists,place,inv⟩,lost,all,more⟩ := reach_halved reach
  obtain ⟨released,destroyed,same⟩ := inv.destroy idle none
  have length := same.length_eq
  have total := all.length_eq
  rw [List.length_append] at total
  have each : (poolConfig c).shared.obtained = c.shared.pool.obtained := rfl
  rw [each] at same length
  refine ⟨released,lost,destroyed,all.trans (same.symm.append_right lost),by omega,fun equal => ?_,fun nothing => ?_⟩
  · have := equal.length_eq
    simp only [List.length_map] at this
    exact List.length_eq_zero_iff.mp (by omega)
  · have empty : released = [] := List.length_eq_zero_iff.mp (by simp [nothing] at total; omega)
    rw [empty,nothing]

/-- A resource with two blocks, which one allocation takes both. -/
def twoBlocks : Nat → Option Nat
  | 0 => some 4096
  | 1 => some 8192
  | _ => none

/-- One block is allocated and given back. -/
def allocateAndReturn : List (Label Party Event × Nat) :=
  [(.call (.allocate 0 8),0),(.run (.operation 0),0),(.run (.operation 0),0),(.call (.deallocate 1 8208),0),
    (.run (.operation 1),0),(.run (.operation 1),0)]

theorem idle_of_among {c : Config Party System Instr}
    (others : ∀ q ∉ [Party.operation 0,Party.operation 1], c.threads q = [])
    (first : (c.threads (.operation 0)).isEmpty) (second : (c.threads (.operation 1)).isEmpty) (p : Party) :
    c.threads p = [] := by
  by_cases member : p ∈ [Party.operation 0,Party.operation 1]
  · rcases List.mem_cons.mp member with rfl | member
    · exact List.isEmpty_iff.mp first
    · rw [List.mem_singleton.mp member]
      exact List.isEmpty_iff.mp second
  · exact others p member

theorem resource_blocks_released_one : ∃ (c : Config Party System Instr) (released lost : List (Nat × Nat)),
    MemoryPool.destroy (c.shared.pool.blocks.length + 1) c.shared.pool = some released ∧
      c.shared.returned = [(4096,32),(8192,32)] ∧ c.shared.returned.Perm (released ++ lost) := by
  obtain ⟨steps,c,run,others,computed⟩ := exists_run_among (machine twoBlocks) Any (initial fun _ => 255)
    [.operation 0,.operation 1] (fun _ _ => true) (fun _ _ _ _ => trivial) allocateAndReturn (fun _ => rfl) (by decide)
    (fun _ c => (c.threads (.operation 0)).isEmpty ∧ (c.threads (.operation 1)).isEmpty ∧
      c.shared.pool.received = [] ∧ c.shared.returned = [(4096,32),(8192,32)]) (by decide)
  obtain ⟨first,second,none,returned⟩ := of_decide_eq_true computed
  obtain ⟨released,lost,destroyed,all,_⟩ := resource_blocks_released run.reach (idle_of_among others first second) none
  exact ⟨c,released,lost,destroyed,returned,all⟩

/-- The first of the two blocks is never given back. -/
theorem first_block_lost :
    ¬ ∀ c, Reach (machine twoBlocks) Any (initial fun _ => 255) c → (∀ p, c.threads p = []) →
      c.shared.pool.received = [] → ∃ released,
        MemoryPool.destroy (c.shared.pool.blocks.length + 1) c.shared.pool = some released ∧
          (released.map Prod.fst).Perm (c.shared.returned.map Prod.fst) := by
  intro claimed
  obtain ⟨steps,c,run,others,computed⟩ := exists_run_among (machine twoBlocks) Any (initial fun _ => 255)
    [.operation 0,.operation 1] (fun _ _ => true) (fun _ _ _ _ => trivial) allocateAndReturn (fun _ => rfl) (by decide)
    (fun _ c => (c.threads (.operation 0)).isEmpty ∧ (c.threads (.operation 1)).isEmpty ∧
      c.shared.pool.received = [] ∧ c.shared.returned = [(4096,32),(8192,32)] ∧
      MemoryPool.destroy (c.shared.pool.blocks.length + 1) c.shared.pool = some [(8192,32)]) (by decide)
  obtain ⟨first,second,none,returned,destroyed⟩ := of_decide_eq_true computed
  obtain ⟨released,given,all⟩ := claimed c run.reach (idle_of_among others first second) none
  rw [destroyed,Option.some.injEq] at given
  rw [← given,returned] at all
  exact absurd all.length_eq (by decide)

end SendersIo.MemoryResource
