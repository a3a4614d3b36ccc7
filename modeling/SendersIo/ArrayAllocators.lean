import SendersIo.MemoryPool

/-!
Arrays from allocators. An array is constructed with all of its elements, and the sender that
releases it has a pointer to the first of them only: it destroys that one. A memory pool
finds in the header of the block what to take back; the allocator that uses `new` takes
back with one form of `operator delete` what it got with the other form of `operator new`.
-/
namespace SendersIo.ArrayAllocators
open SendersIo.Bytes SendersIo.Interleaving SendersIo.SizeClasses
open SendersIo.MemoryPool (Pool Block MemoryBlock Party Instr Invariant)

/-- The addresses of the elements of an array. -/
def elements (pointer element count : Nat) : List Nat := (List.range count).map fun k => pointer + element * k

/-! ### Arrays from a memory pool -/

/-- An array that `async_new_array` has returned: where its elements were constructed, which
    of them were destroyed, the operation that releases it, and the block and the size that
    the pool took back for it. -/
structure PoolArray where
  count : Nat
  pointer : Nat
  constructed : List Nat
  deleter : Option Nat
  destroyed : List Nat
  returned : Option (Nat × Nat)
  deriving DecidableEq

/-- A pool with the arrays that are allocated from it: `sizeof(T)` and the number of elements for
    the operations that allocate one, and all arrays so far. -/
structure System where
  pool : Pool
  requested : Nat → Option (Nat × Nat)
  arrays : List PoolArray

/-- What the environment calls: `async_new_array`, `async_delete` of an array, and everything else
    that it calls of the pool. -/
inductive Event where
  | newArray (op element count : Nat)
  | delete (op k : Nat)
  | pool (e : MemoryPool.Event)

/-- The continuation of `async_new_array`: `new (ptr) T[size]`. The size of an array has 63 bits;
    a larger one throws where nothing may be thrown, and the program ends. -/
def System.placementNew (s : System) (op ptr : Nat) : Option System :=
  match s.requested op with
  | none => some s
  | some (element,count) =>
    if element * count < 2 ^ 63 then
      some { s with arrays := s.arrays ++ [⟨count,ptr,elements ptr element count,none,[],none⟩] }
    else none

/-- `reclaim_memory` takes back the block, with the size of the class that its header has. -/
def System.takeBack (s : System) (p : Party) (ptr : Nat) (block : MemoryBlock) : System :=
  { s with arrays := s.arrays.map fun r =>
      if r.deleter.map Party.operation = some p then { r with returned := (blockBytes block.index).map (ptr - headerBytes,·) }
      else r }

/-- What an instruction of the pool does to the arrays. -/
def System.effect (s : System) (p : Party) : Instr → Option System
  | .setValue op ptr => s.placementNew op ptr
  | .complete op => if s.pool.result op = 0 then some s else s.placementNew op (s.pool.result op)
  | .reclaim ptr block => some (s.takeBack p ptr block)
  | _ => some s

/-- The header of a new block would be written past its end. -/
def overruns (upstream : Nat → Option Nat) : Instr → Bool
  | .allocate op i => (upstream op).isSome && (blockBytes i).any (· < headerBytes)
  | _ => false

def exec (upstream : Nat → Option Nat) (p : Party) (j : Instr) (s : System) : List (System × List Instr) :=
  if overruns upstream j then []
  else (s.effect p j).toList.flatMap fun t =>
    (MemoryPool.exec upstream j s.pool).map fun (pool,new) => ({ t with pool },new)

/-- `async_new_array` asks the pool for the bytes of all elements. `async_delete` destroys what the
    pointer points to and gives the pointer back; nobody else gives back that of an array. -/
def accept (e : Event) (s : System) : Option (System × List Instr) :=
  match e with
  | .newArray op element count =>
    (MemoryPool.accept (.allocate op (arraySize element count)) s.pool).map fun (pool,new) =>
      ({ s with pool, requested := Function.update s.requested op (some (element,count)) },new)
  | .delete op k =>
    match s.arrays[k]? with
    | none => none
    | some r =>
      if r.deleter.isSome then none
      else (MemoryPool.accept (.deallocate op r.pointer) s.pool).map fun (pool,new) =>
        ({ s with pool, arrays := s.arrays.set k { r with deleter := some op, destroyed := [r.pointer] } },new)
  | .pool (.deallocate op ptr) =>
    if s.arrays.any fun r => r.pointer = ptr ∧ r.deleter = none then none
    else (MemoryPool.accept (.deallocate op ptr) s.pool).map fun (pool,new) => ({ s with pool },new)
  | .pool e => (MemoryPool.accept e s.pool).map fun (pool,new) => ({ s with pool },new)

def machine (upstream : Nat → Option Nat) : Machine Party System Instr Event where
  exec := exec upstream
  accept := accept
  party
    | .newArray op _ _ => .operation op
    | .delete op _ => .operation op
    | .pool e => (MemoryPool.machine upstream).party e

/-- The pool is constructed, and no array is. -/
def initial (memory : Store) : Config Party System Instr where
  shared := ⟨(MemoryPool.initial memory).shared,fun _ => none,[]⟩
  threads _ := []

/-- The pool with what its parties have left. -/
def poolConfig (c : Config Party System Instr) : Config Party Pool Instr := ⟨c.shared.pool,c.threads⟩

/-- As many elements of the array were destroyed as were constructed, and the pool took back the
    block of the array with the size that it was obtained with. -/
def Released (s : System) (r : PoolArray) : Prop :=
  r.constructed.length = r.count ∧ r.destroyed.length = r.constructed.length ∧
    ∃ b ∈ s.pool.blocks, b.pointer = r.pointer ∧ r.returned = some (b.base,b.bytes)

/-- What is known about an array: the counts of its elements; the operation that deletes it gives
    back its pointer; and what was taken back is its block. -/
structure Recorded (c : Config Party System Instr) (r : PoolArray) : Prop where
  constructed : r.constructed.length = r.count
  destroyed : r.destroyed.length = if r.deleter.isSome then 1 else 0
  started : ∀ op, r.deleter = some op → op ∈ c.shared.pool.started
  gives : ∀ op, r.deleter = some op → ∀ j ∈ c.threads (.operation op), ∀ ptr, j.gives = some ptr → r.pointer = ptr
  returned : ∀ given, r.returned = some given →
    r.deleter.isSome = true ∧ ∃ b ∈ c.shared.pool.blocks, b.pointer = r.pointer ∧ given = (b.base,b.bytes)

/-- The pool is sound, and so is what is known about the arrays. -/
structure Kept (c : Config Party System Instr) : Prop where
  sound : ∃ lists place, Invariant (poolConfig c) lists place
  recorded : ∀ r ∈ c.shared.arrays, Recorded c r

variable {upstream : Nat → Option Nat} {s s' t : System} {c c' : Config Party System Instr} {pool pool' : Pool} {p : Party}
  {j : Instr} {new rest : List Instr} {r : PoolArray}

/-! ### What an instruction does to the arrays -/

/-- An array is constructed with all elements, and was not released. -/
structure Constructed (r : PoolArray) : Prop where
  constructed : r.constructed.length = r.count
  deleter : r.deleter = none
  destroyed : r.destroyed = []
  returned : r.returned = none

theorem placementNew_arrays {op ptr : Nat} (ran : s.placementNew op ptr = some t) (mem : r ∈ t.arrays) :
    r ∈ s.arrays ∨ Constructed r := by
  unfold System.placementNew at ran
  split at ran
  · cases ran
    exact .inl mem
  · split at ran
    · cases ran
      refine (List.mem_append.mp mem).imp_right fun mem => ?_
      rw [List.mem_singleton.mp mem]
      exact ⟨by simp [elements],rfl,rfl,rfl⟩
    · cases ran

/-- An array is one that was there, or a new one, or one whose block was taken back. -/
theorem effect_arrays (ran : s.effect p j = some t) (mem : r ∈ t.arrays) : r ∈ s.arrays ∨ Constructed r ∨
    ∃ ptr block, j = .reclaim ptr block ∧ ∃ r' ∈ s.arrays, r'.deleter.map Party.operation = some p ∧
      r = { r' with returned := (blockBytes block.index).map (ptr - headerBytes,·) } := by
  cases j with
  | setValue op ptr => exact (placementNew_arrays ran mem).imp_right .inl
  | complete op =>
    simp only [System.effect] at ran
    split at ran
    · cases ran
      exact .inl mem
    · exact (placementNew_arrays ran mem).imp_right .inl
  | reclaim ptr block =>
    cases ran
    obtain ⟨r',before,rfl⟩ := List.mem_map.mp mem
    split
    · next mine => exact .inr (.inr ⟨ptr,block,rfl,r',before,mine,rfl⟩)
    · exact .inl before
  | allocate op i =>
    cases ran
    exact .inl mem
  | readHeader ptr =>
    cases ran
    exact .inl mem

theorem exec_cases (ran : (s',new) ∈ exec upstream p j s) : ∃ t pool', s.effect p j = some t ∧
    (pool',new) ∈ MemoryPool.exec upstream j s.pool ∧ s' = { t with pool := pool' } ∧ overruns upstream j = false := by
  unfold exec at ran
  split at ran
  · cases ran
  · next inside =>
    obtain ⟨t,effect,mem⟩ := List.mem_flatMap.mp ran
    obtain ⟨⟨pool',new'⟩,ran,same⟩ := List.mem_map.mp mem
    cases same
    exact ⟨t,pool',by simpa using effect,ran,rfl,by simpa using inside⟩

/-! ### Steps -/

/-- What is known about an array stays known while blocks are only added, operations only started,
    and the operation that deletes it gives back no other pointer. -/
theorem Recorded.frame (recorded : Recorded c r) (blocks : ∀ b ∈ c.shared.pool.blocks, b ∈ c'.shared.pool.blocks)
    (started : ∀ op ∈ c.shared.pool.started, op ∈ c'.shared.pool.started)
    (gives : ∀ op, r.deleter = some op → ∀ j ∈ c'.threads (.operation op), ∀ ptr, j.gives = some ptr →
      ∃ j' ∈ c.threads (.operation op), j'.gives = some ptr) : Recorded c' r where
  constructed := recorded.constructed
  destroyed := recorded.destroyed
  started op deleter := started op (recorded.started op deleter)
  gives op deleter j running ptr has := by
    obtain ⟨j',before,has⟩ := gives op deleter j running ptr has
    exact recorded.gives op deleter j' before ptr has
  returned given returned := by
    obtain ⟨deleted,b,known,same⟩ := recorded.returned given returned
    exact ⟨deleted,b,blocks b known,same⟩

theorem Constructed.recorded (fresh : Constructed r) : Recorded c r where
  constructed := fresh.constructed
  destroyed := by rw [fresh.destroyed,fresh.deleter]; rfl
  started op deleter := by simp [fresh.deleter] at deleter
  gives op deleter := by simp [fresh.deleter] at deleter
  returned given returned := by simp [fresh.returned] at returned

/-- The header of the block says its class, whose size the block has. -/
theorem Recorded.takeBack {b : Block} {given : Option (Nat × Nat)} (recorded : Recorded c r) (deleted : r.deleter.isSome = true)
    (known : b ∈ c.shared.pool.blocks) (at_ : b.pointer = r.pointer) (same : given = some (b.base,b.bytes)) :
    Recorded c { r with returned := given } where
  constructed := recorded.constructed
  destroyed := recorded.destroyed
  started := recorded.started
  gives := recorded.gives
  returned _ returned := ⟨deleted,b,known,at_,Option.some.inj (returned.symm.trans same)⟩

theorem run_keeps (kept : Kept c) (left : c.threads p = j :: rest) (ran : (s,new) ∈ exec upstream p j c.shared) :
    Kept (c.put p s (new ++ rest)) := by
  obtain ⟨⟨lists,place,inv⟩,recorded⟩ := kept
  obtain ⟨t,pool',effect,moved,rfl,inside⟩ := exec_cases ran
  have frame := MemoryPool.exec_frame moved
  have blocks : ∀ b ∈ c.shared.pool.blocks, b ∈ pool'.blocks := fun b known => by
    rcases frame.blocks with same | ⟨_,_,_,_,_,same⟩
    · rwa [same]
    · rw [same]
      exact List.mem_append_left _ known
  have stays : ∀ r ∈ c.shared.arrays, Recorded (c.put p { t with pool := pool' } (new ++ rest)) r := by
    intro r before
    refine (recorded r before).frame blocks (fun op known => by rwa [put_shared,frame.started]) ?_
    -- an instruction that gives back a pointer is left from before, or comes from one that does
    intro op deleter j' running ptr has
    rw [put_threads] at running
    split at running
    · next here =>
      rw [here,left]
      rcases List.mem_append.mp running with fresh | old
      · exact ⟨j,by simp,frame.gives j' fresh ptr has⟩
      · exact ⟨j',List.mem_cons_of_mem j old,has⟩
    · exact ⟨j',running,has⟩
  refine ⟨MemoryPool.run_keeps (c := poolConfig c) upstream inv left ?_ moved,fun r mem => ?_⟩
  · rintro op i rfl bytes base size answer
    simpa [overruns,answer,size] using inside
  · rcases effect_arrays effect mem with before | fresh | ⟨ptr,block,rfl,r',before,mine,rfl⟩
    · exact stays r before
    · exact fresh.recorded
    · obtain ⟨op,deleter,rfl⟩ := Option.map_eq_some_iff.mp mine
      obtain ⟨b,known,at_,index⟩ := inv.held.reads (.operation op) ptr block (by simp [poolConfig,left])
      have pointer := (recorded r' before).gives op deleter (.reclaim ptr block) (by simp [left]) ptr rfl
      have size : (blockBytes block.index).map (ptr - headerBytes,·) = some (b.base,b.bytes) := by
        rw [index,inv.stored.sized b known,← at_,Block.pointer,Nat.add_sub_cancel]
        rfl
      exact (stays r' before).takeBack (by simp [deleter]) (blocks b known) (by rw [at_,pointer]) size

/-- A call of the pool, with which an array may be deleted. -/
theorem accept_keeps {e : MemoryPool.Event} (kept : Kept c) (idle : c.threads ((MemoryPool.machine upstream).party e) = [])
    (accepted : MemoryPool.accept e c.shared.pool = some (t.pool,new))
    (arrays : ∀ r ∈ t.arrays, r ∈ c.shared.arrays ∨ ∃ op, ∃ r' ∈ c.shared.arrays, e = .deallocate op r'.pointer ∧
      r = { r' with deleter := some op, destroyed := [r'.pointer] }) :
    Kept (c.put ((MemoryPool.machine upstream).party e) t new) := by
  obtain ⟨⟨lists,place,inv⟩,recorded⟩ := kept
  have frame := MemoryPool.accept_frame accepted
  refine ⟨MemoryPool.call_keeps (c := poolConfig c) upstream inv idle accepted,fun r mem => ?_⟩
  rcases arrays r mem with before | ⟨op,r',before,rfl,rfl⟩
  · refine (recorded r before).frame (fun b known => by rwa [put_shared,frame.blocks]) frame.started ?_
    intro op deleter j running ptr has
    rw [put_threads] at running
    split at running
    · next here =>
      -- an operation that starts now deletes no array yet
      obtain ⟨op',rfl⟩ := frame.gives j running ptr has
      obtain rfl : op = op' := Party.operation.inj here
      exact absurd ((recorded r before).started op deleter) (frame.starts op ptr rfl).1
    · exact ⟨j,running,has⟩
  · constructor
    · exact (recorded r' before).constructed
    · rfl
    · rintro _ ⟨⟩
      exact (frame.starts op r'.pointer rfl).2
    · rintro _ ⟨⟩ j running ptr has
      have here : Party.operation op = (MemoryPool.machine upstream).party (.deallocate op r'.pointer) := rfl
      rw [here,put_threads_self] at running
      obtain ⟨op',same⟩ := frame.gives j running ptr has
      exact (MemoryPool.Event.deallocate.inj same).2
    · intro given returned
      rw [put_shared,frame.blocks]
      exact ⟨rfl,((recorded r' before).returned given returned).2⟩

theorem call_keeps {e : Event} (kept : Kept c) (idle : c.threads ((machine upstream).party e) = [])
    (accepted : accept e c.shared = some (s,new)) : Kept (c.put ((machine upstream).party e) s new) := by
  cases e with
  | newArray op element count =>
    obtain ⟨⟨pool',new'⟩,called,same⟩ := Option.map_eq_some_iff.mp accepted
    cases same
    have idle : c.threads ((MemoryPool.machine upstream).party (.allocate op (arraySize element count))) = [] := idle
    exact accept_keeps kept idle called fun r => .inl
  | delete op k =>
    simp only [accept] at accepted
    cases at_k : c.shared.arrays[k]? with
    | none => simp [at_k] at accepted
    | some r =>
      simp only [at_k] at accepted
      split at accepted
      · cases accepted
      · obtain ⟨⟨pool',new'⟩,called,same⟩ := Option.map_eq_some_iff.mp accepted
        cases same
        have idle : c.threads ((MemoryPool.machine upstream).party (.deallocate op r.pointer)) = [] := idle
        refine accept_keeps kept idle called fun r' mem => ?_
        rcases List.mem_or_eq_of_mem_set mem with before | rfl
        · exact .inl before
        · exact .inr ⟨op,r,List.mem_of_getElem? at_k,rfl,rfl⟩
  | pool e =>
    have passed : ∃ pool', MemoryPool.accept e c.shared.pool = some (pool',new) ∧ s = { c.shared with pool := pool' } := by
      cases e with
      | deallocate op ptr =>
        simp only [accept] at accepted
        split at accepted
        · cases accepted
        · obtain ⟨⟨pool',new'⟩,called,same⟩ := Option.map_eq_some_iff.mp accepted
          cases same
          exact ⟨pool',called,rfl⟩
      | allocate op size =>
        obtain ⟨⟨pool',new'⟩,called,same⟩ := Option.map_eq_some_iff.mp accepted
        cases same
        exact ⟨pool',called,rfl⟩
      | write address byte =>
        obtain ⟨⟨pool',new'⟩,called,same⟩ := Option.map_eq_some_iff.mp accepted
        cases same
        exact ⟨pool',called,rfl⟩
    obtain ⟨pool',called,rfl⟩ := passed
    have idle : c.threads ((MemoryPool.machine upstream).party e) = [] := idle
    exact accept_keeps kept idle called fun r => .inl

theorem reach_kept {memory : Store} (reach : Reach (machine upstream) Any (initial memory) c) : Kept c :=
  reach.invariant
    ⟨⟨_,_,show Invariant (poolConfig (initial memory)) _ _ from MemoryPool.initial_invariant memory⟩,
      fun r mem => by simp [initial] at mem⟩
    (fun _ _ _ _ _ _ kept _ left ran => run_keeps kept left ran)
    (fun _ _ _ _ kept _ idle accepted => call_keeps kept idle accepted)

/-- The pool takes back the blocks of all released arrays, and one element of each of them is
    destroyed. -/
theorem released_iff {memory : Store} (reach : Reach (machine upstream) Any (initial memory) c) (mem : r ∈ c.shared.arrays)
    (given : r.returned.isSome = true) : Released c.shared r ↔ r.count = 1 := by
  have recorded := (reach_kept reach).recorded r mem
  have constructed := recorded.constructed
  have destroyed := recorded.destroyed
  obtain ⟨g,given⟩ := Option.isSome_iff_exists.mp given
  obtain ⟨deleted,b,known,at_,same⟩ := recorded.returned g given
  rw [if_pos deleted] at destroyed
  constructor
  · rintro ⟨_,balanced,_⟩
    omega
  · intro one
    exact ⟨constructed,by omega,b,known,at_,by rw [given,same]⟩

/-! ### Arrays from `new` -/

/-- The two forms of `operator new` and `operator delete`. -/
inductive Form where
  | object
  | array
  deriving DecidableEq

/-- Memory that a form of `operator new` has returned, or a form of `operator delete` gets back. -/
structure Memory where
  form : Form
  address : Nat
  bytes : Nat
  deriving DecidableEq

/-- What `new T[size]` obtains and constructs, where the elements come after `cookie` bytes. -/
structure NewArray where
  obtained : Memory
  pointer : Nat
  constructed : List Nat

/-- `new_delete_allocator::async_new_array`. -/
def newArray (address cookie element count : Nat) : NewArray where
  obtained := ⟨.array,address,cookie + element * count⟩
  pointer := address + cookie
  constructed := elements (address + cookie) element count

/-- `delete_operation::start`: `std::destroy_at`, and `std::allocator<T>().deallocate(pointer, 1)`. -/
def deleteOperation (element pointer : Nat) : List Nat × Memory := ([pointer],⟨.object,pointer,element⟩)

/-- As many elements are destroyed as were constructed, and the memory goes back to the form that it
    came from, with its address and its size. -/
def NewArray.Released (a : NewArray) (element : Nat) : Prop :=
  (deleteOperation element a.pointer).1.length = a.constructed.length ∧ (deleteOperation element a.pointer).2 = a.obtained

/-- An array of a memory pool is released as it was obtained if and only if it has one element, and
    an array from `new` never is. -/
theorem arrays_released_iff {memory : Store} (reach : Reach (machine upstream) Any (initial memory) c) :
    (∀ r ∈ c.shared.arrays, r.returned.isSome = true → (Released c.shared r ↔ r.count = 1)) ∧
    ∀ address cookie element count, ¬ (newArray address cookie element count).Released element :=
  ⟨fun _ mem given => released_iff reach mem given,fun _ _ _ _ released => Form.noConfusion (congrArg Memory.form released.2)⟩

/-- An array with so many elements of eight bytes is obtained from the first operation, and released
    by the second. -/
def obtainAndRelease (count : Nat) : List (Label Party Event × Nat) :=
  [(.call (.newArray 0 8 count),0),(.run (.operation 0),0),(.run (.operation 0),0),(.call (.delete 1 0),0),
    (.run (.operation 1),0),(.run (.operation 1),0)]

/-- One element is constructed, and it is destroyed. -/
theorem arrays_released_one : ∃ c : Config Party System Instr,
    ∃ r ∈ c.shared.arrays, r.pointer = 4112 ∧ Released c.shared r := by
  obtain ⟨c,reach,computed⟩ := exists_of_follow (machine fun _ => some 4096) Any (initial fun _ => 255) (fun _ _ => true)
    (fun _ _ _ => trivial) (obtainAndRelease 1)
    (fun c => c.shared.arrays.any fun r => r.count = 1 ∧ r.pointer = 4112 ∧ r.returned.isSome) (by decide)
  obtain ⟨r,mem,holds⟩ := List.any_eq_true.mp computed
  obtain ⟨one,pointer,given⟩ := of_decide_eq_true holds
  exact ⟨c,r,mem,pointer,((arrays_released_iff reach).1 r mem given).mpr one⟩

/-- Of three elements that are constructed, one is destroyed. -/
theorem two_of_three_survive : ¬ ∀ c, Reach (machine fun _ => some 4096) Any (initial fun _ => 255) c →
    ∀ r ∈ c.shared.arrays, r.returned.isSome = true → Released c.shared r := by
  intro claimed
  obtain ⟨c,reach,computed⟩ := exists_of_follow (machine fun _ => some 4096) Any (initial fun _ => 255) (fun _ _ => true)
    (fun _ _ _ => trivial) (obtainAndRelease 3)
    (fun c => c.shared.arrays.any fun r =>
      r.destroyed = [4112] ∧ r.constructed = [4112,4120,4128] ∧ r.returned.isSome) (by decide)
  obtain ⟨r,mem,holds⟩ := List.any_eq_true.mp computed
  obtain ⟨destroyed,constructed,given⟩ := of_decide_eq_true holds
  have balanced := (claimed c reach r mem given).2.1
  rw [destroyed,constructed] at balanced
  exact absurd balanced (by decide)

end SendersIo.ArrayAllocators
