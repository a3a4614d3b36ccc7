import SendersIo.MemoryResource

/-!
A memory pool over a buffer, as every thread of the benchmark has one. The resource cuts its
blocks off the front of the buffer, one behind the other, and takes none of them back.
-/
namespace SendersIo.MonotonicPool
open SendersIo.Bytes SendersIo.Interleaving SendersIo.SizeClasses
open SendersIo.LinkedLists (Chain)
open SendersIo.MemoryPool (Pool Party Instr Event Invariant Apart Small Roomy)
open SendersIo.MemoryResource (sized poolConfig)

/-- `alignof(max_align_t)`, the alignment of every allocation of the pool. -/
def maxAlign : Nat := 16

/-- The first multiple of the alignment from an address on. -/
def alignUp (alignment ptr : Nat) : Nat := (ptr + alignment - 1) / alignment * alignment

/-- `std::align`: where so many bytes fit first, and the space from there on. -/
def align (alignment bytes ptr space : Nat) : Option (Nat × Nat) :=
  let aligned := alignUp alignment ptr
  if bytes + (aligned - ptr) ≤ space then some (aligned,space - (aligned - ptr)) else none

/-- `monotonic_buffer_resource`: where what is left of the buffer begins, and its size. -/
structure MonotonicBuffer where
  buffer : Nat
  size : Nat

/-- `monotonic_buffer_resource::do_allocate`. -/
def MonotonicBuffer.doAllocate (m : MonotonicBuffer) (bytes alignment : Nat) : Option Nat × MonotonicBuffer :=
  match align alignment bytes m.buffer m.size with
  | none => (none,m)
  | some (ptr,space) => (some ptr,if bytes ≤ space then ⟨ptr + bytes,space - bytes⟩ else ⟨ptr,space⟩)

/-- `memory_resource::allocate`. -/
def MonotonicBuffer.allocate (m : MonotonicBuffer) (bytes : Nat) : Option Nat × MonotonicBuffer :=
  match m.doAllocate bytes maxAlign with
  | (none,m) => (none,m)
  -- `::operator new(bytes, do_allocate(bytes, alignment))`
  | (some _,m) => m.doAllocate bytes maxAlign

/-- The `upstream` and the `pool` of `thread_state`. -/
structure System where
  pool : Pool
  upstream : MonotonicBuffer

/-- The pool takes what its step makes of it. -/
def System.lift (s : System) (out : List (Pool × List Instr)) : List (System × List Instr) :=
  out.map fun (pool,new) => ({ s with pool },new)

/-- `allocate_operation::start`, under the lock, when the free list of the class is
    empty. A block without room for the header is written past its end. -/
def start (s : System) (op : Nat) (i : Fin 32) : List (System × List Instr) :=
  match blockBytes i with
  | none => []
  | some bytes =>
    let (ptr,upstream) := s.upstream.allocate bytes
    if ptr.isSome ∧ bytes < headerBytes then []
    else { s with upstream }.lift (MemoryPool.allocate (fun _ => ptr) s.pool op i)

def exec : Instr → System → List (System × List Instr)
  | .allocate op i,s =>
    if s.pool.blockLists i = 0 then start s op i
    else s.lift (MemoryPool.allocate (fun _ => none) s.pool op i)
  | j,s => s.lift (MemoryPool.exec (fun _ => none) j s.pool)

def machine : Machine Party System Instr Event where
  exec _ := exec
  accept e s := (MemoryPool.accept e s.pool).map fun (pool,prog) => ({ s with pool },prog)
  party := (MemoryPool.machine fun _ => none).party

/-- The pool is constructed over a buffer, given by its address and size. -/
def initial (memory : Store) (buffer size : Nat) : Config Party System Instr where
  shared := ⟨(MemoryPool.initial memory).shared,⟨buffer,size⟩⟩
  threads _ := []

/-- The pool with what its parties have left. -/
def pools (c : Config Party System Instr) : Config Party Pool Instr := ⟨c.shared.pool,c.threads⟩

/-- The requests are small enough for the classes below 30. -/
def Moderate (c : Config Party System Instr) : Label Party Event → Prop := Small (pools c)

/-- No block of the given size fits in what is left. -/
def MonotonicBuffer.Exhausted (m : MonotonicBuffer) (bytes : Nat) : Prop :=
  m.buffer + m.size < alignUp maxAlign m.buffer + bytes

variable {m m' : MonotonicBuffer} {bytes buffer size alignment a b : Nat} {ptr : Option Nat} {memory : Store}
  {c c' : Config Party System Instr} {s s' : System} {p : Party} {j : Instr} {rest new : List Instr}
  {returned : List (Nat × Nat)} {i : Fin 32}

/-! ### The buffer -/

theorem dvd_alignUp : alignment ∣ alignUp alignment a := Nat.dvd_mul_left _ _

theorem le_alignUp (positive : 0 < alignment) : a ≤ alignUp alignment a := by
  have := Nat.lt_div_mul_add (a := a + alignment - 1) positive
  simp only [alignUp]
  omega

theorem alignUp_mono (le : a ≤ b) : alignUp alignment a ≤ alignUp alignment b :=
  Nat.mul_le_mul_right _ (Nat.div_le_div_right (by omega))

theorem maxAlign_pos : 0 < maxAlign := by decide

/-- The block is the first that is aligned, if it fits; the second test of the source never fails. -/
theorem doAllocate_eq (m : MonotonicBuffer) (bytes : Nat) :
    m.doAllocate bytes maxAlign =
      if alignUp maxAlign m.buffer + bytes ≤ m.buffer + m.size then
        (some (alignUp maxAlign m.buffer),
          ⟨alignUp maxAlign m.buffer + bytes,m.buffer + m.size - (alignUp maxAlign m.buffer + bytes)⟩)
      else (none,m) := by
  have above : m.buffer ≤ alignUp maxAlign m.buffer := le_alignUp maxAlign_pos
  simp only [MonotonicBuffer.doAllocate,align]
  split
  · next unfit =>
    split at unfit
    · cases unfit
    · rw [if_neg (by omega)]
  · next base space fit =>
    split at fit
    · cases fit
      rw [if_pos (by omega),if_pos (by omega)]
      congr 2
      omega
    · cases fit

theorem doAllocate_none : (m.doAllocate bytes maxAlign).1 = none ↔ m.Exhausted bytes := by
  rw [doAllocate_eq,MonotonicBuffer.Exhausted]
  split
  · simp only [reduceCtorEq,false_iff]
    omega
  · simp only [true_iff]
    omega

/-- What is left of the buffer begins later, and ends where it did. -/
structure Shrinks (m m' : MonotonicBuffer) : Prop where
  ends : m'.buffer + m'.size = m.buffer + m.size
  begins : m.buffer ≤ m'.buffer

theorem doAllocate_shrinks (m : MonotonicBuffer) (bytes : Nat) : Shrinks m (m.doAllocate bytes maxAlign).2 := by
  have above : m.buffer ≤ alignUp maxAlign m.buffer := le_alignUp maxAlign_pos
  rw [doAllocate_eq]
  split
  · constructor <;> simp only <;> omega
  · exact ⟨rfl,le_rfl⟩

theorem allocate_shrinks (m : MonotonicBuffer) (bytes : Nat) : Shrinks m (m.allocate bytes).2 := by
  have first := doAllocate_shrinks m bytes
  simp only [MonotonicBuffer.allocate]
  split
  · next m' failed => rwa [failed] at first
  · next base m' got =>
    rw [got] at first
    have second := doAllocate_shrinks m' bytes
    exact ⟨second.ends.trans first.ends,first.begins.trans second.begins⟩

/-- A buffer that is too small for a block stays so. -/
theorem Shrinks.exhausted (shrinks : Shrinks m m') (exhausted : m.Exhausted bytes) : m'.Exhausted bytes := by
  have later : alignUp maxAlign m.buffer ≤ alignUp maxAlign m'.buffer := alignUp_mono shrinks.begins
  have := shrinks.ends
  simp only [MonotonicBuffer.Exhausted] at *
  omega

/-- An allocation that fails leaves a buffer that is too small for the block. -/
theorem allocate_none (failed : (m.allocate bytes).1 = none) : (m.allocate bytes).2.Exhausted bytes := by
  simp only [MonotonicBuffer.allocate] at failed ⊢
  split
  · next m' none =>
    have exhausted := doAllocate_none.mp (congrArg Prod.fst none)
    have shrinks := doAllocate_shrinks m bytes
    rw [none] at shrinks
    exact shrinks.exhausted exhausted
  · next base m' got =>
    rw [got] at failed
    exact (doAllocate_shrinks m' bytes).exhausted (doAllocate_none.mp failed)

theorem allocate_exhausted (exhausted : m.Exhausted bytes) : m.allocate bytes = (none,m) := by
  have fails : m.doAllocate bytes maxAlign = (none,m) := by
    rw [doAllocate_eq,if_neg]
    simp only [MonotonicBuffer.Exhausted] at exhausted
    omega
  simp only [MonotonicBuffer.allocate,fails]

/-! ### The pool over any resource -/

/-- The blocks that were cut off the buffer lie in the part of it that is not left. -/
structure Supplied (buffer size : Nat) (m : MonotonicBuffer) (returned : List (Nat × Nat)) : Prop where
  real : buffer ≠ 0
  space : buffer + size ≤ 2 ^ 64
  ends : m.buffer + m.size = buffer + size
  used : buffer + (returned.map Prod.snd).sum ≤ m.buffer
  inside : ∀ b ∈ returned, buffer ≤ b.1 ∧ b.1 + b.2 ≤ m.buffer ∧ maxAlign ∣ b.1

theorem Supplied.doAllocate (supplied : Supplied buffer size m returned)
    (asked : m.doAllocate bytes maxAlign = (ptr,m')) :
    Supplied buffer size m' (returned ++ sized ptr bytes) ∧
      ∀ base, ptr = some base → base ≠ 0 ∧ base + bytes ≤ 2 ^ 64 ∧ m.buffer ≤ base := by
  obtain ⟨real,space,ends,used,inside⟩ := supplied
  have above : m.buffer ≤ alignUp maxAlign m.buffer := le_alignUp maxAlign_pos
  rw [doAllocate_eq] at asked
  split at asked
  · cases asked
    refine ⟨⟨real,space,by simp only; omega,by simp [sized]; omega,fun b member => ?_⟩,?_⟩
    · rcases List.mem_append.mp member with before | now
      · obtain ⟨low,high,aligned⟩ := inside b before
        exact ⟨low,by simp only; omega,aligned⟩
      · obtain rfl := List.mem_singleton.mp now
        exact ⟨by simp only; omega,le_rfl,dvd_alignUp⟩
    · rintro base ⟨⟩
      exact ⟨by omega,by omega,above⟩
  · cases asked
    exact ⟨⟨real,space,ends,by simpa [sized] using used,by simpa [sized] using inside⟩,by simp⟩

/-- The resource gives these answers from its k-th call on. -/
def Answers (resource : Nat → Option Nat) (k : Nat) (answers : List (Option Nat)) : Prop :=
  ∀ n < answers.length, answers[n]? = some (resource (k + n))

theorem answers_append {resource : Nat → Option Nat} {k : Nat} {answers later : List (Option Nat)} :
    Answers resource k (answers ++ later) ↔
      Answers resource k answers ∧ Answers resource (k + answers.length) later := by
  constructor
  · intro all
    refine ⟨fun n less => ?_,fun n less => ?_⟩
    · simpa [List.getElem?_append_left less] using all n (by simp; omega)
    · simpa [List.getElem?_append_right,Nat.add_assoc] using all (answers.length + n) (by simp; omega)
  · rintro ⟨first,second⟩ n less
    by_cases early : n < answers.length
    · rw [List.getElem?_append_left early]
      exact first n early
    · rw [List.getElem?_append_right (by omega)]
      have := second (n - answers.length) (by simp at less; omega)
      rwa [show k + answers.length + (n - answers.length) = k + n by omega] at this

theorem answers_singleton {resource : Nat → Option Nat} {k : Nat} : Answers resource k [ptr] ↔ resource k = ptr := by
  simp [Answers,eq_comm]

/-- A resource that answers as the buffer does gives the same block. -/
theorem doAllocate_simulated {d : MemoryResource.System} (supplied : Supplied buffer size m d.returned)
    (asked : m.doAllocate bytes maxAlign = (ptr,m')) {resource : Nat → Option Nat}
    (answers : Answers resource d.calls [ptr]) :
    MemoryResource.doAllocate resource d bytes =
      some (ptr,{ d with calls := d.calls + 1, returned := d.returned ++ sized ptr bytes }) := by
  have fresh := (supplied.doAllocate asked).2
  rw [MemoryResource.doAllocate,answers_singleton.mp answers]
  cases ptr with
  | none => simp [sized]
  | some base =>
    obtain ⟨real,space,above⟩ := fresh base rfl
    simp only
    rw [if_pos]
    · simp [sized]
    · refine ⟨real,space,fun b member => .inr ?_⟩
      exact (supplied.inside b member).2.1.trans above

/-- What the two calls of `memory_resource::allocate` do to a resource that answers as the buffer does. -/
structure Asked (buffer size bytes : Nat) (d d' : MemoryResource.System) (ptr : Option Nat) (m' : MonotonicBuffer)
    (answers : List (Option Nat)) : Prop where
  simulated : ∀ resource, Answers resource d.calls answers →
    MemoryResource.resourceAllocate resource d bytes = some (ptr,d')
  pool : d'.pool = d.pool
  calls : d'.calls = d.calls + answers.length
  supplied : Supplied buffer size m' d'.returned
  doubled : (d.returned.map Prod.snd).sum + 2 * ((sized ptr bytes).map Prod.snd).sum ≤ (d'.returned.map Prod.snd).sum

theorem allocate_simulated {d : MemoryResource.System} (supplied : Supplied buffer size m d.returned)
    (asked : m.allocate bytes = (ptr,m')) : ∃ d' answers, Asked buffer size bytes d d' ptr m' answers := by
  cases first : m.doAllocate bytes maxAlign with
  | mk got m₁ =>
    have supplied₁ := (supplied.doAllocate first).1
    rw [MonotonicBuffer.allocate,first] at asked
    cases got with
    | none =>
      cases asked
      refine ⟨{ d with calls := d.calls + 1, returned := d.returned ++ sized none bytes },[none],?_,rfl,rfl,supplied₁,by
        simp [sized]⟩
      intro resource answers
      rw [MemoryResource.resourceAllocate,doAllocate_simulated supplied first answers]
      rfl
    | some base =>
      let d₁ : MemoryResource.System :=
        { d with calls := d.calls + 1, returned := d.returned ++ sized (some base) bytes }
      have known : Supplied buffer size m₁ d₁.returned := supplied₁
      refine ⟨{ d₁ with calls := d₁.calls + 1, returned := d₁.returned ++ sized ptr bytes },[some base] ++ [ptr],
        ?_,rfl,rfl,(known.doAllocate asked).1,?_⟩
      · intro resource answers
        obtain ⟨one,two⟩ := answers_append.mp answers
        rw [MemoryResource.resourceAllocate,doAllocate_simulated supplied first one]
        exact doAllocate_simulated known asked two
      · cases ptr with
        | none => simp [d₁,sized]
        | some base => simp [d₁,sized]; omega

/-- What a step does: the pool goes on by itself, or a start asks for a block of its class, which
    has none. -/
inductive Ran (j : Instr) (s s' : System) (new : List Instr) : Prop
  | quiet : (s'.pool,new) ∈ MemoryPool.exec (fun _ => none) j s.pool → s'.upstream = s.upstream →
      (∀ op i, j = .allocate op i → s.pool.blockLists i ≠ 0) → Ran j s s' new
  | asked (op : Nat) (i : Fin 32) (bytes : Nat) (ptr : Option Nat) : j = .allocate op i → s.pool.blockLists i = 0 →
      blockBytes i = some bytes → s.upstream.allocate bytes = (ptr,s'.upstream) → (ptr.isSome → headerBytes ≤ bytes) →
      (s'.pool,new) ∈ MemoryPool.allocate (fun _ => ptr) s.pool op i → Ran j s s' new

theorem mem_lift {out : List (Pool × List Instr)} : (s',new) ∈ s.lift out ↔
    (s'.pool,new) ∈ out ∧ s'.upstream = s.upstream := by
  constructor
  · intro member
    obtain ⟨⟨pool,new'⟩,inside,same⟩ := List.mem_map.mp member
    cases same
    exact ⟨inside,rfl⟩
  · rintro ⟨inside,same⟩
    refine List.mem_map.mpr ⟨_,inside,?_⟩
    rw [← same]

theorem ran_of_mem (ran : (s',new) ∈ exec j s) : Ran j s s' new := by
  have quiet : (s',new) ∈ s.lift (MemoryPool.exec (fun _ => none) j s.pool) →
      (∀ op i, j = .allocate op i → s.pool.blockLists i ≠ 0) → Ran j s s' new :=
    fun ran free => .quiet (mem_lift.mp ran).1 (mem_lift.mp ran).2 free
  cases j with
  | allocate op i =>
    simp only [exec] at ran
    split at ran
    · next nothing =>
      simp only [start] at ran
      cases size : blockBytes i with
      | none => simp [size] at ran
      | some bytes =>
        simp only [size] at ran
        split at ran
        · cases ran
        · next room =>
          obtain ⟨ran,same⟩ := mem_lift.mp ran
          exact .asked op i bytes _ rfl nothing size (by rw [same]) (fun some => by simpa [some] using room) ran
    · next free => exact quiet ran (by rintro _ _ ⟨⟩; exact free)
  | setValue op x => exact quiet ran (by simp)
  | readHeader x => exact quiet ran (by simp)
  | reclaim x block => exact quiet ran (by simp)
  | complete op => exact quiet ran (by simp)

theorem Ran.shrinks (ran : Ran j s s' new) : Shrinks s.upstream s'.upstream := by
  cases ran with
  | quiet _ same _ => exact same ▸ ⟨rfl,le_rfl⟩
  | asked op i bytes ptr _ _ _ got _ _ =>
    have := allocate_shrinks s.upstream bytes
    rwa [got] at this

/-- The pool over the buffer, and the one over a resource that answers as the buffer does. -/
structure Simulates (buffer size : Nat) (c : Config Party System Instr) (d : Config Party MemoryResource.System Instr) :
    Prop where
  pool : d.shared.pool = c.shared.pool
  threads : d.threads = c.threads
  supplied : Supplied buffer size c.shared.upstream d.shared.returned
  doubled : 2 * (c.shared.pool.obtained.map Prod.snd).sum ≤ (d.shared.returned.map Prod.snd).sum

/-- A step over the buffer is one over the resource. -/
theorem run_simulated {d : Config Party MemoryResource.System Instr} (simulates : Simulates buffer size c d)
    (left : c.threads p = j :: rest) (ran : Ran j c.shared s new) : ∃ d' answers,
    Simulates buffer size (c.put p s (new ++ rest)) d' ∧ d'.shared.calls = d.shared.calls + answers.length ∧
    ∀ resource, Answers resource d.shared.calls answers → d' ∈ (MemoryResource.machine resource).next d (.run p) := by
  obtain ⟨same,threads,supplied,doubled⟩ := simulates
  have moved : ∀ (resource : Nat → Option Nat) (t : MemoryResource.System),
      (t,new) ∈ MemoryResource.exec resource j d.shared →
      d.put p t (new ++ rest) ∈ (MemoryResource.machine resource).next d (.run p) := fun resource t ran =>
    (mem_next_run (MemoryResource.machine resource)).mpr ⟨j,rest,t,new,by rw [threads,left],ran,rfl⟩
  have puts : ∀ t : MemoryResource.System, (d.put p t (new ++ rest)).threads = (c.put p s (new ++ rest)).threads :=
    fun t => by simp [Config.put,threads]
  cases ran with
  | quiet ran kept free =>
    refine ⟨d.put p { d.shared with pool := s.pool } (new ++ rest),[],⟨rfl,puts _,by simpa [kept] using supplied,?_⟩,
      rfl,fun resource _ => moved resource _ ?_⟩
    · rw [put_shared,put_shared,MemoryResource.obtained_exec ran]
      exact doubled
    · have lifted : ({ d.shared with pool := s.pool },new) ∈
          d.shared.lift (MemoryPool.exec (fun _ => none) j d.shared.pool) :=
        List.mem_map.mpr ⟨_,by rwa [same],rfl⟩
      cases j with
      | allocate op i => simpa only [MemoryResource.exec,MemoryPool.exec,same,if_neg (free op i rfl)] using lifted
      | setValue op x => exact lifted
      | readHeader x => exact lifted
      | reclaim x block => exact lifted
      | complete op => exact lifted
  | asked op i bytes ptr here nothing class_ got room ran =>
    subst here
    obtain ⟨d',answers,simulated,pool,calls,supplied',twice⟩ := allocate_simulated supplied got
    refine ⟨d.put p { d' with pool := s.pool } (new ++ rest),answers,⟨rfl,puts _,supplied',?_⟩,calls,
      fun resource agree => moved resource _ ?_⟩
    · rw [put_shared,put_shared,MemoryResource.obtained_allocate class_ nothing ran]
      simp only [List.map_append,List.sum_append]
      omega
    · simp only [MemoryResource.exec,same,if_pos nothing,MemoryResource.start,class_,simulated resource agree]
      rw [if_neg fun short => absurd (room short.1) (by omega)]
      refine List.mem_map.mpr ⟨(s.pool,new),?_,rfl⟩
      rwa [pool,same]

theorem call_simulated {d : Config Party MemoryResource.System Instr} {e : Event} {prog : List Instr}
    (simulates : Simulates buffer size c d) (idle : c.threads (machine.party e) = [])
    (accepted : machine.accept e c.shared = some (s,prog)) : ∃ d',
    Simulates buffer size (c.put (machine.party e) s prog) d' ∧ d'.shared.calls = d.shared.calls ∧
    ∀ resource, d' ∈ (MemoryResource.machine resource).next d (.call e) := by
  obtain ⟨same,threads,supplied,doubled⟩ := simulates
  obtain ⟨⟨pool,prog'⟩,accepted,lifted⟩ := Option.map_eq_some_iff.mp accepted
  cases lifted
  refine ⟨d.put (machine.party e) { d.shared with pool } prog,⟨rfl,by simp [Config.put,threads],supplied,?_⟩,rfl,
    fun resource => ?_⟩
  · rw [put_shared,MemoryResource.obtained_accept accepted]
    exact doubled
  · refine (mem_next_call (MemoryResource.machine resource)).mpr ⟨_,prog,by rw [threads]; exact idle,?_,rfl⟩
    exact Option.map_eq_some_iff.mpr ⟨_,by rwa [same],rfl⟩

/-- Every run over the buffer is one over a resource that answers as the buffer does. -/
theorem reach_simulated (real : buffer ≠ 0) (space : buffer + size ≤ 2 ^ 64)
    (reach : Reach machine Moderate (initial memory buffer size) c) : ∃ d answers, Simulates buffer size c d ∧
    d.shared.calls = answers.length ∧ ∀ resource, Answers resource 0 answers →
      Reach (MemoryResource.machine resource) Any (MemoryResource.initial memory) d := by
  refine reach.invariant (I := fun c => ∃ d answers, Simulates buffer size c d ∧ d.shared.calls = answers.length ∧
    ∀ resource, Answers resource 0 answers →
      Reach (MemoryResource.machine resource) Any (MemoryResource.initial memory) d) ?_ ?_ ?_
  · refine ⟨MemoryResource.initial memory,[],⟨rfl,rfl,⟨real,space,rfl,?_,?_⟩,?_⟩,rfl,fun _ _ => .start⟩
    · simp [initial,MemoryResource.initial]
    · simp [MemoryResource.initial]
    · simp [initial,MemoryPool.initial,Pool.obtained]
  · rintro c p j rest s new ⟨d,answers,simulates,calls,reach⟩ _ left ran
    obtain ⟨d',later,simulates',calls',moved⟩ := run_simulated simulates left (ran_of_mem ran)
    refine ⟨d',answers ++ later,simulates',by rw [calls',calls,List.length_append],fun resource agree => ?_⟩
    obtain ⟨before,now⟩ := answers_append.mp agree
    rw [Nat.zero_add] at now
    exact .step (reach resource before) trivial (moved resource (by rwa [calls]))
  · rintro c e s prog ⟨d,answers,simulates,calls,reach⟩ _ idle accepted
    obtain ⟨d',simulates',calls',moved⟩ := call_simulated simulates idle accepted
    exact ⟨d',answers,simulates',calls'.trans calls,
      fun resource agree => .step (reach resource agree) trivial (moved resource)⟩

/-! ### What the operations get -/

section Pools
variable {pool pool' : Pool} {d : Config Party Pool Instr} {upstream : Nat → Option Nat} {lists : Fin 32 → List Nat}
  {place : Nat → MemoryPool.Place} {op x : Nat}

/-- The pointer is that of a block of the operation's class. -/
def Gets (pool : Pool) (op ptr : Nat) : Prop :=
  op ∈ pool.started ∧ ∃ b ∈ pool.blocks, b.pointer = ptr ∧ pool.index op = some b.index

/-- Every operation gets a block of its class. -/
structure Served (d : Config Party Pool Instr) : Prop where
  completed : ∀ op x, (op,some x) ∈ d.shared.completions → Gets d.shared op x
  passing : ∀ p op x, .setValue op x ∈ d.threads p → Gets d.shared op x

theorem started_of_allocate (queued : MemoryPool.Queued d) {i : Fin 32} (here : .allocate op i ∈ d.threads p) :
    op ∈ d.shared.started := by
  by_contra unknown
  exact (queued.fresh op unknown).1 p i here

/-- No started operation changes its class, and no block goes away. -/
structure Grows (pool pool' : Pool) : Prop where
  started : ∀ op ∈ pool.started, op ∈ pool'.started ∧ pool'.index op = pool.index op
  blocks : ∀ b ∈ pool.blocks, b ∈ pool'.blocks

theorem Grows.gets (grows : Grows pool pool') (gets : Gets pool op x) : Gets pool' op x := by
  obtain ⟨known,b,member,at_,class_⟩ := gets
  obtain ⟨known',same⟩ := grows.started op known
  exact ⟨known',b,grows.blocks b member,at_,by rw [same,class_]⟩

/-- A step after which all completions are known to be sound, and all that is passed on. -/
theorem Served.put (served : Served d) (grows : Grows d.shared pool')
    (completed : ∀ op x, (op,some x) ∈ pool'.completions → (op,some x) ∈ d.shared.completions ∨ Gets pool' op x)
    (passing : ∀ op x, .setValue op x ∈ new → Gets pool' op x) (left : d.threads p = j :: rest) :
    Served (d.put p pool' (new ++ rest)) where
  completed op x member := (completed op x member).elim (fun before => grows.gets (served.completed op x before)) id
  passing q op x member := by
    rcases mem_of_mem_put left member with now | before
    · exact passing op x now
    · exact grows.gets (served.passing q op x before)

/-- What a step of the pool does. -/
inductive PoolStep (upstream : Nat → Option Nat) (pool : Pool) : Instr → Pool → List Instr → Prop
  | waits (op : Nat) (i : Fin 32) : pool.blockLists i = 0 → upstream op = none →
      PoolStep upstream pool (.allocate op i)
        { pool with pending := Function.update pool.pending i (pool.pending i ++ [op]) } []
  | obtains (op : Nat) (i : Fin 32) (base bytes : Nat) : pool.blockLists i = 0 → upstream op = some base →
      PoolStep upstream pool (.allocate op i)
        { pool with
          memory := MemoryPool.writeHeader pool.memory base ⟨0,i⟩
          blocks := pool.blocks ++ [⟨base,i,bytes⟩] } [.setValue op (base + headerBytes)]
  | reuses (op : Nat) (i : Fin 32) : pool.blockLists i ≠ 0 →
      PoolStep upstream pool (.allocate op i)
        { pool with blockLists := Function.update pool.blockLists i (pool.link (pool.blockLists i)) }
        [.setValue op (pool.blockLists i + headerBytes)]
  | sets (op x : Nat) : PoolStep upstream pool (.setValue op x)
      { pool with received := pool.received ++ [x], completions := pool.completions ++ [(op,some x)] } []
  | reads (x : Nat) (new : List Instr) : (∀ j ∈ new, ∃ block, j = .reclaim x block) →
      PoolStep upstream pool (.readHeader x) pool new
  | hands (x : Nat) (block : MemoryPool.MemoryBlock) (i : Fin 32) (op : Nat) (rest : List Nat) :
      pool.pending i = op :: rest → PoolStep upstream pool (.reclaim x block)
        { pool with pending := Function.update pool.pending i rest, result := Function.update pool.result op x }
        [.complete op]
  | frees (x : Nat) (block : MemoryPool.MemoryBlock) (i : Fin 32) (memory : Store) (base : Nat) :
      pool.pending i = [] → PoolStep upstream pool (.reclaim x block)
        { pool with memory, blockLists := Function.update pool.blockLists i base } []
  | completes (op : Nat) (received : List Nat) (x : Option Nat) : (∀ y, x = some y → y = pool.result op) →
      PoolStep upstream pool (.complete op) { pool with received, completions := pool.completions ++ [(op,x)] } []

theorem poolStep_of_mem (ran : (pool',new) ∈ MemoryPool.exec upstream j pool) : PoolStep upstream pool j pool' new := by
  cases j with
  | allocate op i =>
    simp only [MemoryPool.exec,MemoryPool.allocate] at ran
    split at ran
    · next nothing =>
      split at ran
      · cases ran
      · next none =>
        cases List.mem_singleton.mp ran
        exact .waits op i nothing none
      · next bytes base _ some =>
        split at ran
        · cases List.mem_singleton.mp ran
          exact .obtains op i base bytes nothing some
        · cases ran
    · next free =>
      cases List.mem_singleton.mp ran
      exact .reuses op i free
  | setValue op x =>
    cases List.mem_singleton.mp ran
    exact .sets op x
  | readHeader x =>
    cases List.mem_singleton.mp ran
    refine .reads x _ fun j member => ?_
    split at member
    · cases member
    · exact ⟨_,List.mem_singleton.mp member⟩
  | reclaim x block =>
    simp only [MemoryPool.exec,MemoryPool.reclaim] at ran
    split at ran
    · split at ran
      · next op rest queue =>
        cases List.mem_singleton.mp ran
        exact .hands x block _ op rest queue
      · next queue =>
        cases List.mem_singleton.mp ran
        exact .frees x block _ _ _ queue
    · cases ran
  | complete op =>
    simp only [MemoryPool.exec] at ran
    split at ran
    · cases List.mem_singleton.mp ran
      exact .completes op _ none (by simp)
    · cases List.mem_singleton.mp ran
      exact .completes op _ (some (pool.result op)) (by simp)

theorem PoolStep.grows (step : PoolStep upstream pool j pool' new) : Grows pool pool' := by
  have same : ∀ op ∈ pool.started, op ∈ pool.started ∧ pool.index op = pool.index op := fun _ known => ⟨known,rfl⟩
  cases step with
  | obtains => exact ⟨same,fun b member => List.mem_append_left _ member⟩
  | waits => exact ⟨same,fun _ member => member⟩
  | reuses => exact ⟨same,fun _ member => member⟩
  | sets => exact ⟨same,fun _ member => member⟩
  | reads => exact ⟨same,fun _ member => member⟩
  | hands => exact ⟨same,fun _ member => member⟩
  | frees => exact ⟨same,fun _ member => member⟩
  | completes => exact ⟨same,fun _ member => member⟩

theorem run_served (inv : Invariant d lists place) (served : Served d) (left : d.threads p = j :: rest)
    (ran : (pool',new) ∈ MemoryPool.exec upstream j d.shared) : Served (d.put p pool' (new ++ rest)) := by
  have step := poolStep_of_mem ran
  have grows := step.grows
  have here : j ∈ d.threads p := by simp [left]
  cases step with
  | waits op i => exact served.put grows (fun _ _ => .inl) (by simp) left
  | obtains op i base bytes =>
    refine served.put grows (fun _ _ => .inl) (fun op' x member => ?_) left
    cases List.mem_singleton.mp member
    exact ⟨started_of_allocate inv.queued here,_,List.mem_append_right _ List.mem_cons_self,rfl,
      (inv.queued.requests p op i here).1⟩
  | reuses op i free =>
    refine served.put grows (fun _ _ => .inl) (fun op' x member => ?_) left
    cases List.mem_singleton.mp member
    obtain ⟨others,first,_⟩ := (inv.stored.chain i).pop free
    have member : d.shared.blockLists i ∈ lists i := by simp [first]
    obtain ⟨b,inside,at_,index,_⟩ := (inv.stored.listed i _).mp member
    exact ⟨started_of_allocate inv.queued here,b,inside,by rw [MemoryPool.Block.pointer,at_],
      by rw [index]; exact (inv.queued.requests p op i here).1⟩
  | sets op x =>
    refine served.put grows (fun op' x' member => ?_) (by simp) left
    rcases List.mem_append.mp member with before | now
    · exact .inl before
    · cases List.mem_singleton.mp now
      exact .inr (grows.gets (served.passing p op x here))
  | reads x new only =>
    refine served.put grows (fun _ _ => .inl) (fun op' x' member => ?_) left
    obtain ⟨block,same⟩ := only _ member
    cases same
  | hands x block i op => exact served.put grows (fun _ _ => .inl) (by simp) left
  | frees x block i memory base => exact served.put grows (fun _ _ => .inl) (by simp) left
  | completes op received x result =>
    have known : op ∈ d.shared.started := by
      by_contra unknown
      exact (inv.queued.fresh op unknown).2.2 p here
    obtain ⟨b,inside,at_,_,class_⟩ := inv.held.handed p op here
    refine served.put grows (fun op' x' member => ?_) (by simp) left
    rcases List.mem_append.mp member with before | now
    · exact .inl before
    · cases List.mem_singleton.mp now
      exact .inr ⟨known,b,inside,by rw [at_,result x' rfl],class_⟩

/-- What no call changes. -/
structure Accepted (pool pool' : Pool) (prog : List Instr) : Prop where
  pending : pool'.pending = pool.pending
  blockLists : pool'.blockLists = pool.blockLists
  completions : pool'.completions = pool.completions
  nothing : ∀ op x, .setValue op x ∉ prog
  grows : Grows pool pool'

theorem accepted_of_accept {e : Event} {prog : List Instr} (accepted : MemoryPool.accept e pool = some (pool',prog)) :
    Accepted pool pool' prog := by
  have frame := MemoryPool.accept_frame accepted
  have grows : (∀ op ∈ pool.started, pool'.index op = pool.index op) → Grows pool pool' := fun same =>
    ⟨fun op known => ⟨frame.started op known,same op known⟩,fun b member => by rwa [frame.blocks]⟩
  cases e with
  | allocate op size =>
    simp only [MemoryPool.accept] at accepted
    split at accepted
    · next valid =>
      cases accepted
      refine ⟨rfl,rfl,rfl,by simp,grows fun op' known => Function.update_of_ne ?_ _ _⟩
      rintro rfl
      exact valid.1 known
    · cases accepted
  | deallocate op x =>
    simp only [MemoryPool.accept] at accepted
    split at accepted
    · cases accepted
      exact ⟨rfl,rfl,rfl,by simp,grows fun _ _ => rfl⟩
    · cases accepted
  | write address byte =>
    simp only [MemoryPool.accept] at accepted
    split at accepted
    · cases accepted
      exact ⟨rfl,rfl,rfl,by simp,grows fun _ _ => rfl⟩
    · cases accepted

theorem call_served {q : Party} {prog : List Instr} (served : Served d) (accepted : Accepted d.shared pool' prog) :
    Served (d.put q pool' prog) := by
  refine ⟨fun op x member => ?_,fun r op x member => ?_⟩
  · rw [put_shared,accepted.completions] at member
    exact accepted.grows.gets (served.completed op x member)
  · rcases MemoryPool.mem_put member with ⟨_,now⟩ | ⟨_,before⟩
    · exact absurd now (accepted.nothing op x)
    · exact accepted.grows.gets (served.passing r op x before)

/-- A step that asks nothing of the resource lets nobody begin to wait, and frees no block that
    somebody waits for. -/
theorem exec_waits (ran : (pool',new) ∈ MemoryPool.exec (fun _ => none) j pool)
    (free : ∀ op i, j = .allocate op i → pool.blockLists i ≠ 0)
    (nothing : ∀ i, pool.pending i ≠ [] → pool.blockLists i = 0) (i : Fin 32) (waits : pool'.pending i ≠ []) :
    pool.pending i ≠ [] ∧ pool'.blockLists i = 0 := by
  cases poolStep_of_mem ran with
  | waits op k none => exact absurd none (free op k rfl)
  | obtains op k base bytes none => exact absurd none (free op k rfl)
  | reuses op k some =>
    have other : i ≠ k := by
      rintro rfl
      exact some (nothing i waits)
    exact ⟨waits,by simpa only [Function.update_of_ne other] using nothing i waits⟩
  | sets => exact ⟨waits,nothing i waits⟩
  | reads => exact ⟨waits,nothing i waits⟩
  | hands x block k op rest queue =>
    have before : pool.pending i ≠ [] := by
      by_cases here : i = k
      · rw [here,queue]
        simp
      · simpa only [Function.update_of_ne here] using waits
    exact ⟨before,nothing i before⟩
  | frees x block k memory base none =>
    have other : i ≠ k := by
      rintro rfl
      exact waits none
    exact ⟨waits,by simpa only [Function.update_of_ne other] using nothing i waits⟩
  | completes => exact ⟨waits,nothing i waits⟩

/-- What a start does that asks the resource: it waits, or it has a block more. -/
structure Requested (pool pool' : Pool) (op : Nat) (i : Fin 32) (ptr : Option Nat) : Prop where
  blockLists : pool'.blockLists = pool.blockLists
  refused : ptr = none →
    pool'.pending = Function.update pool.pending i (pool.pending i ++ [op]) ∧ pool'.blocks = pool.blocks
  granted : ∀ base, ptr = some base →
    pool'.pending = pool.pending ∧ ∃ bytes, pool'.blocks = pool.blocks ++ [⟨base,i,bytes⟩]

theorem requested {i : Fin 32} (nothing : pool.blockLists i = 0)
    (ran : (pool',new) ∈ MemoryPool.allocate (fun _ => ptr) pool op i) : Requested pool pool' op i ptr := by
  have step : PoolStep (fun _ => ptr) pool (.allocate op i) pool' new := poolStep_of_mem ran
  cases step with
  | waits _ _ _ none => exact ⟨rfl,fun _ => ⟨rfl,rfl⟩,fun base some => by cases none.symm.trans some⟩
  | obtains _ _ base bytes _ some =>
    refine ⟨rfl,fun none => (by cases none.symm.trans some),fun base' some' => ⟨rfl,bytes,?_⟩⟩
    cases some.symm.trans some'
    rfl
  | reuses _ _ free => exact absurd nothing free

end Pools

/-! ### The pool over the buffer -/

/-- Whoever waits for a block of a class does so because it has none that is free, and the buffer
    has no room for one. -/
def Waits (s : System) : Prop := ∀ i, s.pool.pending i ≠ [] →
  s.pool.blockLists i = 0 ∧ ∃ bytes, blockBytes i = some bytes ∧ s.upstream.Exhausted bytes

theorem run_waits (waits : Waits s) (ran : Ran j s s' new) : Waits s' := by
  have shrinks := ran.shrinks
  intro k pending
  cases ran with
  | quiet ran _ free =>
    obtain ⟨before,nothing⟩ := exec_waits ran free (fun i queue => (waits i queue).1) k pending
    obtain ⟨_,bytes,class_,exhausted⟩ := waits k before
    exact ⟨nothing,bytes,class_,shrinks.exhausted exhausted⟩
  | asked op i bytes ptr _ nothing class_ got _ ran =>
    have before : s.pool.pending k ≠ [] → s'.pool.blockLists k = s.pool.blockLists k → s'.pool.blockLists k = 0 ∧
        ∃ bytes, blockBytes k = some bytes ∧ s'.upstream.Exhausted bytes := fun queue same => by
      obtain ⟨nothing,bytes,class_,exhausted⟩ := waits k queue
      exact ⟨same.trans nothing,bytes,class_,shrinks.exhausted exhausted⟩
    have step := requested nothing ran
    cases ptr with
    | none =>
      obtain ⟨queues,_⟩ := step.refused rfl
      by_cases here : k = i
      · subst here
        refine ⟨by rw [step.blockLists]; exact nothing,bytes,class_,?_⟩
        have failed : (s.upstream.allocate bytes).1 = none := by rw [got]
        have exhausted := allocate_none failed
        rwa [got] at exhausted
      · exact before (by simpa only [queues,Function.update_of_ne here] using pending) (by rw [step.blockLists])
    | some base => exact before (by rwa [(step.granted base rfl).1] at pending) (by rw [step.blockLists])

theorem call_waits {pool : Pool} {prog : List Instr} (waits : Waits s) (accepted : Accepted s.pool pool prog) :
    Waits { s with pool } := by
  intro i pending
  simp only [accepted.pending] at pending
  simpa only [accepted.blockLists] using waits i pending

/-- The pool over the buffer is one over a resource. -/
theorem reach_halved (real : buffer ≠ 0) (space : buffer + size ≤ 2 ^ 64)
    (reach : Reach machine Moderate (initial memory buffer size) c) :
    ∃ d, Simulates buffer size c d ∧ MemoryResource.Halved d := by
  obtain ⟨d,answers,simulates,_,reach⟩ := reach_simulated real space reach
  refine ⟨d,simulates,MemoryResource.reach_halved (reach (fun n => answers.getD n none) fun n less => ?_)⟩
  simp [List.getElem?_eq_getElem less]

theorem Simulates.pools {d : Config Party MemoryResource.System Instr} (simulates : Simulates buffer size c d) :
    poolConfig d = pools c := by
  simp [poolConfig,MonotonicPool.pools,simulates.pool,simulates.threads]

theorem reach_pool (real : buffer ≠ 0) (space : buffer + size ≤ 2 ^ 64)
    (reach : Reach machine Moderate (initial memory buffer size) c) :
    ∃ lists place, Invariant (pools c) lists place := by
  obtain ⟨d,simulates,halved⟩ := reach_halved real space reach
  exact simulates.pools ▸ halved.sound

/-- What else holds in every run. -/
structure Kept (c : Config Party System Instr) : Prop where
  roomy : Roomy (pools c)
  served : Served (pools c)
  waits : Waits c.shared

theorem reach_kept (real : buffer ≠ 0) (space : buffer + size ≤ 2 ^ 64)
    (reach : Reach machine Moderate (initial memory buffer size) c) : Kept c := by
  refine (reach.invariant (I := fun c => Reach machine Moderate (initial memory buffer size) c ∧ Kept c)
    ⟨.start,?_,?_,?_⟩ ?_ ?_).2
  · simp [Roomy,pools,initial]
  · constructor <;> simp [pools,initial,MemoryPool.initial]
  · simp [Waits,initial,MemoryPool.initial]
  · rintro c p j rest s new ⟨reach,roomy,served,waits⟩ ok left ran
    refine ⟨.step reach ok ((mem_next_run machine).mpr ⟨j,rest,s,new,left,ran,rfl⟩),?_⟩
    obtain ⟨lists,place,inv⟩ := reach_pool real space reach
    obtain ⟨upstream,moved⟩ : ∃ upstream, (s.pool,new) ∈ MemoryPool.exec upstream j c.shared.pool := by
      cases ran_of_mem ran with
      | quiet ran => exact ⟨_,ran⟩
      | asked op i bytes ptr here _ _ _ _ got =>
        subst here
        exact ⟨fun _ => ptr,got⟩
    refine ⟨fun q op i member => ?_,run_served (d := pools c) inv served left moved,run_waits waits (ran_of_mem ran)⟩
    rcases mem_of_mem_put (c := c) (s := s) left member with fresh | before
    · exact absurd fresh ((MemoryPool.exec_frame moved).requests op i)
    · exact roomy q op i before
  · rintro c e s prog ⟨reach,roomy,served,waits⟩ ok idle accepted
    refine ⟨.step reach ok ((mem_next_call machine).mpr ⟨s,prog,idle,accepted,rfl⟩),?_⟩
    obtain ⟨⟨pool,prog'⟩,accepted,lifted⟩ := Option.map_eq_some_iff.mp accepted
    cases lifted
    have frame := accepted_of_accept accepted
    refine ⟨fun q op i member => ?_,call_served (d := pools c) served frame,call_waits waits frame⟩
    rcases MemoryPool.mem_put (c := pools c) member with ⟨_,fresh⟩ | ⟨_,before⟩
    · exact MemoryPool.accept_requests_small (c := pools c) ok accepted fresh
    · exact roomy q op i before

/-- The blocks of the pool are among those that were cut off the buffer. -/
theorem Simulates.mem_returned {d : Config Party MemoryResource.System Instr} (simulates : Simulates buffer size c d)
    (halved : MemoryResource.Halved d) {b : MemoryPool.Block} (member : b ∈ c.shared.pool.blocks) :
    (b.base,b.bytes) ∈ d.shared.returned := by
  obtain ⟨lost,all,_⟩ := halved.balance
  refine all.mem_iff.mpr (List.mem_append_left _ ?_)
  rw [simulates.pool]
  exact List.mem_map_of_mem member

theorem allocate_fresh (supplied : Supplied buffer size m returned) {base : Nat}
    (got : m.allocate bytes = (some base,m')) :
    base ≠ 0 ∧ base + bytes ≤ 2 ^ 64 ∧ m.buffer ≤ base := by
  cases first : m.doAllocate bytes maxAlign with
  | mk answer m₁ =>
    have shrinks := doAllocate_shrinks m bytes
    rw [MonotonicBuffer.allocate,first] at got
    rw [first] at shrinks
    cases answer with
    | none => cases got
    | some lost =>
      obtain ⟨real,space,above⟩ := ((supplied.doAllocate first).1.doAllocate got).2 base rfl
      exact ⟨real,space,shrinks.begins.trans above⟩

/-- What has begun goes on. -/
theorem next_of_left (real : buffer ≠ 0) (space : buffer + size ≤ 2 ^ 64)
    (reach : Reach machine Moderate (initial memory buffer size) c) (left : c.threads p = j :: rest) :
    ∃ c', c' ∈ machine.next c (.run p) := by
  obtain ⟨d,simulates,halved⟩ := reach_halved real space reach
  obtain ⟨lists,place,inv⟩ := simulates.pools ▸ halved.sound
  have here : j ∈ c.threads p := by simp [left]
  refine next_of_exec machine left ?_
  change ∃ out, out ∈ exec j c.shared
  have lifted : ∀ {s : System} {out : Pool × List Instr} {all : List (Pool × List Instr)}, out ∈ all →
      ∃ t, t ∈ s.lift all :=
    fun member => ⟨_,List.mem_map_of_mem member⟩
  cases j with
  | allocate op i =>
    obtain ⟨low,high⟩ := (reach_kept real space reach).roomy p op i here
    have class_ := blockBytes_small high
    have room : 2 ^ 5 ≤ 2 ^ (i.val + 1) := Nat.pow_le_pow_right (by omega) (by omega)
    simp only [exec]
    split
    · next nothing =>
      simp only [start,class_]
      rw [if_neg (by simp only [headerBytes]; omega)]
      cases got : c.shared.upstream.allocate (2 ^ (i.val + 1)) with
      | mk ptr m' =>
        simp only [MemoryPool.allocate,if_pos nothing,class_]
        cases ptr with
        | none => exact lifted List.mem_cons_self
        | some base =>
          obtain ⟨real',space',above⟩ := allocate_fresh simulates.supplied got
          simp only
          rw [if_pos]
          · exact lifted List.mem_cons_self
          · exact ⟨real',space',fun b member =>
              .inr ((simulates.supplied.inside _ (simulates.mem_returned halved member)).2.1.trans above)⟩
    · next free =>
      simp only [MemoryPool.allocate,if_neg free]
      exact lifted List.mem_cons_self
  | setValue op x => exact lifted List.mem_cons_self
  | readHeader x => exact lifted List.mem_cons_self
  | reclaim x block =>
    obtain ⟨b,_,_,index⟩ := inv.held.reads p x block here
    have valid : block.index < 32 := by
      rw [index]
      exact b.index.isLt
    simp only [exec,MemoryPool.exec,MemoryPool.reclaim,dif_pos valid]
    split
    · exact lifted List.mem_cons_self
    · exact lifted List.mem_cons_self
  | complete op =>
    simp only [exec,MemoryPool.exec]
    split
    · exact lifted List.mem_cons_self
    · exact lifted List.mem_cons_self

/-- The blocks of the pool are aligned parts of the buffer that share no byte, and the buffer is
    twice as large as all of them; an operation gets a block of its class; and where one waits, its
    class has no free block and the buffer no room for one. -/
structure InBuffer (buffer size : Nat) (c : Config Party System Instr) : Prop where
  inside : ∀ b ∈ c.shared.pool.blocks, buffer ≤ b.base ∧ b.base + b.bytes ≤ buffer + size ∧ maxAlign ∣ b.base
  apart : c.shared.pool.blocks.Pairwise Apart
  capacity : 2 * (c.shared.pool.blocks.map MemoryPool.Block.bytes).sum ≤ size
  gets : ∀ op ptr, (op,some ptr) ∈ c.shared.pool.completions → ∃ b ∈ c.shared.pool.blocks,
    b.pointer = ptr ∧ c.shared.pool.index op = some b.index ∧ blockBytes b.index = some b.bytes
  waits : Waits c.shared

/-- In every run of small requests over a buffer, whatever callers write into the blocks that they
    have: the pool is sound and its blocks are in the buffer, and every step that has begun goes on. -/
theorem pool_stays_in_buffer (real : buffer ≠ 0) (space : buffer + size ≤ 2 ^ 64)
    (reach : Reach machine Moderate (initial memory buffer size) c) :
    (∃ lists place, Invariant (pools c) lists place) ∧ InBuffer buffer size c ∧
      ∀ p, c.threads p ≠ [] → ∃ c', c' ∈ machine.next c (.run p) := by
  obtain ⟨d,simulates,halved⟩ := reach_halved real space reach
  obtain ⟨lists,place,inv⟩ := simulates.pools ▸ halved.sound
  have kept := reach_kept real space reach
  have supplied := simulates.supplied
  have ends := supplied.ends
  refine ⟨⟨lists,place,inv⟩,⟨fun b member => ?_,inv.stored.apart,?_,fun op x done => ?_,kept.waits⟩,fun p busy => ?_⟩
  · obtain ⟨low,high,aligned⟩ := supplied.inside _ (simulates.mem_returned halved member)
    exact ⟨low,by simp only at high; omega,aligned⟩
  · have sizes : c.shared.pool.obtained.map Prod.snd = c.shared.pool.blocks.map MemoryPool.Block.bytes := by
      simp [Pool.obtained,Function.comp_def]
    have doubled := simulates.doubled
    have used := supplied.used
    rw [sizes] at doubled
    omega
  · obtain ⟨_,b,member,at_,class_⟩ := kept.served.completed op x done
    exact ⟨b,member,at_,class_,inv.stored.sized b member⟩
  · obtain ⟨j,rest,left⟩ := List.exists_cons_of_ne_nil busy
    exact next_of_left real space reach left

/-- Upstream has one block of 32 bytes to give, which takes 64 bytes of the buffer. It is used, given
    back, and then handed to an operation that waits. -/
def oneBlock : List (Label Party Event × Nat) :=
  [(.call (.allocate 0 8),0),(.run (.operation 0),0),(.run (.operation 0),0),(.call (.write 4150 7),0),
    (.call (.allocate 2 8),0),(.run (.operation 2),0),
    (.call (.deallocate 1 4144),0),(.run (.operation 1),0),(.run (.operation 1),0),(.run (.operation 1),0)]

theorem pool_stays_in_buffer_one : ∃ c, Reach machine Moderate (initial (fun _ => 255) 4096 100) c ∧
    c.shared.pool.completions = [(0,some 4144),(2,some 4144)] ∧ InBuffer 4096 100 c := by
  obtain ⟨c,reach,computed⟩ := exists_of_follow machine Moderate (initial (fun _ => 255) 4096 100)
    (fun _ l => MemoryPool.isSmall l) (fun c l => MemoryPool.small_of_isSmall (pools c) l) oneBlock
    (fun c => c.shared.pool.completions = [(0,some 4144),(2,some 4144)]) (by decide)
  exact ⟨c,reach,of_decide_eq_true computed,(pool_stays_in_buffer (by decide) (by decide) reach).2.1⟩

/-! ### Classes that ran out -/

/-- What an exhausted buffer has given to a class, no step changes. -/
structure Fixed (i : Fin 32) (bytes : Nat) (blocks : List MemoryPool.Block) (s : System) : Prop where
  exhausted : s.upstream.Exhausted bytes
  blocks : s.pool.blocks.filter (fun b => b.index = i) = blocks

theorem run_fixed {blocks : List MemoryPool.Block} (class_ : blockBytes i = some bytes) (fixed : Fixed i bytes blocks s)
    (ran : Ran j s s' new) : Fixed i bytes blocks s' := by
  refine ⟨ran.shrinks.exhausted fixed.exhausted,?_⟩
  cases ran with
  | quiet ran _ _ =>
    rcases (MemoryPool.exec_frame ran).blocks with same | ⟨_,_,_,_,⟨⟩,_⟩
    rw [same,fixed.blocks]
  | asked op k bytes' ptr _ nothing class_' got _ ran =>
    have step := requested nothing ran
    by_cases here : k = i
    · -- the class itself asks, and gets nothing
      subst here
      rw [class_] at class_'
      cases class_'
      rw [allocate_exhausted fixed.exhausted] at got
      rw [(step.refused (Prod.mk.inj got).1.symm).2,fixed.blocks]
    · cases ptr with
      | none => rw [(step.refused rfl).2,fixed.blocks]
      | some base =>
        obtain ⟨_,more⟩ := (step.granted base rfl).2
        rw [more,List.filter_append,fixed.blocks]
        simp [here]

/-- Once an operation has waited for a block of a class, the class has the blocks that it has for
    ever; and if these are none, no operation of the class ever gets a block. -/
theorem waiting_class_fixed (real : buffer ≠ 0) (space : buffer + size ≤ 2 ^ 64)
    (reach : Reach machine Moderate (initial memory buffer size) c) (waits : c.shared.pool.pending i ≠ [])
    (later : Reach machine Moderate c c') :
    c'.shared.pool.blocks.filter (fun b => b.index = i) = c.shared.pool.blocks.filter (fun b => b.index = i) ∧
    ((∀ b ∈ c.shared.pool.blocks, b.index ≠ i) →
      ∀ op ptr, c'.shared.pool.index op = some i → (op,some ptr) ∉ c'.shared.pool.completions) := by
  obtain ⟨_,bytes,class_,exhausted⟩ := (reach_kept real space reach).waits i waits
  have fixed : Fixed i bytes (c.shared.pool.blocks.filter fun b => b.index = i) c'.shared := by
    refine later.shared_invariant (I := Fixed i bytes _) ⟨exhausted,rfl⟩
      (fun _ _ _ _ _ before ran => run_fixed class_ before (ran_of_mem ran)) fun e s s' prog before accepted => ?_
    obtain ⟨⟨pool,prog'⟩,accepted,lifted⟩ := Option.map_eq_some_iff.mp accepted
    cases lifted
    exact ⟨before.exhausted,by rw [(MemoryPool.accept_frame accepted).blocks]; exact before.blocks⟩
  refine ⟨fixed.blocks,fun none op ptr class_ done => ?_⟩
  obtain ⟨_,b,member,_,index⟩ := (reach_kept real space (reach.trans later)).served.completed op ptr done
  have same : b.index = i := by
    rw [show (pools c').shared.index op = some i from class_] at index
    exact (Option.some.inj index).symm
  have inside : b ∈ c'.shared.pool.blocks.filter fun b => b.index = i := List.mem_filter.mpr ⟨member,by simp [same]⟩
  rw [fixed.blocks] at inside
  exact none b (List.mem_filter.mp inside).1 same

/-- The only block is of another class: the operation waits for ever. -/
theorem waiting_class_fixed_none : ∃ c, Reach machine Moderate (initial (fun _ => 255) 4096 100) c ∧
    c.shared.pool.pending 5 = [2] ∧ ∀ c', Reach machine Moderate c c' → ∀ op ptr, c'.shared.pool.index op = some 5 →
      (op,some ptr) ∉ c'.shared.pool.completions := by
  obtain ⟨c,reach,computed⟩ := exists_of_follow machine Moderate (initial (fun _ => 255) 4096 100)
    (fun _ l => MemoryPool.isSmall l) (fun c l => MemoryPool.small_of_isSmall (pools c) l)
    [(.call (.allocate 0 8),0),(.run (.operation 0),0),(.call (.allocate 2 40),0),(.run (.operation 2),0)]
    (fun c => c.shared.pool.pending 5 = [2] ∧ ∀ b ∈ c.shared.pool.blocks, b.index ≠ 5) (by decide)
  obtain ⟨waits,none⟩ := of_decide_eq_true computed
  exact ⟨c,reach,waits,fun c' later =>
    (waiting_class_fixed (by decide) (by decide) reach (by simp [waits]) later).2 none⟩

end SendersIo.MonotonicPool
