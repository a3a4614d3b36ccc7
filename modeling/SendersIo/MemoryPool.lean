import Mathlib.Data.List.FinRange
import Mathlib.Data.List.Pairwise
import Mathlib.Data.List.Perm.Basic
import SendersIo.Bytes
import SendersIo.Interleaving
import SendersIo.LinkedLists
import SendersIo.SizeClasses

/-!
A pool of memory blocks in 32 classes. The header of a block is in its first bytes,
and the blocks of a class that nobody has are linked through their headers. A block
that is given back goes to an operation that waits for one, or onto its free list.
-/
namespace SendersIo.MemoryPool
open SendersIo.Bytes SendersIo.Interleaving SendersIo.LinkedLists SendersIo.SizeClasses

/-- `memory_block`, the header of a block. -/
structure MemoryBlock where
  next : Nat
  index : Nat

/-- A block that was obtained upstream: its address, its class and its size. -/
structure Block where
  base : Nat
  index : Fin 32
  bytes : Nat

/-- What a caller gets of a block: the bytes behind the header. -/
def Block.pointer (b : Block) : Nat := b.base + headerBytes

/-- `memory_pool`, with the memory, the `result_` and `index_` of every operation that
    allocates, and what the environment knows: the operations that were started,
    the completions of those that allocate, the pointers that callers have received
    and not yet given back, and the blocks that were obtained upstream. -/
structure Pool where
  memory : Store
  blockLists : Fin 32 → Nat
  pending : Fin 32 → List Nat
  result : Nat → Nat
  index : Nat → Option (Fin 32)
  started : List Nat
  completions : List (Nat × Option Nat)
  received : List Nat
  blocks : List Block

/-- Who executes: an operation, by its number, or a caller that writes. -/
inductive Party where
  | operation (k : Nat)
  | caller
  deriving DecidableEq

/-- The atomic steps: the critical sections, the copy of a header that is made
    outside of them, and the completions after them. -/
inductive Instr where
  | allocate (op : Nat) (i : Fin 32)
  | setValue (op : Nat) (ptr : Nat)
  | readHeader (ptr : Nat)
  | reclaim (ptr : Nat) (block : MemoryBlock)
  | complete (op : Nat)

inductive Event where
  | allocate (op : Nat) (size : Nat)
  | deallocate (op : Nat) (ptr : Nat)
  | write (address : Nat) (byte : UInt8)

/-- The header at an address. -/
def readHeader (m : Store) (base : Nat) : MemoryBlock := ⟨load m base 8,load m (base + 8) 8⟩

def writeHeader (m : Store) (base : Nat) (block : MemoryBlock) : Store :=
  store (store m base 8 block.next) (base + 8) 8 block.index

/-- The next block of a free list. -/
def Pool.link (s : Pool) (base : Nat) : Nat := load s.memory base 8

/-- An address and a size that upstream may return: not null, in the address space,
    and apart from all blocks that it has returned. -/
def Fresh (s : Pool) (base bytes : Nat) : Prop :=
  base ≠ 0 ∧ base + bytes ≤ 2 ^ 64 ∧ ∀ b ∈ s.blocks, base + bytes ≤ b.base ∨ b.base + b.bytes ≤ base

instance (s : Pool) (base bytes : Nat) : Decidable (Fresh s base bytes) := by
  unfold Fresh; infer_instance

/-- The byte belongs to no block, or to the part of one that a caller has. -/
def Writable (s : Pool) (address : Nat) : Prop :=
  ∀ b ∈ s.blocks, b.base ≤ address → address < b.base + b.bytes → b.pointer ≤ address ∧ b.pointer ∈ s.received

instance (s : Pool) (address : Nat) : Decidable (Writable s address) := by
  unfold Writable; infer_instance

/-- `allocate_operation::start`, under the lock. `upstream` is what upstream returns
    to an operation; where that is not a fresh block, there is no entry. -/
def allocate (upstream : Nat → Option Nat) (s : Pool) (op : Nat) (i : Fin 32) : List (Pool × List Instr) :=
  if s.blockLists i = 0 then
    match blockBytes i,upstream op with
    | none,_ => []
    | some _,none => [({ s with pending := Function.update s.pending i (s.pending i ++ [op]) },[])]
    | some bytes,some base =>
      if Fresh s base bytes then
        [({ s with
            memory := writeHeader s.memory base ⟨0,i⟩
            blocks := s.blocks ++ [⟨base,i,bytes⟩] },[.setValue op (base + headerBytes)])]
      else []
  else
    [({ s with blockLists := Function.update s.blockLists i (s.link (s.blockLists i)) },
      [.setValue op (s.blockLists i + headerBytes)])]

/-- `memory_pool::reclaim_memory`, under the lock, with the header that was read
    before. A class that does not exist is not entered. -/
def reclaim (s : Pool) (ptr : Nat) (block : MemoryBlock) : List (Pool × List Instr) :=
  if valid : block.index < 32 then
    let i : Fin 32 := ⟨block.index,valid⟩
    match s.pending i with
    | op :: rest =>
      [({ s with pending := Function.update s.pending i rest, result := Function.update s.result op ptr },[.complete op])]
    | [] =>
      [({ s with
          memory := writeHeader s.memory (ptr - headerBytes) { block with next := s.blockLists i }
          blockLists := Function.update s.blockLists i (ptr - headerBytes) },[])]
  else []

/-- The effect of an instruction. -/
def exec (upstream : Nat → Option Nat) (i : Instr) (s : Pool) : List (Pool × List Instr) :=
  match i with
  | .allocate op i => allocate upstream s op i
  | .setValue op ptr =>
    [({ s with received := s.received ++ [ptr], completions := s.completions ++ [(op,some ptr)] },[])]
  | .readHeader ptr => [(s,if ptr = 0 then [] else [.reclaim ptr (readHeader s.memory (ptr - headerBytes))])]
  | .reclaim ptr block => reclaim s ptr block
  -- `complete_` of the operation that waited
  | .complete op =>
    if s.result op = 0 then [({ s with completions := s.completions ++ [(op,none)] },[])]
    else [({ s with
        received := s.received ++ [s.result op]
        completions := s.completions ++ [(op,some (s.result op))] },[])]

/-- `memory_pool::allocate` refuses a request without a class; what it returns is
    started. A caller gives back a pointer that it has, and writes where it may. -/
def accept (e : Event) (s : Pool) : Option (Pool × List Instr) :=
  match e with
  | .allocate op size =>
    if valid : op ∉ s.started ∧ classOf size < 32 then
      some ({ s with
        started := s.started ++ [op]
        index := Function.update s.index op (some ⟨classOf size,valid.2⟩) },[.allocate op ⟨classOf size,valid.2⟩])
    else none
  | .deallocate op ptr =>
    if op ∉ s.started ∧ ptr ∈ s.received then
      some ({ s with started := s.started ++ [op], received := s.received.erase ptr },[.readHeader ptr])
    else none
  | .write address byte =>
    if Writable s address then some ({ s with memory := Function.update s.memory address byte },[]) else none

def machine (upstream : Nat → Option Nat) : Machine Party Pool Instr Event where
  exec _ := exec upstream
  accept := accept
  party
    | .allocate op _ => .operation op
    | .deallocate op _ => .operation op
    | .write _ _ => .caller

/-- The pool is constructed, and nothing is known about the memory. -/
def initial (memory : Store) : Config Party Pool Instr where
  shared :=
    { memory, blockLists := fun _ => 0, pending := fun _ => [], result := fun _ => 0, index := fun _ => none
      started := [], completions := [], received := [], blocks := [] }
  threads _ := []

/-- One free list in `~memory_pool`: the arguments of the calls of
    `upstream_->deallocate`. -/
def releaseList (fuel : Nat) (s : Pool) (i : Fin 32) : Option (List (Nat × Nat)) :=
  (walk s.link fuel (s.blockLists i)).bind fun bases => bases.mapM fun base => (blockBytes i).map (base,·)

/-- `~memory_pool`. -/
def destroy (fuel : Nat) (s : Pool) : Option (List (Nat × Nat)) :=
  ((List.finRange 32).mapM (releaseList fuel s)).map List.flatten

/-- The requests are small enough for the classes below 30. -/
def Small (_ : Config Party Pool Instr) : Label Party Event → Prop
  | .call (.allocate _ size) => size + headerBytes < 2 ^ 30
  | _ => True

/-- The pointer that an operation has and that it passes on: to its receiver, or
    back to the pool. -/
def Instr.holds : Instr → Option Nat
  | .setValue _ ptr | .readHeader ptr | .reclaim ptr _ => some ptr
  | _ => none

/-- The pointer that an operation gives back to the pool. -/
def Instr.gives : Instr → Option Nat
  | .readHeader ptr | .reclaim ptr _ => some ptr
  | _ => none

/-- Where a block is: a caller has it, or the operation that passes it on; it is being
    handed to an operation that waited; or it is on a free list. -/
inductive Place where
  | caller
  | operation (p : Party)
  | waiter (p : Party) (op : Nat)
  | freeList
  deriving DecidableEq

/-! ### The invariant -/

/-- The blocks share no byte. -/
def Apart (b b' : Block) : Prop := b.base + b.bytes ≤ b'.base ∨ b'.base + b'.bytes ≤ b.base

/-- The memory: blocks with their headers, and the free lists through them. -/
structure Stored (s : Pool) (lists : Fin 32 → List Nat) (place : Nat → Place) : Prop where
  fits : ∀ b ∈ s.blocks, b.base ≠ 0 ∧ headerBytes ≤ b.bytes ∧ b.base + b.bytes ≤ 2 ^ 64
  sized : ∀ b ∈ s.blocks, blockBytes b.index = some b.bytes
  apart : s.blocks.Pairwise Apart
  chain : ∀ i, Chain s.link (s.blockLists i) (lists i)
  header : ∀ b ∈ s.blocks, load s.memory (b.base + 8) 8 = b.index
  once : ∀ i, (lists i).Nodup
  listed : ∀ i base, base ∈ lists i ↔ ∃ b ∈ s.blocks, b.base = base ∧ b.index = i ∧ place base = .freeList

/-- The callers have the blocks whose pointers they have received. -/
structure Received (s : Pool) (place : Nat → Place) : Prop where
  once : s.received.Nodup
  known : ∀ ptr, ptr ∈ s.received ↔ ∃ b ∈ s.blocks, b.pointer = ptr ∧ place b.base = .caller

/-- The operations have the blocks whose pointers they hold, or are handing over. -/
structure Held (c : Config Party Pool Instr) (place : Nat → Place) : Prop where
  single : ∀ p, (c.threads p).length ≤ 1
  held : ∀ p, ∀ j ∈ c.threads p, ∀ ptr, j.holds = some ptr →
    ∃ b ∈ c.shared.blocks, b.pointer = ptr ∧ place b.base = .operation p
  holding : ∀ b ∈ c.shared.blocks, ∀ p, place b.base = .operation p → ∃ j ∈ c.threads p, j.holds = some b.pointer
  handed : ∀ p op, .complete op ∈ c.threads p → ∃ b ∈ c.shared.blocks,
    b.pointer = c.shared.result op ∧ place b.base = .waiter p op ∧ c.shared.index op = some b.index
  handing : ∀ b ∈ c.shared.blocks, ∀ p op, place b.base = .waiter p op →
    .complete op ∈ c.threads p ∧ b.pointer = c.shared.result op
  reads : ∀ p ptr block, .reclaim ptr block ∈ c.threads p → ∃ b ∈ c.shared.blocks, b.pointer = ptr ∧ block.index = b.index.val

/-- The operations that wait do so in the queue of their class. -/
structure Queued (c : Config Party Pool Instr) : Prop where
  fresh : ∀ op, op ∉ c.shared.started →
    (∀ p i, .allocate op i ∉ c.threads p) ∧ (∀ i, op ∉ c.shared.pending i) ∧ ∀ p, .complete op ∉ c.threads p
  requests : ∀ p op i, .allocate op i ∈ c.threads p → c.shared.index op = some i ∧ ∀ q, .complete op ∉ c.threads q
  waits : ∀ i, ∀ op ∈ c.shared.pending i, c.shared.index op = some i ∧
    (∀ p j, .allocate op j ∉ c.threads p) ∧ ∀ p, .complete op ∉ c.threads p
  once : ∀ i, (c.shared.pending i).Nodup
  party : ∀ p op i, .allocate op i ∈ c.threads p → p = .operation op

structure Invariant (c : Config Party Pool Instr) (lists : Fin 32 → List Nat) (place : Nat → Place) : Prop where
  stored : Stored c.shared lists place
  received : Received c.shared place
  held : Held c place
  queued : Queued c

variable {s s' : Pool} {lists : Fin 32 → List Nat} {place : Nat → Place} {c : Config Party Pool Instr} {p : Party}
  {new rest : List Instr} {rest' : List Nat} {b : Block} {i : Fin 32} {x op ptr : Nat} {pl : Place} {upstream : Nat → Option Nat}

theorem mem_put {q : Party} {j : Instr} (member : j ∈ (c.put p s new).threads q) :
    q = p ∧ j ∈ new ∨ q ≠ p ∧ j ∈ c.threads q := by
  rw [put_threads] at member
  split at member
  · exact .inl ⟨‹_›,member⟩
  · exact .inr ⟨‹_›,member⟩

/-! ### Blocks in memory -/

instance : Std.Symm Apart := ⟨fun _ _ => Or.symm⟩

theorem Stored.distinct (stored : Stored s lists place) {b' : Block} (member : b ∈ s.blocks) (member' : b' ∈ s.blocks)
    (differ : b ≠ b') : Apart b b' :=
  stored.apart.forall member member' differ

/-- A block is determined by its address. -/
theorem Stored.same (stored : Stored s lists place) {b' : Block} (member : b ∈ s.blocks) (member' : b' ∈ s.blocks)
    (base : b.base = b'.base) : b = b' := by
  by_contra differ
  have apart := stored.distinct member member' differ
  have := (stored.fits b member).2.1
  have := (stored.fits b' member').2.1
  simp only [Apart,headerBytes] at *
  omega

theorem pointer_eq_iff {b' : Block} : b.pointer = b'.pointer ↔ b.base = b'.base := by
  simp [Block.pointer]

/-- Memory that is the same in all headers stores the same blocks. -/
theorem Stored.congr {place' : Nat → Place} (stored : Stored s lists place) (blocks : s'.blocks = s.blocks)
    (heads : s'.blockLists = s.blockLists)
    (memory : ∀ b ∈ s.blocks, ∀ k < headerBytes, s'.memory (b.base + k) = s.memory (b.base + k))
    (free : ∀ b ∈ s.blocks, place' b.base = .freeList ↔ place b.base = .freeList) : Stored s' lists place' where
  fits := blocks ▸ stored.fits
  sized := blocks ▸ stored.sized
  apart := blocks ▸ stored.apart
  chain i := by
    rw [heads]
    refine (stored.chain i).congr fun base member => ?_
    obtain ⟨b,known,rfl,_⟩ := (stored.listed i base).mp member
    exact load_congr fun k less => memory b known k (by simp only [headerBytes]; omega)
  header b member := by
    rw [blocks] at member
    rw [← stored.header b member]
    refine load_congr fun k less => ?_
    rw [Nat.add_assoc]
    exact memory b member (8 + k) (by simp only [headerBytes]; omega)
  once := stored.once
  listed i base := by
    rw [stored.listed,blocks]
    refine exists_congr fun b => and_congr_right fun member => and_congr_right fun at_ => and_congr_right fun _ => ?_
    rw [← at_,free b member]

theorem load_writeHeader (m : Store) (base : Nat) (block : MemoryBlock) (next : block.next < 256 ^ 8)
    (index : block.index < 256 ^ 8) :
    load (writeHeader m base block) base 8 = block.next ∧ load (writeHeader m base block) (base + 8) 8 = block.index := by
  constructor
  · rw [writeHeader,load_store_apart (by omega),load_store,Nat.mod_eq_of_lt next]
  · rw [writeHeader,load_store,Nat.mod_eq_of_lt index]

theorem load_writeHeader_apart {m : Store} {base base' a : Nat} {block : MemoryBlock}
    (apart : base' + 16 ≤ base ∨ base + 16 ≤ base') (inside : a = base' ∨ a = base' + 8) :
    load (writeHeader m base block) a 8 = load m a 8 := by
  rw [writeHeader,load_store_apart (by omega),load_store_apart (by omega)]

/-- The first block of a free list is taken. -/
theorem Stored.take (stored : Stored s lists place) (some : s.blockLists i ≠ 0) (taken : pl ≠ .freeList) :
    ∃ rest b, b ∈ s.blocks ∧ b.base = s.blockLists i ∧ place b.base = .freeList ∧
      Stored { s with blockLists := Function.update s.blockLists i (s.link (s.blockLists i)) }
        (Function.update lists i rest) (Function.update place (s.blockLists i) pl) := by
  obtain ⟨rest,all,later⟩ := (stored.chain i).pop some
  obtain ⟨b,member,base,class_,free⟩ := (stored.listed i (s.blockLists i)).mp (by simp [all])
  have once := stored.once i
  rw [all,List.nodup_cons] at once
  refine ⟨rest,b,member,base,base ▸ free,stored.fits,stored.sized,stored.apart,?_,stored.header,?_,?_⟩
  · intro j
    by_cases same : j = i
    · subst same
      simp only [Function.update_self]
      exact later
    · simp only [Function.update_of_ne same]
      exact stored.chain j
  · intro j
    by_cases same : j = i
    · subst same
      simpa using once.2
    · simpa [same] using stored.once j
  · intro j q
    have other : place q = .freeList ∧ q ≠ s.blockLists i ↔
        Function.update place (s.blockLists i) pl q = .freeList := by
      by_cases here : q = s.blockLists i
      · simp [here,taken]
      · simp [here]
    rw [← other]
    have before := stored.listed j q
    by_cases same : j = i
    · subst same
      simp only [Function.update_self]
      constructor
      · intro behind
        obtain ⟨b',known,at_,index,freed⟩ := before.mp (by simp [all,behind])
        exact ⟨b',known,at_,index,freed,by rintro rfl; exact once.1 behind⟩
      · rintro ⟨b',known,at_,index,freed,differ⟩
        have inside := before.mpr ⟨b',known,at_,index,freed⟩
        rw [all,List.mem_cons] at inside
        exact inside.resolve_left differ
    · simp only [Function.update_of_ne same]
      rw [before]
      constructor
      · rintro ⟨b',known,at_,index,freed⟩
        refine ⟨b',known,at_,index,freed,fun here => same ?_⟩
        rw [← index,← class_,stored.same known member (at_.trans (here.trans base.symm))]
      · rintro ⟨b',known,at_,index,freed,_⟩
        exact ⟨b',known,at_,index,freed⟩

/-- A fresh block is obtained, and its header is written. -/
theorem Stored.obtain {bytes : Nat} (stored : Stored s lists place) (fresh : Fresh s x bytes)
    (size : blockBytes i = some bytes) (holds : headerBytes ≤ bytes) (taken : pl ≠ .freeList) :
    Stored { s with memory := writeHeader s.memory x ⟨0,i⟩, blocks := s.blocks ++ [⟨x,i,bytes⟩] }
      lists (Function.update place x pl) := by
  obtain ⟨null,space,apart⟩ := fresh
  have outside : ∀ b ∈ s.blocks, b.base + 16 ≤ x ∨ x + 16 ≤ b.base := by
    intro b member
    have := apart b member
    have := (stored.fits b member).2.1
    simp only [headerBytes] at *
    omega
  have other : ∀ b ∈ s.blocks, b.base ≠ x := fun b member same => by have := outside b member; omega
  have written := load_writeHeader s.memory x ⟨0,i⟩ (by simp) (by have := i.isLt; simp only; omega)
  constructor
  · intro b member
    rcases List.mem_append.mp member with before | last
    · exact stored.fits b before
    · rw [List.mem_singleton.mp last]
      exact ⟨null,holds,space⟩
  · intro b member
    rcases List.mem_append.mp member with before | last
    · exact stored.sized b before
    · rw [List.mem_singleton.mp last]
      exact size
  · refine List.pairwise_append.mpr ⟨stored.apart,List.pairwise_singleton _ _,?_⟩
    intro b member b' last
    rw [List.mem_singleton.mp last]
    exact (apart b member).symm
  · intro j
    refine (stored.chain j).congr fun base member => ?_
    obtain ⟨b,known,rfl,_⟩ := (stored.listed j base).mp member
    exact load_writeHeader_apart (outside b known) (.inl rfl)
  · intro b member
    rcases List.mem_append.mp member with before | last
    · rw [← stored.header b before]
      exact load_writeHeader_apart (outside b before) (.inr rfl)
    · rw [List.mem_singleton.mp last]
      exact written.2
  · exact stored.once
  · intro j base
    rw [stored.listed]
    constructor
    · rintro ⟨b,member,rfl,index,free⟩
      exact ⟨b,List.mem_append_left _ member,rfl,index,by rwa [Function.update_of_ne (other b member)]⟩
    · rintro ⟨b,member,rfl,index,free⟩
      rcases List.mem_append.mp member with before | last
      · exact ⟨b,before,rfl,index,by rwa [Function.update_of_ne (other b before)] at free⟩
      · rw [List.mem_singleton.mp last] at free
        simp [taken] at free

/-- A block is put on the free list of its class. -/
theorem Stored.push (stored : Stored s lists place) (member : b ∈ s.blocks) (away : place b.base ≠ .freeList) :
    Stored { s with
        memory := writeHeader s.memory b.base ⟨s.blockLists b.index,b.index⟩
        blockLists := Function.update s.blockLists b.index b.base }
      (Function.update lists b.index (b.base :: lists b.index)) (Function.update place b.base .freeList) := by
  have head : s.blockLists b.index < 2 ^ 64 := by
    by_cases null : s.blockLists b.index = 0
    · omega
    obtain ⟨rest,all,_⟩ := (stored.chain b.index).pop null
    obtain ⟨b',known,at_,_⟩ := (stored.listed b.index (s.blockLists b.index)).mp (by simp [all])
    have := stored.fits b' known
    simp only [headerBytes] at this
    omega
  have outside : ∀ b' ∈ s.blocks, b'.base ≠ b.base → b'.base + 16 ≤ b.base ∨ b.base + 16 ≤ b'.base := by
    intro b' known differ
    have := stored.distinct known member (by rintro rfl; exact differ rfl)
    have := (stored.fits b member).2.1
    have := (stored.fits b' known).2.1
    simp only [Apart,headerBytes] at *
    omega
  have written := load_writeHeader s.memory b.base ⟨s.blockLists b.index,b.index⟩ head
    (by have := b.index.isLt; simp only; omega)
  have absent : ∀ j, b.base ∉ lists j := fun j inside => by
    obtain ⟨_,_,_,_,free⟩ := (stored.listed j b.base).mp inside
    exact away free
  have links : ∀ j, Chain (fun base => load (writeHeader s.memory b.base ⟨s.blockLists b.index,b.index⟩) base 8)
      (s.blockLists j) (lists j) := by
    intro j
    refine (stored.chain j).congr fun base inside => ?_
    obtain ⟨b',known,rfl,_⟩ := (stored.listed j base).mp inside
    exact load_writeHeader_apart (outside b' known (by rintro same; exact absent j (same ▸ inside))) (.inl rfl)
  refine ⟨stored.fits,stored.sized,stored.apart,?_,?_,?_,?_⟩
  · intro j
    by_cases same : j = b.index
    · subst same
      simp only [Function.update_self]
      exact (links b.index).push written.1 (stored.fits b member).1
    · simp only [Function.update_of_ne same]
      exact links j
  · intro b' known
    by_cases same : b'.base = b.base
    · obtain rfl := stored.same known member same
      exact written.2
    · rw [← stored.header b' known]
      exact load_writeHeader_apart (outside b' known same) (.inr rfl)
  · intro j
    by_cases same : j = b.index
    · subst same
      simpa using ⟨absent b.index,stored.once b.index⟩
    · simpa [same] using stored.once j
  · intro j base
    by_cases here : base = b.base
    · subst here
      simp only [Function.update_self]
      constructor
      · intro inside
        by_cases same : j = b.index
        · exact ⟨b,member,rfl,same.symm,trivial⟩
        · rw [Function.update_of_ne same] at inside
          exact absurd inside (absent j)
      · rintro ⟨b',known,at_,rfl,_⟩
        rw [stored.same known member at_]
        simp
    · rw [Function.update_of_ne here,← stored.listed]
      by_cases same : j = b.index
      · subst same
        simp [here]
      · rw [Function.update_of_ne same]

/-! ### Who has a block -/

theorem Received.congr {place' : Nat → Place} (received : Received s place) (same : s'.received = s.received)
    (blocks : s'.blocks = s.blocks) (callers : ∀ b ∈ s.blocks, place' b.base = .caller ↔ place b.base = .caller) :
    Received s' place' where
  once := same ▸ received.once
  known ptr := by
    rw [same,received.known,blocks]
    exact exists_congr fun b => and_congr_right fun member => and_congr_right fun _ => (callers b member).symm

/-- A block that no caller has is with somebody else now. -/
theorem Received.pass (received : Received s place) (same : s'.received = s.received)
    (blocks : s'.blocks = s.blocks ∨ ∃ b, s'.blocks = s.blocks ++ [b] ∧ b.base = x)
    (from_ : ∀ b ∈ s.blocks, b.base = x → place x ≠ .caller) (goes : pl ≠ .caller) :
    Received s' (Function.update place x pl) where
  once := same ▸ received.once
  known ptr := by
    have callers : ∀ b ∈ s.blocks, Function.update place x pl b.base = .caller ↔ place b.base = .caller := by
      intro b member
      by_cases here : b.base = x
      · rw [here,Function.update_self]
        exact iff_of_false goes (from_ b member here)
      · rw [Function.update_of_ne here]
    rw [same,received.known]
    constructor
    · rintro ⟨b,member,rfl,has⟩
      refine ⟨b,?_,rfl,(callers b member).mpr has⟩
      rcases blocks with blocks | ⟨_,blocks,_⟩
      · rwa [blocks]
      · rw [blocks]; exact List.mem_append_left _ member
    · rintro ⟨b,member,rfl,has⟩
      have before : b ∈ s.blocks := by
        rcases blocks with blocks | ⟨_,blocks,at_⟩
        · rwa [blocks] at member
        · rw [blocks,List.mem_append,List.mem_singleton] at member
          refine member.resolve_right ?_
          rintro rfl
          rw [at_,Function.update_self] at has
          exact goes has
      exact ⟨b,before,rfl,(callers b before).mp has⟩

/-- A caller receives the pointer of a block. -/
theorem Received.receive (received : Received s place) (member : b ∈ s.blocks)
    (gains : s'.received = s.received ++ [b.pointer]) (blocks : s'.blocks = s.blocks) (from_ : place b.base ≠ .caller) :
    Received s' (Function.update place b.base .caller) where
  once := by
    rw [gains]
    refine List.nodup_append.mpr ⟨received.once,List.nodup_singleton _,?_⟩
    intro ptr has ptr' last
    rw [List.mem_singleton.mp last]
    rintro rfl
    obtain ⟨b',known,same,callers⟩ := (received.known _).mp has
    rw [pointer_eq_iff.mp same] at callers
    exact from_ callers
  known ptr := by
    rw [gains,blocks,List.mem_append,List.mem_singleton,received.known]
    constructor
    · rintro (⟨b',known,rfl,has⟩ | rfl)
      · refine ⟨b',known,rfl,?_⟩
        by_cases here : b'.base = b.base
        · rw [here] at has; exact absurd has from_
        · rwa [Function.update_of_ne here]
      · exact ⟨b,member,rfl,Function.update_self _ _ _⟩
    · rintro ⟨b',known,rfl,has⟩
      by_cases here : b'.base = b.base
      · exact .inr (pointer_eq_iff.mpr here)
      · exact .inl ⟨b',known,rfl,by rwa [Function.update_of_ne here] at has⟩

/-- A caller gives back the pointer of a block. -/
theorem Received.giveBack (received : Received s place)
    (loses : s'.received = s.received.erase b.pointer) (blocks : s'.blocks = s.blocks) (goes : pl ≠ .caller) :
    Received s' (Function.update place b.base pl) where
  once := loses ▸ received.once.erase _
  known ptr := by
    rw [loses,blocks,received.once.mem_erase_iff,received.known]
    constructor
    · rintro ⟨other,b',known,rfl,has⟩
      exact ⟨b',known,rfl,by rwa [Function.update_of_ne fun here => other (pointer_eq_iff.mpr here)]⟩
    · rintro ⟨b',known,rfl,has⟩
      by_cases here : b'.base = b.base
      · rw [here,Function.update_self] at has; exact absurd has goes
      · exact ⟨fun same => here (pointer_eq_iff.mp same),b',known,rfl,by rwa [Function.update_of_ne here] at has⟩

/-- A party that has at most the block at `x` goes on, and at most this block changes
    its place. -/
theorem Held.move (held : Held c place) (short : new.length ≤ 1)
    (grows : ∀ b ∈ c.shared.blocks, b ∈ s.blocks) (known : ∀ b ∈ s.blocks, b.base ≠ x → b ∈ c.shared.blocks)
    (mine : ∀ b ∈ c.shared.blocks, place b.base = .operation p ∨ (∃ op, place b.base = .waiter p op) → b.base = x)
    (others : ∀ b ∈ c.shared.blocks, b.base = x →
      ∀ q, place x = .operation q ∨ (∃ op, place x = .waiter q op) → q = p)
    (results : ∀ q op, .complete op ∈ c.threads q → q ≠ p → s.result op = c.shared.result op ∧
      s.index op = c.shared.index op)
    (holds : ∀ j ∈ new, ∀ ptr, j.holds = some ptr → ∃ b ∈ s.blocks, b.base = x ∧ b.pointer = ptr ∧ pl = .operation p)
    (held' : ∀ b ∈ s.blocks, b.base = x → ∀ q, pl = .operation q → q = p ∧ ∃ j ∈ new, j.holds = some b.pointer)
    (hands : ∀ op, .complete op ∈ new → ∃ b ∈ s.blocks, b.base = x ∧ b.pointer = s.result op ∧ pl = .waiter p op ∧
      s.index op = some b.index)
    (handed' : ∀ b ∈ s.blocks, b.base = x → ∀ q op, pl = .waiter q op →
      q = p ∧ .complete op ∈ new ∧ b.pointer = s.result op)
    (reads : ∀ ptr block, .reclaim ptr block ∈ new → ∃ b ∈ s.blocks, b.pointer = ptr ∧ block.index = b.index.val) :
    Held (c.put p s new) (Function.update place x pl) where
  single q := by
    rw [put_threads]
    split
    · exact short
    · exact held.single q
  held q j member ptr has := by
    rcases mem_put member with ⟨rfl,fresh⟩ | ⟨differ,before⟩
    · obtain ⟨b,member,rfl,same,rfl⟩ := holds j fresh ptr has
      exact ⟨b,member,same,Function.update_self _ _ _⟩
    · obtain ⟨b,member,same,at_⟩ := held.held q j before ptr has
      refine ⟨b,grows b member,same,?_⟩
      rw [Function.update_of_ne]
      · exact at_
      · rintro here
        exact differ (others b member here q (.inl (here ▸ at_)))
  holding b member q at_ := by
    rw [put_shared] at member
    by_cases here : b.base = x
    · rw [here,Function.update_self] at at_
      obtain ⟨rfl,j,fresh,has⟩ := held' b member here q at_
      exact ⟨j,by rwa [put_threads_self],has⟩
    · rw [Function.update_of_ne here] at at_
      have before := known b member here
      have differ : q ≠ p := by
        rintro rfl
        exact here (mine b before (.inl at_))
      rw [put_threads_ne c differ]
      exact held.holding b before q at_
  handed q op member := by
    rcases mem_put member with ⟨rfl,fresh⟩ | ⟨differ,before⟩
    · obtain ⟨b,member,rfl,same,rfl,index⟩ := hands op fresh
      exact ⟨b,member,same,Function.update_self _ _ _,index⟩
    · obtain ⟨b,member,same,at_,index⟩ := held.handed q op before
      obtain ⟨result,class_⟩ := results q op before differ
      refine ⟨b,grows b member,same.trans result.symm,?_,class_.trans index⟩
      rw [Function.update_of_ne]
      · exact at_
      · rintro here
        exact differ (others b member here q (.inr ⟨op,here ▸ at_⟩))
  handing b member q op at_ := by
    rw [put_shared] at member ⊢
    by_cases here : b.base = x
    · rw [here,Function.update_self] at at_
      obtain ⟨rfl,fresh,same⟩ := handed' b member here q op at_
      exact ⟨by rwa [put_threads_self],same⟩
    · rw [Function.update_of_ne here] at at_
      have before := known b member here
      have differ : q ≠ p := by
        rintro rfl
        exact here (mine b before (.inr ⟨op,at_⟩))
      obtain ⟨running,same⟩ := held.handing b before q op at_
      rw [put_threads_ne c differ]
      exact ⟨running,same.trans (results q op running differ).1.symm⟩
  reads q ptr block member := by
    rcases mem_put member with ⟨rfl,fresh⟩ | ⟨_,before⟩
    · exact reads ptr block fresh
    · obtain ⟨b,member,same,index⟩ := held.reads q ptr block before
      exact ⟨b,grows b member,same,index⟩

/-! ### Who waits -/

/-- A step that neither starts a request nor hands a block over. -/
theorem Queued.light (queued : Queued c) (calm : ∀ j ∈ new, (∀ op i, j ≠ .allocate op i) ∧ ∀ op, j ≠ .complete op)
    (pending : s.pending = c.shared.pending) (index : s.index = c.shared.index)
    (started : ∀ op ∈ c.shared.started, op ∈ s.started) : Queued (c.put p s new) := by
  have requested : ∀ q op i, .allocate op i ∈ (c.put p s new).threads q → .allocate op i ∈ c.threads q := by
    intro q op i member
    rcases mem_put member with ⟨_,fresh⟩ | ⟨_,before⟩
    · exact absurd rfl ((calm _ fresh).1 op i)
    · exact before
  have completing : ∀ q op, .complete op ∈ (c.put p s new).threads q → .complete op ∈ c.threads q := by
    intro q op member
    rcases mem_put member with ⟨_,fresh⟩ | ⟨_,before⟩
    · exact absurd rfl ((calm _ fresh).2 op)
    · exact before
  constructor
  · intro op unknown
    obtain ⟨idle,out,silent⟩ := queued.fresh op fun member => unknown (started op member)
    rw [put_shared,pending]
    exact ⟨fun q i member => idle q i (requested q op i member),out,fun q member => silent q (completing q op member)⟩
  · intro q op i member
    obtain ⟨class_,silent⟩ := queued.requests q op i (requested q op i member)
    rw [put_shared,index]
    exact ⟨class_,fun r member => silent r (completing r op member)⟩
  · intro i op member
    rw [put_shared,pending] at member
    obtain ⟨class_,idle,silent⟩ := queued.waits i op member
    rw [put_shared,index]
    exact ⟨class_,fun q j member => idle q j (requested q op j member),fun q member => silent q (completing q op member)⟩
  · rw [put_shared,pending]
    exact queued.once
  · exact fun q op i member => queued.party q op i (requested q op i member)

/-- A request goes to the end of the queue of its class. -/
theorem Queued.wait (queued : Queued c) (here : c.threads p = [.allocate op i])
    (pending : s.pending = Function.update c.shared.pending i (c.shared.pending i ++ [op]))
    (index : s.index = c.shared.index) (started : s.started = c.shared.started) : Queued (c.put p s []) := by
  have before : ∀ q j, j ∈ (c.put p s []).threads q → q ≠ p ∧ j ∈ c.threads q := by
    intro q j member
    rcases mem_put member with ⟨_,fresh⟩ | before
    · cases fresh
    · exact before
  obtain ⟨class_,silent⟩ := queued.requests p op i (by simp [here])
  have party := queued.party p op i (by simp [here])
  have queue : ∀ j, ∀ op' ∈ s.pending j, op' ∈ c.shared.pending j ∨ op' = op ∧ j = i := by
    intro j op' member
    rw [pending] at member
    by_cases same : j = i
    · subst same
      simpa using member
    · rw [Function.update_of_ne same] at member
      exact .inl member
  constructor
  · intro op' unknown
    rw [put_shared,started] at unknown
    obtain ⟨idle,out,silent'⟩ := queued.fresh op' unknown
    refine ⟨fun q j member => idle q j (before q _ member).2,?_,fun q member => silent' q (before q _ member).2⟩
    intro j member
    rcases queue j op' member with waiting | ⟨rfl,_⟩
    · exact out j waiting
    · exact idle p i (by simp [here])
  · intro q op' j member
    obtain ⟨class',silent'⟩ := queued.requests q op' j (before q _ member).2
    rw [put_shared,index]
    exact ⟨class',fun r member => silent' r (before r _ member).2⟩
  · intro j op' member
    rw [put_shared,index]
    rcases queue j op' member with waiting | ⟨rfl,rfl⟩
    · obtain ⟨class',idle,silent'⟩ := queued.waits j op' waiting
      exact ⟨class',fun q k member => idle q k (before q _ member).2,fun q member => silent' q (before q _ member).2⟩
    · refine ⟨class_,fun q k member => ?_,fun q member => silent q (before q _ member).2⟩
      obtain ⟨differ,running⟩ := before q _ member
      exact differ ((queued.party q op' k running).trans party.symm)
  · intro j
    rw [put_shared,pending]
    by_cases same : j = i
    · subst same
      rw [Function.update_self]
      refine List.nodup_append.mpr ⟨queued.once j,List.nodup_singleton _,?_⟩
      intro op' waiting last same
      rw [List.mem_singleton] at same
      rintro rfl
      subst same
      exact (queued.waits j op' waiting).2.1 p j (by simp [here])
    · rw [Function.update_of_ne same]
      exact queued.once j
  · exact fun q op' j member => queued.party q op' j (before q _ member).2

/-- The first operation of a queue is handed a block. -/
theorem Queued.give (queued : Queued c) (first : c.shared.pending i = op :: rest')
    (pending : s.pending = Function.update c.shared.pending i rest')
    (index : s.index = c.shared.index) (started : s.started = c.shared.started) : Queued (c.put p s [.complete op]) := by
  have requested : ∀ q op' j, .allocate op' j ∈ (c.put p s [.complete op]).threads q → .allocate op' j ∈ c.threads q := by
    intro q op' j member
    rcases mem_put member with ⟨_,fresh⟩ | ⟨_,before⟩
    · cases List.mem_singleton.mp fresh
    · exact before
  have completing : ∀ q op', .complete op' ∈ (c.put p s [.complete op]).threads q → op' = op ∨ .complete op' ∈ c.threads q := by
    intro q op' member
    rcases mem_put member with ⟨_,fresh⟩ | ⟨_,before⟩
    · cases List.mem_singleton.mp fresh
      exact .inl rfl
    · exact .inr before
  obtain ⟨class_,idle,_⟩ := queued.waits i op (by simp [first])
  have once := queued.once i
  rw [first,List.nodup_cons] at once
  have queue : ∀ j, ∀ op' ∈ s.pending j, op' ∈ c.shared.pending j ∧ op' ≠ op := by
    intro j op' member
    rw [pending] at member
    by_cases same : j = i
    · subst same
      rw [Function.update_self] at member
      exact ⟨by simp [first,member],by rintro rfl; exact once.1 member⟩
    · rw [Function.update_of_ne same] at member
      refine ⟨member,?_⟩
      rintro rfl
      exact same (Option.some.inj ((queued.waits j op' member).1.symm.trans class_))
  constructor
  · intro op' unknown
    rw [put_shared,started] at unknown
    obtain ⟨idle',out,silent'⟩ := queued.fresh op' unknown
    refine ⟨fun q j member => idle' q j (requested q op' j member),fun j member => out j (queue j op' member).1,?_⟩
    intro q member
    rcases completing q op' member with rfl | before
    · exact out i (by simp [first])
    · exact silent' q before
  · intro q op' j member
    obtain ⟨class',silent'⟩ := queued.requests q op' j (requested q op' j member)
    rw [put_shared,index]
    refine ⟨class',fun r member' => ?_⟩
    rcases completing r op' member' with rfl | before
    · exact idle q j (requested q op' j member)
    · exact silent' r before
  · intro j op' member
    obtain ⟨waiting,differ⟩ := queue j op' member
    obtain ⟨class',idle',silent'⟩ := queued.waits j op' waiting
    rw [put_shared,index]
    exact ⟨class',fun q k member => idle' q k (requested q op' k member),
      fun q member => silent' q ((completing q op' member).resolve_left differ)⟩
  · intro j
    rw [put_shared,pending]
    by_cases same : j = i
    · subst same
      rw [Function.update_self]
      exact once.2
    · rw [Function.update_of_ne same]
      exact queued.once j
  · exact fun q op' j member => queued.party q op' j (requested q op' j member)

/-- A request of a class is started. -/
theorem Queued.request (queued : Queued c) (unknown : op ∉ c.shared.started)
    (pending : s.pending = c.shared.pending) (index : s.index = Function.update c.shared.index op (some i))
    (started : s.started = c.shared.started ++ [op]) : Queued (c.put (.operation op) s [.allocate op i]) := by
  obtain ⟨idle,out,silent⟩ := queued.fresh op unknown
  have requested : ∀ q op' j, .allocate op' j ∈ (c.put (.operation op) s [.allocate op i]).threads q →
      (q = .operation op ∧ op' = op ∧ j = i) ∨ .allocate op' j ∈ c.threads q := by
    intro q op' j member
    rcases mem_put member with ⟨at_,fresh⟩ | ⟨_,before⟩
    · obtain ⟨rfl,rfl⟩ := Instr.allocate.inj (List.mem_singleton.mp fresh)
      exact .inl ⟨at_,rfl,rfl⟩
    · exact .inr before
  have completing : ∀ q op', .complete op' ∈ (c.put (.operation op) s [.allocate op i]).threads q →
      .complete op' ∈ c.threads q := by
    intro q op' member
    rcases mem_put member with ⟨_,fresh⟩ | ⟨_,before⟩
    · cases List.mem_singleton.mp fresh
    · exact before
  constructor
  · intro op' unknown'
    rw [put_shared,started,List.mem_append,List.mem_singleton,not_or] at unknown'
    obtain ⟨idle',out',silent'⟩ := queued.fresh op' unknown'.1
    rw [put_shared,pending]
    refine ⟨fun q j member => ?_,out',fun q member => silent' q (completing q op' member)⟩
    rcases requested q op' j member with ⟨_,same,_⟩ | before
    · exact unknown'.2 same
    · exact idle' q j before
  · intro q op' j member
    rw [put_shared,index]
    rcases requested q op' j member with ⟨_,rfl,rfl⟩ | before
    · exact ⟨Function.update_self _ _ _,fun r member => silent r (completing r op' member)⟩
    · obtain ⟨class',silent'⟩ := queued.requests q op' j before
      rw [Function.update_of_ne (by rintro rfl; exact idle q j before)]
      exact ⟨class',fun r member => silent' r (completing r op' member)⟩
  · intro j op' member
    rw [put_shared,pending] at member
    obtain ⟨class',idle',silent'⟩ := queued.waits j op' member
    have differ : op' ≠ op := by rintro rfl; exact out j member
    rw [put_shared,index,Function.update_of_ne differ]
    refine ⟨class',fun q k member => ?_,fun q member => silent' q (completing q op' member)⟩
    rcases requested q op' k member with ⟨_,same,_⟩ | before
    · exact differ same
    · exact idle' q k before
  · rw [put_shared,pending]
    exact queued.once
  · intro q op' j member
    rcases requested q op' j member with ⟨at_,rfl,_⟩ | before
    · exact at_
    · exact queued.party q op' j before

/-! ### Steps -/

theorem Held.mine_of_holds (held : Held c place) {j : Instr} (here : c.threads p = [j]) (has : j.holds = some b.pointer) :
    ∀ b' ∈ c.shared.blocks, place b'.base = .operation p ∨ (∃ op, place b'.base = .waiter p op) → b'.base = b.base := by
  rintro b' member (at_ | ⟨op,at_⟩)
  · obtain ⟨j',running,has'⟩ := held.holding b' member p at_
    rw [here,List.mem_singleton] at running
    subst running
    exact pointer_eq_iff.mp (Option.some.inj (has'.symm.trans has))
  · have running := (held.handing b' member p op at_).1
    rw [here,List.mem_singleton] at running
    subst running
    cases has

theorem Held.mine_of_complete (held : Held c place) (here : c.threads p = [.complete op])
    (result : b.pointer = c.shared.result op) :
    ∀ b' ∈ c.shared.blocks, place b'.base = .operation p ∨ (∃ op, place b'.base = .waiter p op) → b'.base = b.base := by
  rintro b' member (at_ | ⟨op',at_⟩)
  · obtain ⟨j',running,has'⟩ := held.holding b' member p at_
    rw [here,List.mem_singleton] at running
    subst running
    cases has'
  · obtain ⟨running,same⟩ := held.handing b' member p op' at_
    rw [here,List.mem_singleton,Instr.complete.injEq] at running
    subst running
    exact pointer_eq_iff.mp (same.trans result.symm)

theorem Held.mine_of_none (held : Held c place) (nothing : ∀ j ∈ c.threads p, j.holds = none ∧ ∀ op, j ≠ .complete op)
    (x : Nat) :
    ∀ b' ∈ c.shared.blocks, place b'.base = .operation p ∨ (∃ op, place b'.base = .waiter p op) → b'.base = x := by
  rintro b' member (at_ | ⟨op,at_⟩)
  · obtain ⟨j,running,has⟩ := held.holding b' member p at_
    rw [(nothing j running).1] at has
    cases has
  · exact absurd rfl ((nothing _ (held.handing b' member p op at_).1).2 op)

/-- A party that has no block goes on without one. -/
theorem Held.idle (held : Held c place) (stored : Stored c.shared lists place) (short : new.length ≤ 1)
    (nothing : ∀ j ∈ c.threads p, j.holds = none ∧ ∀ op, j ≠ .complete op)
    (none : ∀ j ∈ new, j.holds = none ∧ ∀ op, j ≠ .complete op) (blocks : s.blocks = c.shared.blocks)
    (results : ∀ q op, .complete op ∈ c.threads q → q ≠ p → s.result op = c.shared.result op ∧
      s.index op = c.shared.index op) : Held (c.put p s new) place := by
  have away : ∀ b ∈ s.blocks, b.base ≠ 0 := fun b member => (stored.fits b (blocks ▸ member)).1
  rw [← Function.update_eq_self 0 place]
  refine held.move short (fun b member => by rwa [blocks]) (fun b member _ => by rwa [← blocks])
    (held.mine_of_none nothing 0) (fun b member null => absurd null (away b (blocks ▸ member))) results ?_ ?_ ?_ ?_ ?_
  · intro j member ptr has
    rw [(none j member).1] at has
    cases has
  · exact fun b member null => absurd null (away b member)
  · exact fun op member => absurd rfl ((none _ member).2 op)
  · exact fun b member null => absurd null (away b member)
  · intro ptr block member
    cases (none _ member).1

/-- A party that has a block keeps it. -/
theorem Held.keep (held : Held c place) {j : Instr} (short : new.length = 1) (member : b ∈ s.blocks)
    (grows : ∀ b ∈ c.shared.blocks, b ∈ s.blocks) (known : ∀ b' ∈ s.blocks, b'.base ≠ b.base → b' ∈ c.shared.blocks)
    (mine : ∀ b' ∈ c.shared.blocks, place b'.base = .operation p ∨ (∃ op, place b'.base = .waiter p op) → b'.base = b.base)
    (others : ∀ b' ∈ c.shared.blocks, b'.base = b.base →
      ∀ q, place b.base = .operation q ∨ (∃ op, place b.base = .waiter q op) → q = p)
    (results : s.result = c.shared.result) (index : s.index = c.shared.index) (next : new = [j])
    (has : j.holds = some b.pointer)
    (reads : ∀ ptr block, j = .reclaim ptr block → block.index = b.index.val) :
    Held (c.put p s new) (Function.update place b.base (.operation p)) := by
  subst next
  refine held.move (Nat.le_of_eq short) grows known mine others (fun q op _ _ => by rw [results,index]; exact ⟨rfl,rfl⟩)
    ?_ ?_ ?_ ?_ ?_
  · intro j' fresh ptr has'
    obtain rfl := List.mem_singleton.mp fresh
    exact ⟨b,member,rfl,Option.some.inj (has.symm.trans has'),rfl⟩
  · intro b' member' at_ q same
    exact ⟨(Place.operation.inj same).symm,j,by simp,by rw [has,pointer_eq_iff.mpr at_]⟩
  · intro op fresh
    obtain rfl := List.mem_singleton.mp fresh
    cases has
  · intro b' _ _ q op same
    cases same
  · intro ptr block fresh
    obtain rfl := List.mem_singleton.mp fresh
    exact ⟨b,member,(Option.some.inj has).symm,reads ptr block rfl⟩

/-- A party passes its block on, and is done. -/
theorem Held.release (held : Held c place)
    (mine : ∀ b' ∈ c.shared.blocks, place b'.base = .operation p ∨ (∃ op, place b'.base = .waiter p op) → b'.base = x)
    (others : ∀ q, place x = .operation q ∨ (∃ op, place x = .waiter q op) → q = p)
    (blocks : s.blocks = c.shared.blocks) (results : s.result = c.shared.result) (index : s.index = c.shared.index)
    (goes : pl = .caller ∨ pl = .freeList) : Held (c.put p s []) (Function.update place x pl) := by
  refine held.move (Nat.zero_le _) (fun b member => by rwa [blocks]) (fun b member _ => by rwa [← blocks]) mine
    (fun _ _ _ => others) (fun q op _ _ => by rw [results,index]; exact ⟨rfl,rfl⟩) (by simp) ?_ (by simp) ?_ (by simp)
  · rintro b member at_ q rfl
    simp at goes
  · rintro b member at_ q op rfl
    simp at goes

theorem allocate_keeps (inv : Invariant c lists place) (here : c.threads p = [.allocate op i])
    (holds : ∀ bytes base, blockBytes i = some bytes → upstream op = some base → headerBytes ≤ bytes)
    (ran : (s,new) ∈ allocate upstream c.shared op i) : ∃ lists' place', Invariant (c.put p s new) lists' place' := by
  obtain ⟨stored,received,held,queued⟩ := inv
  have nothing : ∀ j ∈ c.threads p, j.holds = none ∧ ∀ op, j ≠ .complete op := by simp [here,Instr.holds]
  unfold allocate at ran
  split at ran
  · cases size : blockBytes i with
    | none => simp [size] at ran
    | some bytes =>
    cases answer : upstream op with
    | none =>
      simp only [size,answer,List.mem_singleton] at ran
      obtain ⟨rfl,rfl⟩ := Prod.mk.inj ran
      refine ⟨lists,place,stored.congr rfl rfl (fun _ _ _ _ => rfl) (fun _ _ => Iff.rfl),
        received.congr rfl rfl (fun _ _ => Iff.rfl),held.idle stored (Nat.zero_le _) nothing (by simp) rfl
          (fun _ _ _ _ => ⟨rfl,rfl⟩),queued.wait here rfl rfl rfl⟩
    | some base =>
      simp only [size,answer] at ran
      split at ran
      case isFalse => cases ran
      next fresh =>
      obtain ⟨rfl,rfl⟩ := Prod.mk.inj (List.mem_singleton.mp ran)
      have room := holds bytes base size answer
      have other : ∀ b ∈ c.shared.blocks, b.base ≠ base := by
        intro b member same
        have := fresh.2.2 b member
        have := (stored.fits b member).2.1
        simp only [headerBytes] at *
        omega
      refine ⟨lists,Function.update place base (.operation p),stored.obtain fresh size room (by simp),
        received.pass rfl (.inr ⟨_,rfl,rfl⟩) (fun b member same => absurd same (other b member)) (by simp),?_,?_⟩
      · exact held.keep (b := ⟨base,i,bytes⟩) rfl (by simp) (fun b member => List.mem_append_left _ member)
          (fun b member differ => by
            rcases List.mem_append.mp member with before | last
            · exact before
            · rw [List.mem_singleton.mp last] at differ
              exact absurd rfl differ)
          (held.mine_of_none nothing base) (fun b member same => absurd same (other b member)) rfl rfl rfl rfl
          (by simp)
      · exact queued.light (by simp) rfl rfl (fun _ member => member)
  · next some =>
    obtain ⟨rfl,rfl⟩ := Prod.mk.inj (List.mem_singleton.mp ran)
    have kept : Place.operation p ≠ .freeList := by simp
    obtain ⟨rest,b,member,base,free,taken⟩ := stored.take some kept
    refine ⟨_,_,taken,received.pass rfl (.inl rfl) (fun b' _ _ => by rw [← base,free]; simp) (by simp),?_,?_⟩
    · rw [← base]
      refine held.keep (j := .setValue op b.pointer) rfl member (fun _ known => known) (fun _ known _ => known)
        (held.mine_of_none nothing _) (fun b' _ _ q at_ => by simp [free] at at_) rfl rfl ?_ rfl (by simp)
      simp [Block.pointer,base]
    · exact queued.light (by simp) rfl rfl (fun _ member => member)

theorem setValue_keeps (inv : Invariant c lists place) (here : c.threads p = [.setValue op ptr])
    (received_ : s = { c.shared with
      received := c.shared.received ++ [ptr], completions := c.shared.completions ++ [(op,some ptr)] }) :
    ∃ lists' place', Invariant (c.put p s []) lists' place' := by
  subst received_
  obtain ⟨stored,received,held,queued⟩ := inv
  obtain ⟨b,member,rfl,at_⟩ := held.held p (.setValue op ptr) (by simp [here]) ptr rfl
  refine ⟨lists,Function.update place b.base .caller,stored.congr rfl rfl (fun _ _ _ _ => rfl) ?_,
    received.receive member rfl rfl (by simp [at_]),?_,queued.light (by simp) rfl rfl (fun _ member => member)⟩
  · intro b' _
    by_cases same : b'.base = b.base
    · simp [same,at_]
    · rw [Function.update_of_ne same]
  · exact held.release (held.mine_of_holds here rfl) (by simp [at_]) rfl rfl rfl (.inl rfl)

theorem readHeader_keeps (inv : Invariant c lists place) (here : c.threads p = [.readHeader ptr]) :
    ∃ lists' place', Invariant (c.put p c.shared
      (if ptr = 0 then [] else [.reclaim ptr (readHeader c.shared.memory (ptr - headerBytes))])) lists' place' := by
  obtain ⟨stored,received,held,queued⟩ := inv
  obtain ⟨b,member,rfl,at_⟩ := held.held p (.readHeader ptr) (by simp [here]) ptr rfl
  have base : b.pointer - headerBytes = b.base := by simp [Block.pointer]
  rw [if_neg (by simp [Block.pointer,headerBytes]),base]
  refine ⟨lists,place,stored,received,?_,queued.light (by simp) rfl rfl (fun _ member => member)⟩
  have kept := held.keep (j := .reclaim b.pointer (readHeader c.shared.memory b.base)) (s := c.shared) rfl member
    (fun _ known => known) (fun _ known _ => known) (held.mine_of_holds here rfl) (by simp [at_]) rfl rfl rfl rfl ?_
  · rwa [← at_,Function.update_eq_self] at kept
  · intro ptr block same
    obtain ⟨_,rfl⟩ := Instr.reclaim.inj same
    exact stored.header b member

theorem reclaim_keeps {block : MemoryBlock} (inv : Invariant c lists place)
    (here : c.threads p = [.reclaim ptr block]) (ran : (s,new) ∈ reclaim c.shared ptr block) :
    ∃ lists' place', Invariant (c.put p s new) lists' place' := by
  obtain ⟨stored,received,held,queued⟩ := inv
  obtain ⟨b,member,rfl,at_⟩ := held.held p (.reclaim ptr block) (by simp [here]) ptr rfl
  obtain ⟨b',member',same,index⟩ := held.reads p b.pointer block (by simp [here])
  obtain rfl := stored.same member' member (pointer_eq_iff.mp same)
  have base : b'.pointer - headerBytes = b'.base := by simp [Block.pointer]
  have mine := held.mine_of_holds here (b := b') rfl
  unfold reclaim at ran
  rw [dif_pos (index ▸ b'.index.isLt)] at ran
  have class_ : (⟨block.index,index ▸ b'.index.isLt⟩ : Fin 32) = b'.index := Fin.ext index
  simp only [class_,base] at ran
  by_cases none : c.shared.pending b'.index = []
  · simp only [none,List.mem_singleton] at ran
    obtain ⟨rfl,rfl⟩ := Prod.mk.inj ran
    have pushed := stored.push member (by simp [at_])
    rw [← index] at pushed
    exact ⟨_,_,pushed,received.pass rfl (.inl rfl) (by simp [at_]) (by simp),
      held.release mine (by simp [at_]) rfl rfl rfl (.inr rfl),queued.light (by simp) rfl rfl (fun _ member => member)⟩
  · obtain ⟨op,rest,first⟩ := List.exists_cons_of_ne_nil none
    simp only [first,List.mem_singleton] at ran
    obtain ⟨rfl,rfl⟩ := Prod.mk.inj ran
    obtain ⟨waits,_,silent⟩ := queued.waits b'.index op (by simp [first])
    refine ⟨lists,Function.update place b'.base (.waiter p op),stored.congr rfl rfl (fun _ _ _ _ => rfl) ?_,
      received.pass rfl (.inl rfl) (by simp [at_]) (by simp),?_,queued.give first rfl rfl rfl⟩
    · intro other _
      by_cases same : other.base = b'.base
      · simp [same,at_]
      · rw [Function.update_of_ne same]
    · refine held.move (Nat.le_refl 1) (fun _ known => known) (fun _ known _ => known) mine (by simp [at_]) ?_
        (by simp [Instr.holds]) (by simp) ?_ ?_ (by simp)
      · intro q op' running _
        refine ⟨Function.update_of_ne ?_ _ _,rfl⟩
        rintro rfl
        exact silent q running
      · intro op' fresh
        obtain rfl := Instr.complete.inj (List.mem_singleton.mp fresh)
        exact ⟨b',member,rfl,by simp,rfl,waits⟩
      · intro other known at_' q op' same
        obtain ⟨rfl,rfl⟩ := Place.waiter.inj same
        exact ⟨rfl,by simp,by simp [pointer_eq_iff.mpr at_']⟩

theorem complete_keeps (inv : Invariant c lists place) (here : c.threads p = [.complete op])
    (ran : (s,new) ∈ exec upstream (.complete op) c.shared) :
    ∃ lists' place', Invariant (c.put p s new) lists' place' := by
  obtain ⟨stored,received,held,queued⟩ := inv
  obtain ⟨b,member,result,at_,_⟩ := held.handed p op (by simp [here])
  simp only [exec,← result] at ran
  rw [if_neg (by simp [Block.pointer,headerBytes])] at ran
  obtain ⟨rfl,rfl⟩ := Prod.mk.inj (List.mem_singleton.mp ran)
  refine ⟨lists,Function.update place b.base .caller,stored.congr rfl rfl (fun _ _ _ _ => rfl) ?_,
    received.receive member rfl rfl (by simp [at_]),?_,queued.light (by simp) rfl rfl (fun _ member => member)⟩
  · intro b' _
    by_cases same : b'.base = b.base
    · simp [same,at_]
    · rw [Function.update_of_ne same]
  · refine held.release (held.mine_of_complete here result) ?_ rfl rfl rfl (.inl rfl)
    rintro q (same | ⟨op',same⟩)
    · simp [at_] at same
    · rw [at_] at same
      exact (Place.waiter.inj same).1.symm

theorem run_keeps (upstream : Nat → Option Nat) (inv : Invariant c lists place) {j : Instr}
    (left : c.threads p = j :: rest)
    (holds : ∀ op i, j = .allocate op i → ∀ bytes base, blockBytes i = some bytes → upstream op = some base →
      headerBytes ≤ bytes)
    (ran : (s,new) ∈ exec upstream j c.shared) : ∃ lists' place', Invariant (c.put p s (new ++ rest)) lists' place' := by
  have single := inv.held.single p
  rw [left] at single
  obtain rfl : rest = [] := List.length_eq_zero_iff.mp (by simpa using single)
  rw [List.append_nil]
  cases j with
  | allocate op i => exact allocate_keeps inv left (holds op i rfl) ran
  | setValue op ptr =>
    obtain ⟨rfl,rfl⟩ := Prod.mk.inj (List.mem_singleton.mp ran)
    exact setValue_keeps inv left rfl
  | readHeader ptr =>
    obtain ⟨rfl,rfl⟩ := Prod.mk.inj (List.mem_singleton.mp ran)
    exact readHeader_keeps inv left
  | reclaim ptr block => exact reclaim_keeps inv left ran
  | complete op => exact complete_keeps inv left ran

theorem call_keeps (upstream : Nat → Option Nat) {e : Event} (inv : Invariant c lists place)
    (idle : c.threads ((machine upstream).party e) = []) (accepted : accept e c.shared = some (s,new)) :
    ∃ lists' place', Invariant (c.put ((machine upstream).party e) s new) lists' place' := by
  obtain ⟨stored,received,held,queued⟩ := inv
  have nothing : ∀ j ∈ c.threads ((machine upstream).party e), j.holds = none ∧ ∀ op, j ≠ .complete op := by simp [idle]
  cases e with
  | allocate op size =>
    simp only [accept] at accepted
    split at accepted
    case isFalse => cases accepted
    next valid =>
    obtain ⟨rfl,rfl⟩ := Prod.mk.inj (Option.some.inj accepted)
    obtain ⟨_,_,silent⟩ := queued.fresh op valid.1
    refine ⟨lists,place,stored.congr rfl rfl (fun _ _ _ _ => rfl) (fun _ _ => Iff.rfl),
      received.congr rfl rfl (fun _ _ => Iff.rfl),held.idle stored (Nat.le_refl 1) nothing ?_ rfl ?_,
      queued.request valid.1 rfl rfl rfl⟩
    · simp [Instr.holds]
    · intro q op' running _
      refine ⟨rfl,Function.update_of_ne ?_ _ _⟩
      rintro rfl
      exact silent q running
  | deallocate op ptr =>
    simp only [accept] at accepted
    split at accepted
    case isFalse => cases accepted
    next valid =>
    obtain ⟨rfl,rfl⟩ := Prod.mk.inj (Option.some.inj accepted)
    obtain ⟨b,member,rfl,at_⟩ := (received.known ptr).mp valid.2
    refine ⟨lists,Function.update place b.base (.operation (.operation op)),
      stored.congr rfl rfl (fun _ _ _ _ => rfl) ?_,received.giveBack rfl rfl (by simp),?_,
      queued.light (by simp) rfl rfl (fun _ member => List.mem_append_left _ member)⟩
    · intro b' _
      by_cases same : b'.base = b.base
      · simp [same,at_]
      · rw [Function.update_of_ne same]
    · exact held.keep (j := .readHeader b.pointer) rfl member (fun _ known => known) (fun _ known _ => known)
        (held.mine_of_none nothing b.base) (by simp [at_]) rfl rfl rfl rfl (by simp)
  | write address byte =>
    simp only [accept] at accepted
    split at accepted
    case isFalse => cases accepted
    next writable =>
    obtain ⟨rfl,rfl⟩ := Prod.mk.inj (Option.some.inj accepted)
    refine ⟨lists,place,stored.congr rfl rfl ?_ (fun _ _ => Iff.rfl),received.congr rfl rfl (fun _ _ => Iff.rfl),
      held.idle stored (Nat.zero_le _) nothing (by simp) rfl (fun _ _ _ _ => ⟨rfl,rfl⟩),
      queued.light (by simp) rfl rfl (fun _ member => member)⟩
    intro b member k header
    refine Function.update_of_ne ?_ _ _
    rintro rfl
    have := (stored.fits b member).2.1
    have := (writable b member (by omega) (by omega)).1
    simp only [Block.pointer] at this
    omega

theorem initial_invariant (memory : Store) : Invariant (initial memory) (fun _ => []) (fun _ => .freeList) where
  stored := by constructor <;> simp [initial,Chain]
  received := by constructor <;> simp [initial]
  held := by constructor <;> simp [initial]
  queued := by constructor <;> simp [initial]

/-- The requests of small runs are for blocks that have room for a header. -/
def Roomy (c : Config Party Pool Instr) : Prop := ∀ p op i, .allocate op i ∈ c.threads p → 4 ≤ i.val ∧ i.val < 30

/-- Only an allocation adds a block, the one that it gets upstream; no instruction starts an
    operation or requests a block, and one that gives back a pointer goes on giving it back. -/
structure ExecFrame (upstream : Nat → Option Nat) (j : Instr) (s s' : Pool) (new : List Instr) : Prop where
  blocks : s'.blocks = s.blocks ∨ ∃ op i b, j = .allocate op i ∧ upstream op = some b.base ∧ s'.blocks = s.blocks ++ [b]
  started : s'.started = s.started
  requests : ∀ op i, .allocate op i ∉ new
  gives : ∀ j' ∈ new, ∀ ptr, j'.gives = some ptr → j.gives = some ptr

theorem exec_frame {j : Instr} (ran : (s',new) ∈ exec upstream j s) : ExecFrame upstream j s s' new := by
  cases j with
  | allocate op i =>
    simp only [exec,allocate] at ran
    split at ran
    · cases size : blockBytes i with
      | none => simp [size] at ran
      | some bytes =>
        cases answer : upstream op with
        | none =>
          obtain ⟨rfl,rfl⟩ : s' = _ ∧ new = _ := by simpa [size,answer] using ran
          exact ⟨.inl rfl,rfl,by simp,by simp⟩
        | some base =>
          simp only [size,answer] at ran
          split at ran
          · obtain ⟨rfl,rfl⟩ := Prod.mk.inj (List.mem_singleton.mp ran)
            exact ⟨.inr ⟨op,i,⟨base,i,bytes⟩,rfl,answer,rfl⟩,rfl,by simp,by simp [Instr.gives]⟩
          · cases ran
    · obtain ⟨rfl,rfl⟩ := Prod.mk.inj (List.mem_singleton.mp ran)
      exact ⟨.inl rfl,rfl,by simp,by simp [Instr.gives]⟩
  | setValue op ptr =>
    obtain ⟨rfl,rfl⟩ := Prod.mk.inj (List.mem_singleton.mp ran)
    exact ⟨.inl rfl,rfl,by simp,by simp⟩
  | readHeader ptr =>
    obtain ⟨rfl,rfl⟩ := Prod.mk.inj (List.mem_singleton.mp ran)
    refine ⟨.inl rfl,rfl,?_,?_⟩
    · split <;> simp
    · split <;> simp [Instr.gives]
  | reclaim ptr block =>
    simp only [exec,reclaim] at ran
    split at ran
    · split at ran
      · obtain ⟨rfl,rfl⟩ := Prod.mk.inj (List.mem_singleton.mp ran)
        exact ⟨.inl rfl,rfl,by simp,by simp [Instr.gives]⟩
      · obtain ⟨rfl,rfl⟩ := Prod.mk.inj (List.mem_singleton.mp ran)
        exact ⟨.inl rfl,rfl,by simp,by simp⟩
    · cases ran
  | complete op =>
    simp only [exec] at ran
    split at ran
    · obtain ⟨rfl,rfl⟩ := Prod.mk.inj (List.mem_singleton.mp ran)
      exact ⟨.inl rfl,rfl,by simp,by simp⟩
    · obtain ⟨rfl,rfl⟩ := Prod.mk.inj (List.mem_singleton.mp ran)
      exact ⟨.inl rfl,rfl,by simp,by simp⟩

/-- A call adds no block; it starts an operation that requests a block of its class or gives back
    its pointer, or it starts none. -/
structure AcceptFrame (e : Event) (s s' : Pool) (new : List Instr) : Prop where
  blocks : s'.blocks = s.blocks
  started : ∀ op ∈ s.started, op ∈ s'.started
  requests : ∀ op i, .allocate op i ∈ new → ∃ size, e = .allocate op size ∧ i.val = classOf size
  gives : ∀ j ∈ new, ∀ ptr, j.gives = some ptr → ∃ op, e = .deallocate op ptr
  starts : ∀ op ptr, e = .deallocate op ptr → op ∉ s.started ∧ op ∈ s'.started

theorem accept_frame {e : Event} (accepted : accept e s = some (s',new)) : AcceptFrame e s s' new := by
  cases e with
  | allocate op size =>
    simp only [accept] at accepted
    split at accepted
    · obtain ⟨rfl,rfl⟩ := Prod.mk.inj (Option.some.inj accepted)
      refine ⟨rfl,fun op' known => List.mem_append_left _ known,fun op' i member => ?_,by simp [Instr.gives],by simp⟩
      obtain ⟨rfl,rfl⟩ := Instr.allocate.inj (List.mem_singleton.mp member)
      exact ⟨size,rfl,rfl⟩
    · cases accepted
  | deallocate op ptr =>
    simp only [accept] at accepted
    split at accepted
    · next valid =>
      obtain ⟨rfl,rfl⟩ := Prod.mk.inj (Option.some.inj accepted)
      refine ⟨rfl,fun op' known => List.mem_append_left _ known,by simp,by simp [Instr.gives],?_⟩
      rintro op' ptr' ⟨⟩
      exact ⟨valid.1,by simp⟩
    · cases accepted
  | write address byte =>
    simp only [accept] at accepted
    split at accepted
    · obtain ⟨rfl,rfl⟩ := Prod.mk.inj (Option.some.inj accepted)
      exact ⟨rfl,fun _ known => known,by simp,by simp,by simp⟩
    · cases accepted

theorem accept_requests_small {e : Event} (small : Small c (.call e)) (accepted : accept e c.shared = some (s,new))
    (member : .allocate op i ∈ new) : 4 ≤ i.val ∧ i.val < 30 := by
  obtain ⟨size,rfl,class_⟩ := (accept_frame accepted).requests op i member
  obtain ⟨low,high,_⟩ := classOf_small small
  rw [class_]
  exact ⟨low,high⟩

theorem reach_invariant {memory : Store} (reach : Reach (machine upstream) Small (initial memory) c) :
    ∃ lists place, Invariant c lists place := by
  refine (reach.invariant (I := fun c => (∃ lists place, Invariant c lists place) ∧ Roomy c)
    ⟨⟨_,_,initial_invariant memory⟩,by simp [Roomy,initial]⟩ ?_ ?_).1
  · rintro c p j rest s new ⟨⟨lists,place,inv⟩,roomy⟩ _ left ran
    refine ⟨run_keeps upstream inv left ?_ ran,fun q op i member => ?_⟩
    · rintro op i rfl bytes base size _
      obtain ⟨low,high⟩ := roomy p op i (by simp [left])
      rw [blockBytes_small high,Option.some.injEq] at size
      have : 2 ^ 5 ≤ 2 ^ (i.val + 1) := Nat.pow_le_pow_right (by omega) (by omega)
      simp only [headerBytes]
      omega
    · rcases mem_of_mem_put left member with fresh | before
      · exact absurd fresh ((exec_frame ran).requests op i)
      · exact roomy q op i before
  · rintro c e s new ⟨⟨lists,place,inv⟩,roomy⟩ small idle accepted
    refine ⟨call_keeps upstream inv idle accepted,fun q op i member => ?_⟩
    rcases mem_put member with ⟨_,fresh⟩ | ⟨_,before⟩
    · exact accept_requests_small small accepted fresh
    · exact roomy q op i before

/-! ### The destructor -/

theorem mapM_of_some {α β : Type} {f : α → Option β} {g : α → β} {l : List α} (all : ∀ x ∈ l, f x = some (g x)) :
    l.mapM f = some (l.map g) := by
  induction l with
  | nil => rfl
  | cons x l ih => simp [List.mapM_cons,all x (by simp),ih fun y member => all y (by simp [member])]

/-- The blocks with the sizes they were obtained with. -/
def Pool.obtained (s : Pool) : List (Nat × Nat) := s.blocks.map fun b => (b.base,b.bytes)

theorem Stored.releaseList (stored : Stored s lists place) (i : Fin 32) :
    releaseList (s.blocks.length + 1) s i = some ((lists i).map fun base => (base,(blockBytes i).getD 0)) := by
  have few : (lists i).length ≤ s.blocks.length := by
    have within : lists i ⊆ s.blocks.map Block.base := fun base member => by
      obtain ⟨b,known,at_,_⟩ := (stored.listed i base).mp member
      exact List.mem_map.mpr ⟨b,known,at_⟩
    simpa using (List.subperm_of_subset (stored.once i) within).length_le
  rw [MemoryPool.releaseList,walk_of_chain (stored.chain i) (Nat.lt_succ_of_le few)]
  refine mapM_of_some fun base member => ?_
  obtain ⟨b,known,_,rfl,_⟩ := (stored.listed i base).mp member
  simp [stored.sized b known]

theorem Stored.nodup_obtained (stored : Stored s lists place) : s.obtained.Nodup := by
  refine List.pairwise_map.mpr (stored.apart.imp_of_mem fun {b b'} member member' apart same => ?_)
  have := (stored.fits b member).2.1
  have := (stored.fits b' member').2.1
  have base : b.base = b'.base := (Prod.mk.inj same).1
  simp only [Apart,headerBytes] at *
  omega

/-- When all blocks are on the free lists, the destructor gives each of them back. -/
theorem Stored.destroy (stored : Stored s lists place) (all : ∀ b ∈ s.blocks, place b.base = .freeList) :
    ∃ released, destroy (s.blocks.length + 1) s = some released ∧ released.Perm s.obtained := by
  have lists_ := mapM_of_some (l := List.finRange 32) fun i _ => stored.releaseList i
  refine ⟨_,by rw [MemoryPool.destroy,lists_]; rfl,?_⟩
  refine (List.perm_ext_iff_of_nodup ?_ stored.nodup_obtained).mpr fun pair => ?_
  · refine List.nodup_flatten.mpr ⟨?_,?_⟩
    · intro l member
      obtain ⟨i,_,rfl⟩ := List.mem_map.mp member
      exact (stored.once i).map fun _ _ same => (Prod.mk.inj same).1
    · refine List.pairwise_map.mpr ((List.nodup_finRange 32).imp fun {i j} differ => ?_)
      intro pair first second
      obtain ⟨base,inside,rfl⟩ := List.mem_map.mp first
      obtain ⟨base',inside',same⟩ := List.mem_map.mp second
      obtain rfl := (Prod.mk.inj same).1
      obtain ⟨b,known,at_,class_,_⟩ := (stored.listed i _).mp inside
      obtain ⟨b',known',at_',class_',_⟩ := (stored.listed j _).mp inside'
      rw [stored.same known known' (at_.trans at_'.symm)] at class_
      exact differ (class_.symm.trans class_')
  · simp only [List.mem_flatten,List.mem_map,List.mem_finRange,true_and,exists_exists_eq_and,Pool.obtained]
    constructor
    · rintro ⟨i,base,inside,rfl⟩
      obtain ⟨b,known,rfl,rfl,_⟩ := (stored.listed i base).mp inside
      exact ⟨b,known,by simp [stored.sized b known]⟩
    · rintro ⟨b,known,rfl⟩
      exact ⟨b.index,b.base,(stored.listed b.index b.base).mpr ⟨b,known,rfl,rfl,all b known⟩,by
        simp [stored.sized b known]⟩

/-- A block is where its place says, and nowhere else. -/
structure Located (c : Config Party Pool Instr) (lists : Fin 32 → List Nat) (place : Nat → Place) (b : Block) : Prop where
  caller : b.pointer ∈ c.shared.received ↔ place b.base = .caller
  operation : ∀ p, (∃ j ∈ c.threads p, j.holds = some b.pointer) ↔ place b.base = .operation p
  waiter : ∀ p op, (.complete op ∈ c.threads p ∧ c.shared.result op = b.pointer) ↔ place b.base = .waiter p op
  waiterClass : ∀ p op, place b.base = .waiter p op → c.shared.index op = some b.index
  freeList : ∀ i, b.base ∈ lists i ↔ i = b.index ∧ place b.base = .freeList

theorem Invariant.located (inv : Invariant c lists place) (member : b ∈ c.shared.blocks) : Located c lists place b where
  caller := by
    rw [inv.received.known]
    constructor
    · rintro ⟨b',_,same,at_⟩
      rwa [pointer_eq_iff.mp same] at at_
    · exact fun at_ => ⟨b,member,rfl,at_⟩
  operation p := by
    constructor
    · rintro ⟨j,running,has⟩
      obtain ⟨b',_,same,at_⟩ := inv.held.held p j running b.pointer has
      rwa [pointer_eq_iff.mp same] at at_
    · exact inv.held.holding b member p
  waiter p op := by
    constructor
    · rintro ⟨running,result⟩
      obtain ⟨b',_,same,at_,_⟩ := inv.held.handed p op running
      rwa [pointer_eq_iff.mp (same.trans result)] at at_
    · intro at_
      obtain ⟨running,result⟩ := inv.held.handing b member p op at_
      exact ⟨running,result.symm⟩
  waiterClass p op at_ := by
    obtain ⟨running,result⟩ := inv.held.handing b member p op at_
    obtain ⟨b',member',same,_,class_⟩ := inv.held.handed p op running
    rwa [inv.stored.same member' member (pointer_eq_iff.mp (same.trans result.symm))] at class_
  freeList i := by
    rw [inv.stored.listed]
    constructor
    · rintro ⟨b',member',at_,rfl,free⟩
      exact ⟨by rw [inv.stored.same member' member at_],free⟩
    · rintro ⟨rfl,free⟩
      exact ⟨b,member,rfl,rfl,free⟩

/-- When no operation is active and the callers have no block, all blocks are on the
    free lists. -/
theorem Invariant.destroy (inv : Invariant c lists place) (idle : ∀ p, c.threads p = [])
    (none : c.shared.received = []) :
    ∃ released, MemoryPool.destroy (c.shared.blocks.length + 1) c.shared = some released ∧
      released.Perm c.shared.obtained := by
  refine inv.stored.destroy fun b member => ?_
  have located := inv.located member
  cases at_ : place b.base with
  | caller =>
    have has := located.caller.mpr at_
    simp [none] at has
  | operation p =>
    obtain ⟨j,running,_⟩ := (located.operation p).mpr at_
    simp [idle] at running
  | waiter p op =>
    have running := ((located.waiter p op).mpr at_).1
    simp [idle] at running
  | freeList => rfl

/-- In every reachable configuration, the free lists are chains of blocks of their
    own class, each of them in one list and once; every block is in exactly one
    place, and its header has its class; and if no operation is active and the
    callers have no block, the destructor gives back each block that was obtained,
    once and with its size. -/
theorem pool_owns_blocks {memory : Store} (reach : Reach (machine upstream) Small (initial memory) c) :
    ∃ (lists : Fin 32 → List Nat) (place : Nat → Place),
      (∀ i, Chain c.shared.link (c.shared.blockLists i) (lists i) ∧ (lists i).Nodup ∧
        ∀ base ∈ lists i, ∃ b ∈ c.shared.blocks, b.base = base ∧ b.index = i) ∧
      (∀ i j, i ≠ j → (lists i).Disjoint (lists j)) ∧
      c.shared.received.Nodup ∧
      (∀ b ∈ c.shared.blocks, Located c lists place b ∧ (readHeader c.shared.memory b.base).index = b.index) ∧
      ((∀ p, c.threads p = []) → c.shared.received = [] → ∃ released,
        destroy (c.shared.blocks.length + 1) c.shared = some released ∧ released.Perm c.shared.obtained) := by
  obtain ⟨lists,place,inv⟩ := reach_invariant reach
  have stored := inv.stored
  refine ⟨lists,place,?_,?_,inv.received.once,fun b member => ⟨inv.located member,stored.header b member⟩,?_⟩
  · intro i
    refine ⟨stored.chain i,stored.once i,fun base member => ?_⟩
    obtain ⟨b,known,at_,class_,_⟩ := (stored.listed i base).mp member
    exact ⟨b,known,at_,class_⟩
  · intro i j differ base first second
    obtain ⟨b,known,at_,class_,_⟩ := (stored.listed i base).mp first
    obtain ⟨b',known',at_',class_',_⟩ := (stored.listed j base).mp second
    rw [stored.same known known' (at_.trans at_'.symm)] at class_
    exact differ (class_.symm.trans class_')
  · exact inv.destroy

def isSmall : Label Party Event → Bool
  | .call (.allocate _ size) => size + headerBytes < 2 ^ 30
  | _ => true

theorem small_of_isSmall (c : Config Party Pool Instr) (l : Label Party Event) (small : isSmall l = true) : Small c l := by
  cases l with
  | run p => trivial
  | call e => cases e <;> simp_all [isSmall,Small]

/-- Upstream has one block: it is used, given back and used again, and then handed to
    an operation that waits. -/
theorem pool_owns_blocks_reused : ∃ c,
    Reach (machine fun op => if op = 0 then some 4096 else none) Small (initial fun _ => 255) c ∧
    c.shared.completions = [(0,some 4112),(2,some 4112),(3,some 4112)] ∧
    ∃ lists place, ∀ b ∈ c.shared.blocks,
      Located c lists place b ∧ (readHeader c.shared.memory b.base).index = b.index := by
  obtain ⟨c,reach,sent⟩ := exists_of_follow (machine fun op => if op = 0 then some 4096 else none) Small
    (initial fun _ => 255) (fun _ l => isSmall l) small_of_isSmall
    [(.call (.allocate 0 8),0),(.run (.operation 0),0),(.run (.operation 0),0),(.call (.write 4113 7),0),
      (.call (.deallocate 1 4112),0),(.run (.operation 1),0),(.run (.operation 1),0),
      (.call (.allocate 2 8),0),(.run (.operation 2),0),(.run (.operation 2),0),
      (.call (.allocate 3 8),0),(.run (.operation 3),0),
      (.call (.deallocate 4 4112),0),(.run (.operation 4),0),(.run (.operation 4),0),(.run (.operation 4),0)]
    (fun c => c.shared.completions = [(0,some 4112),(2,some 4112),(3,some 4112)]) (by decide)
  obtain ⟨lists,place,_,_,_,located,_⟩ := pool_owns_blocks reach
  exact ⟨c,reach,of_decide_eq_true sent,lists,place,located⟩

end SendersIo.MemoryPool
