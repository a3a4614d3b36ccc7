import SendersIo.IntrusiveLists
import SendersIo.OperationRuns

/-!
Intrusive lists as sequences. Several lists share the memory of the items, and each
operation is to do what it does to sequences. `push_front` of an empty list writes through
null, and the other operations that join items in front of some set the links in one direction
only: a list that they join is a list forwards, and ends too early backwards.
-/
namespace SendersIo.ListOperations
open SendersIo.LinkedLists SendersIo.IntrusiveLists SendersIo.OperationRuns

/-- `intrusive_list::push_front`. -/
def pushFront (links : Links) (list : IntrusiveList) (item : Nat) : Links × IntrusiveList :=
  let next := Function.update links.next item list.head
  if list.tail = 0 then (⟨next,Function.update links.prev (next item) item⟩,⟨item,item⟩)
  else ({ links with next := next },{ list with head := item })

/-- `intrusive_list::append`; the other list has been moved into the argument. -/
def append (links : Links) (list other : IntrusiveList) : Links × IntrusiveList :=
  if other.head = 0 then (links,list)
  else if list.head = 0 then (links,other)
  else ({ links with next := Function.update links.next list.tail other.head },{ list with tail := other.tail })

/-- `intrusive_list::prepend`; the other list has been moved into the argument. -/
def prepend (links : Links) (list other : IntrusiveList) : Links × IntrusiveList :=
  if other.head = 0 then (links,list)
  else
    ({ links with next := Function.update links.next other.tail list.head },
      ⟨other.head,if list.tail = 0 then other.tail else list.tail⟩)

/-- The items that `push_front` dereferences. -/
def pushFrontDerefs (list : IntrusiveList) (item : Nat) : List Nat :=
  if list.tail = 0 then [item,item,list.head] else [item]

/-- The items that `push_back` dereferences. -/
def pushBackDerefs (list : IntrusiveList) (item : Nat) : List Nat :=
  if list.tail = 0 then [item] else [item,list.tail]

/-- The items that `pop_front` dereferences. -/
def popFrontDerefs (links : Links) (list : IntrusiveList) : List Nat :=
  if links.next list.head = 0 then [list.head] else [list.head,links.next list.head]

/-- The items that `erase` dereferences. -/
def eraseDerefs (links : Links) (list : IntrusiveList) (item : Nat) : List Nat :=
  let after := (eraseForward links list item).1
  (if links.prev item = 0 then [item] else [item,links.prev item]) ++
    if after.next item = 0 then [item] else [item,after.next item]

/-- The items that `append` dereferences. -/
def appendDerefs (list other : IntrusiveList) : List Nat :=
  if other.head = 0 then [] else if list.head = 0 then [] else [list.tail]

/-- The items that `prepend` dereferences. -/
def prependDerefs (other : IntrusiveList) : List Nat := if other.head = 0 then [] else [other.tail]

/-- The memory of the items, and the lists. -/
structure Lists where
  links : Links
  lists : Nat → IntrusiveList

/-- The operations on the lists; `construct` and `assign` are the two moves. -/
inductive Op where
  | pushFront (i item : Nat)
  | pushBack (i item : Nat)
  | popFront (i : Nat)
  | erase (i item : Nat)
  | append (i j : Nat)
  | prepend (i j : Nat)
  | construct (i j : Nat)
  | assign (i j : Nat)

/-- The list `i` after one of its operations. -/
def Lists.put (s : Lists) (i : Nat) (result : Links × IntrusiveList) : Lists :=
  ⟨result.1,Function.update s.lists i result.2⟩

/-- A list from which another one was move-constructed. -/
def Lists.release (s : Lists) (j : Nat) : Lists := { s with lists := Function.update s.lists j ⟨0,0⟩ }

/-- One operation. An assignment swaps the ends with those of its argument, and the argument
    is destroyed with what the list had. -/
def Lists.step (s : Lists) : Op → Lists
  | .pushFront i item => s.put i (pushFront s.links (s.lists i) item)
  | .pushBack i item => s.put i (pushBack s.links (s.lists i) item)
  | .popFront i => s.put i (IntrusiveLists.popFront s.links (s.lists i))
  | .erase i item => s.put i (IntrusiveLists.erase s.links (s.lists i) item)
  | .append i j => (s.release j).put i (append s.links ((s.release j).lists i) (s.lists j))
  | .prepend i j => (s.release j).put i (prepend s.links ((s.release j).lists i) (s.lists j))
  | .construct i j => (s.release j).put i (s.links,s.lists j)
  | .assign i j => (s.release j).put i (s.links,s.lists j)

/-- The items that an operation dereferences. -/
def Lists.derefs (s : Lists) : Op → List Nat
  | .pushFront i item => pushFrontDerefs (s.lists i) item
  | .pushBack i item => pushBackDerefs (s.lists i) item
  | .popFront i => popFrontDerefs s.links (s.lists i)
  | .erase i item => eraseDerefs s.links (s.lists i) item
  | .append i j => appendDerefs ((s.release j).lists i) (s.lists j)
  | .prepend _ j => prependDerefs (s.lists j)
  | .construct _ _ => []
  | .assign _ _ => []

/-! ### Sequences -/

/-- The sequences of the items of all lists. -/
abbrev Sequences := Nat → List Nat

/-- What an operation is to do to the sequences. -/
def apply (m : Sequences) : Op → Sequences
  | .pushFront i item => Function.update m i (item :: m i)
  | .pushBack i item => Function.update m i (m i ++ [item])
  | .popFront i => Function.update m i (m i).tail
  | .erase i item => Function.update m i ((m i).erase item)
  | .append i j => Function.update (Function.update m j []) i (Function.update m j [] i ++ m j)
  | .prepend i j => Function.update (Function.update m j []) i (m j ++ Function.update m j [] i)
  | .construct i j => Function.update (Function.update m j []) i (m j)
  | .assign i j => Function.update (Function.update m j []) i (m j)

/-- The operations that may be called: a new item is in no list, a list with items loses its
    first one, an erased item is one of the list, and a list is constructed from another one. -/
def Permitted (m : Sequences) : Op → Prop
  | .pushFront _ item => item ≠ 0 ∧ ∀ k, item ∉ m k
  | .pushBack _ item => item ≠ 0 ∧ ∀ k, item ∉ m k
  | .popFront i => m i ≠ []
  | .erase i item => item ∈ m i
  | .construct i j => i ≠ j
  | _ => True

/-- The items that an operation may dereference: its argument, and those of its lists. -/
def Own (m : Sequences) (item : Nat) : Op → Prop
  | .pushFront i x => item = x ∨ item ∈ m i
  | .pushBack i x => item = x ∨ item ∈ m i
  | .popFront i => item ∈ m i
  | .erase i _ => item ∈ m i
  | .append i j => item ∈ m i ∨ item ∈ m j
  | .prepend i j => item ∈ m i ∨ item ∈ m j
  | .construct i j => item ∈ m i ∨ item ∈ m j
  | .assign i j => item ∈ m i ∨ item ∈ m j

/-- The lists represent the sequences, which share no item. -/
structure Refines (s : Lists) (m : Sequences) : Prop where
  represents : ∀ k, Represents s.links (s.lists k) (m k)
  apart : ∀ j k, j ≠ k → ∀ x ∈ m j, x ∉ m k

/-- No null and no foreign item is dereferenced. -/
def KeepsToOwn (s : Lists) (m : Sequences) (op : Op) : Prop := ∀ x ∈ s.derefs op, x ≠ 0 ∧ Own m x op

/-- The operation does not join items in front of others: it is no `push_front`, and no
    `append` or `prepend` of a list with items to another one with items. -/
def Plain (m : Sequences) : Op → Prop
  | .pushFront _ _ => False
  | .append i j => i = j ∨ m i = [] ∨ m j = []
  | .prepend i j => i = j ∨ m i = [] ∨ m j = []
  | _ => True

variable {links links' : Links} {list list' other : IntrusiveList} {l l' : List Nat} {s : Lists} {m : Sequences} {i j x : Nat}
  {op : Op}

/-! ### One list -/

/-- The links lead through one list only. -/
theorem chain_unique {next : Nat → Nat} {head : Nat} (chain : Chain next head l) (chain' : Chain next head l') : l = l' := by
  induction l generalizing head l' with
  | nil => exact ((chain_nil_iff chain').mp chain).symm
  | cons x l ih =>
    obtain ⟨rfl,real,later⟩ := chain
    obtain ⟨rest,rfl,later'⟩ := chain'.pop real
    rw [ih later later']

theorem append_represents (represents : Represents links list l) (represents' : Represents links other l')
    (plain : l = [] ∨ l' = []) :
    (append links list other).1 = links ∧ Represents links (append links list other).2 (l ++ l') ∧
    appendDerefs list other = [] := by
  unfold append appendDerefs
  split
  · next none =>
    obtain rfl := represents'.head_eq_zero.mp none
    exact ⟨rfl,by rwa [List.append_nil],rfl⟩
  · next some =>
    obtain rfl := plain.resolve_right fun empty => some (represents'.head_eq_zero.mpr empty)
    have none : list.head = 0 := represents.head_eq_zero.mpr rfl
    rw [if_pos none,if_pos none]
    exact ⟨rfl,represents',rfl⟩

/-- Nothing links the items of the other list back to those of this one. -/
theorem append_broken (represents : Represents links list l) (represents' : Represents links other l') (some : l ≠ [])
    (some' : l' ≠ []) : ¬ Represents (append links list other).1 (append links list other).2 (l ++ l') := by
  intro joined
  have backward := joined.backward
  rw [append,if_neg (fun none => some' (represents'.head_eq_zero.mp none)),
    if_neg (fun none => some (represents.head_eq_zero.mp none))] at backward
  have short := chain_unique represents'.backward backward
  rw [List.reverse_append] at short
  exact some (List.reverse_eq_nil_iff.mp (List.self_eq_append_right.mp short))

/-- The last item links to null. -/
theorem next_tail (represents : Represents links list l) (some : l ≠ []) : list.tail ∈ l ∧ links.next list.tail = 0 := by
  obtain ⟨a,x,rfl⟩ : ∃ a x, l = a ++ [x] := ⟨l.dropLast,l.getLast some,(List.dropLast_append_getLast some).symm⟩
  have backward := represents.backward
  rw [List.reverse_append] at backward
  obtain ⟨tail,_,_⟩ := backward
  rw [tail]
  exact ⟨by simp,chain_after represents.forward⟩

theorem prepend_represents (represents : Represents links list l) (represents' : Represents links other l')
    (plain : l = [] ∨ l' = []) :
    (prepend links list other).1 = links ∧ Represents links (prepend links list other).2 (l' ++ l) ∧
    ∀ x ∈ prependDerefs other, x ∈ l' := by
  unfold prepend prependDerefs
  split
  · next none =>
    obtain rfl := represents'.head_eq_zero.mp none
    exact ⟨rfl,represents,by simp⟩
  · next some =>
    have some' : l' ≠ [] := fun empty => some (represents'.head_eq_zero.mpr empty)
    obtain rfl := plain.resolve_right some'
    obtain ⟨member,last⟩ := next_tail represents' some'
    rw [if_pos (represents.tail_eq_zero.mpr rfl),represents.head_eq_zero.mpr rfl,List.append_nil]
    refine ⟨?_,represents',by simpa using member⟩
    rw [← last,Function.update_eq_self]

theorem prepend_broken (represents : Represents links list l) (represents' : Represents links other l') (some : l ≠ [])
    (some' : l' ≠ []) : ¬ Represents (prepend links list other).1 (prepend links list other).2 (l' ++ l) := by
  intro joined
  have backward := joined.backward
  rw [prepend,if_neg (fun none => some' (represents'.head_eq_zero.mp none))] at backward
  simp only [if_neg (fun none => some (represents.tail_eq_zero.mp none))] at backward
  have short := chain_unique represents.backward backward
  rw [List.reverse_append] at short
  exact some' (List.reverse_eq_nil_iff.mp (List.self_eq_append_right.mp short))

theorem pushFront_broken (represents : Represents links list l) (some : l ≠ []) (x : Nat) :
    ¬ Represents (pushFront links list x).1 (pushFront links list x).2 (x :: l) := by
  intro pushed
  have backward := pushed.backward
  simp only [pushFront,if_neg (fun none => some (represents.tail_eq_zero.mp none))] at backward
  have short := chain_unique represents.backward backward
  rw [List.reverse_cons] at short
  exact absurd (List.self_eq_append_right.mp short) (by simp)

/-! ### What is dereferenced -/

theorem pushBackDerefs_own (represents : Represents links list l) :
    ∀ y ∈ pushBackDerefs list x, y = x ∨ y ∈ l := by
  unfold pushBackDerefs
  split
  · simp
  · next some =>
    have member := (next_tail represents fun empty => some (represents.tail_eq_zero.mpr empty)).1
    simp [member]

theorem popFrontDerefs_own (represents : Represents links list l) (some : l ≠ []) :
    ∀ y ∈ popFrontDerefs links list, y ∈ l := by
  obtain ⟨x,rest,rfl⟩ := List.exists_cons_of_ne_nil some
  obtain ⟨rfl,_,later⟩ := represents.forward
  unfold popFrontDerefs
  split
  · simp
  · next second =>
    have first := chain_head? later
    rw [if_neg second] at first
    simp [List.mem_of_head? first]

theorem eraseDerefs_own (represents : Represents links list l) (member : x ∈ l) :
    ∀ y ∈ eraseDerefs links list x, y ∈ l := by
  obtain ⟨a,b,rfl⟩ := List.append_of_mem member
  obtain ⟨before,after⟩ := represents.neighbours
  -- the link that the first half writes is not the one that the second half reads
  have same : (eraseForward links list x).1.next x = links.next x := by
    unfold eraseForward
    split
    · rfl
    · next inner => exact Function.update_of_ne (represents.prev_ne inner) _ _
  have previous : links.prev x ≠ 0 → links.prev x ∈ a := fun inner => by
    rw [if_neg inner] at before
    exact List.mem_of_getLast? before
  have following : links.next x ≠ 0 → links.next x ∈ b := fun inner => by
    rw [if_neg inner] at after
    exact List.mem_of_head? after
  have either : ∀ p y, y ∈ (if p = 0 then [x] else [x,p]) → y = x ∨ p ≠ 0 ∧ y = p := by
    intro p y mem
    split at mem
    · exact .inl (by simpa using mem)
    · next inner =>
      rcases List.mem_cons.mp mem with same | mem
      · exact .inl same
      · exact .inr ⟨inner,by simpa using mem⟩
  intro y derefs
  simp only [eraseDerefs,same,List.mem_append] at derefs
  rw [List.mem_append,List.mem_cons]
  rcases derefs with derefs | derefs
  · rcases either _ y derefs with rfl | ⟨inner,rfl⟩
    · exact .inr (.inl rfl)
    · exact .inl (previous inner)
  · rcases either _ y derefs with rfl | ⟨inner,rfl⟩
    · exact .inr (.inl rfl)
    · exact .inr (.inr (following inner))

/-! ### All lists -/

theorem Refines.put (refines : Refines s m) {result : Links × IntrusiveList}
    (here : Represents result.1 result.2 l)
    (others : ∀ k, k ≠ i → ∀ y ∈ m k, result.1.next y = s.links.next y ∧ result.1.prev y = s.links.prev y)
    (fresh : ∀ k, k ≠ i → ∀ y ∈ l, y ∉ m k) : Refines (s.put i result) (Function.update m i l) := by
  constructor
  · intro k
    by_cases this : k = i
    · subst this
      simpa [Lists.put] using here
    · simp only [Lists.put,Function.update_of_ne this]
      exact (refines.represents k).congr (others k this)
  · intro j k other x mem
    by_cases first : j = i
    · subst first
      rw [Function.update_self] at mem
      rw [Function.update_of_ne (Ne.symm other)]
      exact fresh k (Ne.symm other) x mem
    · rw [Function.update_of_ne first] at mem
      by_cases second : k = i
      · subst second
        rw [Function.update_self]
        exact fun mem' => fresh j first x mem' mem
      · rw [Function.update_of_ne second]
        exact refines.apart j k other x mem

theorem Refines.release (refines : Refines s m) (j : Nat) : Refines (s.release j) (Function.update m j []) := by
  have empty : Represents (s.links,(⟨0,0⟩ : IntrusiveList)).1 (s.links,(⟨0,0⟩ : IntrusiveList)).2 [] :=
    represents_empty s.links
  exact refines.put (i := j) empty (fun _ _ _ _ => ⟨rfl,rfl⟩) (by simp)

/-- A list of the family, and the others while its items are those of no other. -/
theorem Refines.others (refines : Refines s m) {k : Nat} (other : k ≠ i) {y : Nat} (mem : y ∈ m k) : y ∉ m i :=
  refines.apart k i other y mem

/-- The items of a list that is moved are those of no list that is left. -/
theorem moved_fresh (refines : Refines s m) (j k : Nat) : ∀ y ∈ m j, y ∉ Function.update m j [] k := by
  intro y mem
  by_cases this : k = j
  · simp [this]
  · rw [Function.update_of_ne this]
    exact refines.apart j k (Ne.symm this) y mem

/-- A list that gets items of another one that was moved, with their links as they were. -/
theorem Refines.move (refines : Refines s m) {result : Links × IntrusiveList} (links : result.1 = s.links)
    (represents : Represents s.links result.2 l) (items : ∀ y ∈ l, y ∈ Function.update m j [] i ∨ y ∈ m j) :
    Refines ((s.release j).put i result) (Function.update (Function.update m j []) i l) := by
  have released := refines.release j
  refine released.put (by rw [links]; exact represents) (fun k _ y _ => by rw [links]; exact ⟨rfl,rfl⟩) ?_
  intro k other y mem
  rcases items y mem with mem | mem
  · exact released.apart i k (Ne.symm other) y mem
  · exact moved_fresh refines j k y mem

/-- Plain, after the other list was moved: one of both lists is empty. -/
theorem plain_empty (plain : i = j ∨ m i = [] ∨ m j = []) : Function.update m j [] i = [] ∨ m j = [] := by
  rcases plain with rfl | none | none
  · exact .inl (Function.update_self _ _ _)
  · exact .inl (by rw [Function.update_apply,none,ite_self])
  · exact .inr none

/-- A plain operation does to the lists what it does to the sequences. -/
theorem refines_step (refines : Refines s m) (permitted : Permitted m op) (plain : Plain m op) :
    Refines (s.step op) (apply m op) := by
  cases op with
  | pushFront i x => exact absurd plain id
  | pushBack i x =>
    obtain ⟨real,fresh⟩ := permitted
    refine refines.put (pushBack_represents (refines.represents i) real (fresh i)) ?_ ?_
    · intro k other y mem
      exact pushBack_links (refines.represents i) (refines.others other mem) fun same => fresh k (same ▸ mem)
    · intro k other y mem
      rcases List.mem_append.mp mem with mem | mem
      · exact refines.apart i k (Ne.symm other) y mem
      · rw [List.mem_singleton.mp mem]
        exact fresh k
  | popFront i =>
    obtain ⟨x,rest,first⟩ := List.exists_cons_of_ne_nil permitted
    have represents := refines.represents i
    rw [first] at represents
    change Refines _ (Function.update m i (m i).tail)
    rw [first,List.tail_cons]
    refine refines.put (popFront_represents represents).2 ?_ ?_
    · intro k other y mem
      exact popFront_links represents fun inside => refines.others other mem (by rw [first]; exact List.mem_cons_of_mem x inside)
    · intro k other y mem
      exact refines.apart i k (Ne.symm other) y (by rw [first]; exact List.mem_cons_of_mem x mem)
  | erase i x =>
    refine refines.put (erase_represents_of_mem (refines.represents i) permitted) ?_ ?_
    · intro k other y mem
      exact erase_links (refines.represents i) permitted (refines.others other mem)
    · intro k other y mem
      exact refines.apart i k (Ne.symm other) y (List.mem_of_mem_erase mem)
  | append i j =>
    obtain ⟨links,represents,_⟩ :=
      append_represents ((refines.release j).represents i) (refines.represents j) (plain_empty plain)
    exact refines.move links represents fun y => List.mem_append.mp
  | prepend i j =>
    obtain ⟨links,represents,_⟩ :=
      prepend_represents ((refines.release j).represents i) (refines.represents j) (plain_empty plain)
    exact refines.move links represents fun y mem => (List.mem_append.mp mem).symm
  | construct i j => exact refines.move rfl (refines.represents j) fun y => .inr
  | assign i j => exact refines.move rfl (refines.represents j) fun y => .inr

/-- A plain operation dereferences its own items only. -/
theorem derefs_own (refines : Refines s m) (permitted : Permitted m op) (plain : Plain m op) :
    KeepsToOwn s m op := by
  have real : ∀ k, ∀ y ∈ m k, y ≠ 0 := fun k => (refines.represents k).ne_zero
  intro y derefs
  cases op with
  | pushFront i x => exact absurd plain id
  | pushBack i x =>
    rcases pushBackDerefs_own (refines.represents i) y derefs with rfl | mem
    · exact ⟨permitted.1,.inl rfl⟩
    · exact ⟨real i y mem,.inr mem⟩
  | popFront i =>
    have mem := popFrontDerefs_own (refines.represents i) permitted y derefs
    exact ⟨real i y mem,mem⟩
  | erase i x =>
    have mem := eraseDerefs_own (refines.represents i) permitted y derefs
    exact ⟨real i y mem,mem⟩
  | append i j =>
    have none := (append_represents ((refines.release j).represents i) (refines.represents j) (plain_empty plain)).2.2
    rw [Lists.derefs,none] at derefs
    cases derefs
  | prepend i j =>
    have mem :=
      (prepend_represents ((refines.release j).represents i) (refines.represents j) (plain_empty plain)).2.2 y derefs
    exact ⟨real j y mem,.inr mem⟩
  | construct i j => cases derefs
  | assign i j => cases derefs

/-- Every other operation dereferences null, or leaves a list that is none backwards. -/
theorem not_plain_broken (refines : Refines s m) (permitted : Permitted m op) (joins : ¬ Plain m op)
    (own : KeepsToOwn s m op) : ¬ Refines (s.step op) (apply m op) := by
  intro stays
  cases op with
  | pushFront i x =>
    have pushed := stays.represents i
    simp only [Lists.step,Lists.put,apply,Function.update_self] at pushed
    by_cases empty : m i = []
    · have none := (refines.represents i).tail_eq_zero.mpr empty
      refine (own (s.lists i).head ?_).1 ((refines.represents i).head_eq_zero.mpr empty)
      simp [Lists.derefs,pushFrontDerefs,none]
    · exact pushFront_broken (refines.represents i) empty x pushed
  | append i j =>
    simp only [Plain,not_or] at joins
    have joined := stays.represents i
    have same := (refines.release j).represents i
    simp only [Lists.step,Lists.put,apply,Function.update_self] at joined
    refine append_broken same (refines.represents j) ?_ joins.2.2 joined
    rw [Function.update_of_ne joins.1]
    exact joins.2.1
  | prepend i j =>
    simp only [Plain,not_or] at joins
    have joined := stays.represents i
    have same := (refines.release j).represents i
    simp only [Lists.step,Lists.put,apply,Function.update_self] at joined
    refine prepend_broken same (refines.represents j) ?_ joins.2.2 joined
    rw [Function.update_of_ne joins.1]
    exact joins.2.1
  | pushBack i x => exact joins trivial
  | popFront i => exact joins trivial
  | erase i x => exact joins trivial
  | construct i j => exact joins trivial
  | assign i j => exact joins trivial

/-! ### Runs -/

/-- The sequences of empty lists. -/
def noItems : Sequences := fun _ => []

/-- Empty lists, over any memory. -/
def emptyLists (links : Links) : Lists := ⟨links,fun _ => ⟨0,0⟩⟩

theorem emptyLists_refines (links : Links) : Refines (emptyLists links) noItems :=
  ⟨fun _ => represents_empty links,fun _ _ _ _ member => absurd member List.not_mem_nil⟩

/-- A run of permitted operations from empty lists. -/
def Valid (ops : List Op) : Prop := Throughout apply Permitted noItems ops

/-- Every operation of a run keeps to its own items, and the lists represent the sequences before
    it and after it. -/
def Represented (links : Links) (ops : List Op) : Prop :=
  Correct Lists.step apply KeepsToOwn Refines (emptyLists links) noItems ops

/-- In a run from empty lists, every operation keeps to its items and the lists represent the
    sequences all the time, if and only if none of the operations joins items in front of
    others. -/
theorem lists_refine_iff (links : Links) (ops : List Op) (valid : Valid ops) :
    Represented links ops ↔ Throughout apply Plain noItems ops :=
  correct_iff Refines (fun _ _ => id)
    (fun _ _ _ refines permitted plain => ⟨derefs_own refines permitted plain,refines_step refines permitted plain⟩)
    (fun _ _ _ => not_plain_broken) (emptyLists_refines links) valid

/-- Two items that are added, moved to another list, and erased there. -/
theorem lists_refine_moved : Represented ⟨id,id⟩ [.pushBack 0 7,.pushBack 0 9,.append 1 0,.erase 1 7,.popFront 1] :=
  (lists_refine_iff _ _ (by simp [Valid,Throughout,Permitted,apply,noItems,Function.update_apply])).mpr
    (by simp [Throughout,Plain,apply,noItems])

/-- To push an item to the front of an empty list is to write through null. -/
theorem push_front_writes_null : ¬ ∀ (links : Links) (ops : List Op), Valid ops → Represented links ops := by
  intro claimed
  have correct := claimed ⟨fun _ => 0,fun _ => 0⟩ [.pushFront 0 7] ⟨⟨by decide,fun _ => List.not_mem_nil⟩,trivial⟩
  exact (correct.2.1 0 (by decide)).1 rfl

end SendersIo.ListOperations
