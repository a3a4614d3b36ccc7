import Mathlib.Logic.Function.Basic
import SendersIo.LinkedLists

/-!
Doubly linked lists of items that hold their own links. A list is its two ends;
the links are read by functions, as they are from memory, and null is zero. The
operations do what they do to any links; they are the operations on sequences
where the ends represent one.
-/
namespace SendersIo.IntrusiveLists
open SendersIo.LinkedLists

/-- The links of all items. -/
structure Links where
  next : Nat → Nat
  prev : Nat → Nat

structure IntrusiveList where
  head : Nat
  tail : Nat
  deriving DecidableEq

/-- `intrusive_list::pop_front`; the item is the head before. -/
def popFront (links : Links) (list : IntrusiveList) : Links × IntrusiveList :=
  let item := list.head
  let second := links.next item
  if second = 0 then (links,⟨second,0⟩)
  else ({ links with prev := Function.update links.prev second 0 },{ list with head := second })

/-- `intrusive_list::push_back`. -/
def pushBack (links : Links) (list : IntrusiveList) (item : Nat) : Links × IntrusiveList :=
  let next := Function.update links.next item 0
  let prev := Function.update links.prev item list.tail
  if list.tail = 0 then (⟨next,prev⟩,⟨item,item⟩)
  else (⟨Function.update next list.tail item,prev⟩,{ list with tail := item })

/-- What `intrusive_list::erase` does to the link or the end before the item. -/
def eraseForward (links : Links) (list : IntrusiveList) (item : Nat) : Links × IntrusiveList :=
  if links.prev item = 0 then (links,{ list with head := links.next item })
  else ({ links with next := Function.update links.next (links.prev item) (links.next item) },list)

/-- What `intrusive_list::erase` does to the link or the end after the item. -/
def eraseBackward (links : Links) (list : IntrusiveList) (item : Nat) : Links × IntrusiveList :=
  if links.next item = 0 then (links,{ list with tail := links.prev item })
  else ({ links with prev := Function.update links.prev (links.next item) (links.prev item) },list)

/-- `intrusive_list::erase`. -/
def erase (links : Links) (list : IntrusiveList) (item : Nat) : Links × IntrusiveList :=
  let (links,list) := eraseForward links list item
  eraseBackward links list item

/-- The ends represent the sequence: the links lead through it from the head, and
    back through it from the tail. -/
structure Represents (links : Links) (list : IntrusiveList) (l : List Nat) : Prop where
  forward : Chain links.next list.head l
  backward : Chain links.prev list.tail l.reverse
  once : l.Nodup

variable {links links' : Links} {list : IntrusiveList} {l l' : List Nat} {x head : Nat} {next next' : Nat → Nat}

theorem represents_empty (links : Links) : Represents links ⟨0,0⟩ [] := ⟨rfl,rfl,List.nodup_nil⟩

theorem Represents.ne_zero (represents : Represents links list l) : ∀ y ∈ l, y ≠ 0 :=
  represents.forward.ne_zero

theorem Represents.head_eq_zero (represents : Represents links list l) : list.head = 0 ↔ l = [] :=
  chain_nil_iff represents.forward

theorem Represents.tail_eq_zero (represents : Represents links list l) : list.tail = 0 ↔ l = [] := by
  rw [chain_nil_iff represents.backward,List.reverse_eq_nil_iff]

/-- Links that are not those of its items do not matter to a list. -/
theorem Represents.congr (represents : Represents links list l)
    (same : ∀ y ∈ l, links'.next y = links.next y ∧ links'.prev y = links.prev y) : Represents links' list l :=
  ⟨represents.forward.congr fun y member => (same y member).1,
    represents.backward.congr fun y member => (same y (List.mem_reverse.mp member)).2,represents.once⟩

/-! ### Chains that are cut and joined -/

/-- The chain after one of its nodes. -/
theorem chain_after {a b : List Nat} (chain : Chain next head (a ++ x :: b)) : Chain next (next x) b := by
  induction a generalizing head with
  | nil => exact chain.2.2
  | cons y rest ih => exact ih chain.2.2

theorem chain_head? (chain : Chain next head l) : l.head? = if head = 0 then none else some head := by
  cases l with
  | nil => simp [show head = 0 from chain]
  | cons y rest =>
    obtain ⟨rfl,real,_⟩ := chain
    simp [real]

theorem chain_headD (chain : Chain next head l) : head = l.headD 0 := by
  cases l with
  | nil => exact chain
  | cons y rest => exact chain.1

/-- The first nodes of a chain, with the link of the last of them turned to another
    chain. -/
theorem chain_graft {a b m : List Nat} {other : Nat} (chain : Chain next head (a ++ m)) (once : a.Nodup)
    (same : ∀ y ∈ a, a.getLast? ≠ some y → next' y = next y) (joint : ∀ y, a.getLast? = some y → next' y = other)
    (rest : Chain next' other b) : Chain next' (if a = [] then other else head) (a ++ b) := by
  induction a generalizing head with
  | nil => simpa using rest
  | cons y more ih =>
    obtain ⟨rfl,real,later⟩ := chain
    obtain ⟨absent,once⟩ := List.nodup_cons.mp once
    refine ⟨by simp,by simpa using real,?_⟩
    cases more with
    | nil =>
      rw [joint head rfl]
      exact rest
    | cons z more =>
      have kept : next' head = next head := by
        refine same head (by simp) fun last => absent ?_
        rw [List.getLast?_cons_cons] at last
        exact List.mem_of_getLast? last
      have tail := ih later once
        (fun w member other => same w (List.mem_cons_of_mem _ member) (by rwa [List.getLast?_cons_cons]))
        (fun w last => joint w (by rwa [List.getLast?_cons_cons]))
      rw [kept]
      simpa using tail

/-! ### The operations on sequences -/

/-- The head is the first item, and it is taken off. -/
theorem popFront_represents (represents : Represents links list (x :: l)) :
    list.head = x ∧ Represents (popFront links list).1 (popFront links list).2 l := by
  obtain ⟨⟨rfl,real,later⟩,backward,once⟩ := represents
  obtain ⟨absent,once⟩ := List.nodup_cons.mp once
  refine ⟨rfl,?_⟩
  rw [List.reverse_cons] at backward
  unfold popFront
  simp only
  split
  · rename_i alone
    obtain rfl := (chain_nil_iff later).mp alone
    exact ⟨alone,rfl,once⟩
  · rename_i second
    have nonempty : l ≠ [] := fun empty => second ((chain_nil_iff later).mpr empty)
    have first := chain_head? later
    rw [if_neg second] at first
    have last : l.reverse.getLast? = some (links.next list.head) := by rw [List.getLast?_reverse,first]
    have cut : Chain (Function.update links.prev (links.next list.head) 0) (if l.reverse = [] then 0 else list.tail)
        (l.reverse ++ []) :=
      chain_graft backward (by simpa using once)
        (fun y _ other => Function.update_of_ne (fun same => other (by rw [last,same])) _ _)
        (fun y at_y => by
          rw [last] at at_y
          cases at_y
          exact Function.update_self _ _ _)
        rfl
    rw [if_neg (by simpa using nonempty),List.append_nil] at cut
    exact ⟨later,cut,once⟩

/-- Taking off the first item changes the links of other items of the list only. -/
theorem popFront_links (represents : Represents links list (x :: l)) {y : Nat} (out : y ∉ l) :
    (popFront links list).1.next y = links.next y ∧ (popFront links list).1.prev y = links.prev y := by
  obtain ⟨rfl,_,later⟩ := represents.forward
  have first := chain_head? later
  unfold popFront
  simp only
  split
  · exact ⟨rfl,rfl⟩
  · rename_i second
    rw [if_neg second] at first
    refine ⟨rfl,Function.update_of_ne ?_ _ _⟩
    rintro rfl
    exact out (List.mem_of_head? first)

theorem pushBack_represents (represents : Represents links list l) (real : x ≠ 0) (absent : x ∉ l) :
    Represents (pushBack links list x).1 (pushBack links list x).2 (l ++ [x]) := by
  have once : (l ++ [x]).Nodup := represents.once.append (List.nodup_singleton x) (by simpa using absent)
  unfold pushBack
  simp only
  split
  · rename_i nothing
    obtain rfl := represents.tail_eq_zero.mp nothing
    refine ⟨⟨rfl,real,?_⟩,⟨rfl,real,?_⟩,once⟩
    · simp [Chain]
    · simpa [Chain] using nothing
  · rename_i something
    have nonempty : l ≠ [] := fun empty => something (represents.tail_eq_zero.mpr empty)
    have last := chain_head? represents.backward
    rw [if_neg something,List.head?_reverse] at last
    have at_tail : list.tail ∈ l := List.mem_of_getLast? last
    have other : list.tail ≠ x := by
      rintro rfl
      exact absent at_tail
    refine ⟨?_,?_,once⟩
    · have grafted : Chain (Function.update (Function.update links.next x 0) list.tail x) (if l = [] then x else list.head)
          (l ++ [x]) := by
        refine chain_graft (m := []) (by simpa using represents.forward) represents.once ?_ ?_ ⟨rfl,real,?_⟩
        · intro y member inner
          have fresh : y ≠ x := by
            rintro rfl
            exact absent member
          rw [Function.update_of_ne (fun same => inner (by rw [last,same])),Function.update_of_ne fresh]
        · intro y at_y
          rw [last] at at_y
          cases at_y
          exact Function.update_self _ _ _
        · simp [Chain,Function.update_of_ne (Ne.symm other)]
      rwa [if_neg nonempty] at grafted
    · rw [List.reverse_append]
      refine ⟨rfl,real,?_⟩
      simp only [Function.update_self]
      refine represents.backward.congr fun y member => Function.update_of_ne ?_ _ _
      rintro rfl
      exact absent (List.mem_reverse.mp member)

/-- Adding an item changes its links and those of items of the list only. -/
theorem pushBack_links (represents : Represents links list l) {y : Nat} (out : y ∉ l) (other : y ≠ x) :
    (pushBack links list x).1.next y = links.next y ∧ (pushBack links list x).1.prev y = links.prev y := by
  have last := chain_head? represents.backward
  unfold pushBack
  simp only
  split
  · exact ⟨Function.update_of_ne other _ _,Function.update_of_ne other _ _⟩
  · rename_i something
    rw [if_neg something,List.head?_reverse] at last
    refine ⟨?_,Function.update_of_ne other _ _⟩
    have inner : y ≠ list.tail := by
      rintro rfl
      exact out (List.mem_of_getLast? last)
    exact (Function.update_of_ne inner _ _).trans (Function.update_of_ne other _ _)

section
variable {a b : List Nat}

/-- The links of an item lead to its neighbours. -/
theorem Represents.neighbours (represents : Represents links list (a ++ x :: b)) :
    (a.getLast? = if links.prev x = 0 then none else some (links.prev x)) ∧
      b.head? = if links.next x = 0 then none else some (links.next x) := by
  have backward := represents.backward
  rw [List.reverse_append,List.reverse_cons,List.append_assoc,List.singleton_append] at backward
  rw [← List.head?_reverse]
  exact ⟨chain_head? (chain_after backward),chain_head? (chain_after represents.forward)⟩

theorem Represents.prev_ne (represents : Represents links list (a ++ x :: b)) (inner : links.prev x ≠ 0) :
    x ≠ links.prev x := by
  intro same
  have before := represents.neighbours.1
  rw [if_neg inner] at before
  exact (List.nodup_append.mp represents.once).2.2 _ (List.mem_of_getLast? before) x (by simp) same.symm

theorem eraseForward_chain (represents : Represents links list (a ++ x :: b)) :
    Chain (eraseForward links list x).1.next (eraseForward links list x).2.head (a ++ b) := by
  have before := represents.neighbours.1
  have once := List.nodup_append.mp represents.once
  have later := chain_after represents.forward
  unfold eraseForward
  split
  · rename_i first
    rw [if_pos first,List.getLast?_eq_none_iff] at before
    subst before
    exact later
  · rename_i inner
    rw [if_neg inner] at before
    have nonempty : a ≠ [] := by
      rintro rfl
      simp at before
    have grafted : Chain (Function.update links.next (links.prev x) (links.next x))
        (if a = [] then links.next x else list.head) (a ++ b) := by
      refine chain_graft represents.forward once.1 ?_ ?_ (later.congr fun y member => ?_)
      · intro y _ other
        exact Function.update_of_ne (fun same => other (by rw [before,same])) _ _
      · intro y at_y
        rw [before] at at_y
        cases at_y
        exact Function.update_self _ _ _
      · refine Function.update_of_ne ?_ _ _
        rintro rfl
        exact once.2.2 _ (List.mem_of_getLast? before) _ (List.mem_cons_of_mem x member) rfl
    rwa [if_neg nonempty] at grafted

theorem eraseBackward_chain (represents : Represents links list (a ++ x :: b)) :
    Chain (eraseBackward links list x).1.prev (eraseBackward links list x).2.tail (a ++ b).reverse := by
  have after := represents.neighbours.2
  have backward := represents.backward
  have once : (b.reverse ++ x :: a.reverse).Nodup := by simpa using List.nodup_reverse.mpr represents.once
  rw [List.reverse_append,List.reverse_cons,List.append_assoc,List.singleton_append] at backward
  rw [List.reverse_append]
  have earlier := chain_after backward
  have distinct := List.nodup_append.mp once
  unfold eraseBackward
  split
  · rename_i last
    rw [if_pos last,List.head?_eq_none_iff] at after
    subst after
    exact earlier
  · rename_i inner
    rw [if_neg inner,← List.getLast?_reverse] at after
    have nonempty : b.reverse ≠ [] := by
      intro empty
      simp [empty] at after
    have grafted : Chain (Function.update links.prev (links.next x) (links.prev x))
        (if b.reverse = [] then links.prev x else list.tail) (b.reverse ++ a.reverse) := by
      refine chain_graft backward distinct.1 ?_ ?_ (earlier.congr fun y member => ?_)
      · intro y _ other
        exact Function.update_of_ne (fun same => other (by rw [after,same])) _ _
      · intro y at_y
        rw [after] at at_y
        cases at_y
        exact Function.update_self _ _ _
      · refine Function.update_of_ne ?_ _ _
        rintro rfl
        exact distinct.2.2 _ (List.mem_of_getLast? after) _ (List.mem_cons_of_mem x member) rfl
    rwa [if_neg nonempty] at grafted

/-- An item of the list is taken out of it. -/
theorem erase_represents (represents : Represents links list (a ++ x :: b)) :
    Represents (erase links list x).1 (erase links list x).2 (a ++ b) := by
  have forward := eraseForward_chain represents
  have backward := eraseBackward_chain represents
  have apart := represents.prev_ne
  -- the first half leaves the links that the second half reads
  have unchanged : (erase links list x).1.next = (eraseForward links list x).1.next ∧
      (erase links list x).2.head = (eraseForward links list x).2.head ∧
      (erase links list x).1.prev = (eraseBackward links list x).1.prev ∧
      (erase links list x).2.tail = (eraseBackward links list x).2.tail := by
    by_cases first : links.prev x = 0
    · by_cases last : links.next x = 0 <;> simp [erase,eraseForward,eraseBackward,first,last]
    · by_cases last : links.next x = 0 <;>
        simp [erase,eraseForward,eraseBackward,first,last,Function.update_of_ne (apart first)]
  refine ⟨?_,?_,?_⟩
  · rw [unchanged.1,unchanged.2.1]
    exact forward
  · rw [unchanged.2.2.1,unchanged.2.2.2]
    exact backward
  · exact represents.once.sublist ((List.sublist_cons_self x b).append_left a)

end

theorem erase_represents_of_mem (represents : Represents links list l) (member : x ∈ l) :
    Represents (erase links list x).1 (erase links list x).2 (l.erase x) := by
  obtain ⟨a,b,absent,rfl,erased⟩ := List.exists_erase_eq member
  rw [erased]
  exact erase_represents represents

/-- Taking an item out changes the links of other items of the list only. -/
theorem erase_links (represents : Represents links list l) (member : x ∈ l) {y : Nat} (out : y ∉ l) :
    (erase links list x).1.next y = links.next y ∧ (erase links list x).1.prev y = links.prev y := by
  obtain ⟨a,b,rfl⟩ := List.append_of_mem member
  obtain ⟨before,after⟩ := represents.neighbours
  have apart : links.prev x ≠ 0 → y ≠ links.prev x := by
    rintro inner rfl
    rw [if_neg inner] at before
    exact out (List.mem_append_left _ (List.mem_of_getLast? before))
  have apart' : links.next x ≠ 0 → y ≠ links.next x := by
    rintro inner rfl
    rw [if_neg inner] at after
    exact out (List.mem_append_right _ (List.mem_cons_of_mem x (List.mem_of_head? after)))
  have self := represents.prev_ne
  by_cases first : links.prev x = 0
  · by_cases last : links.next x = 0
    · simp [erase,eraseForward,eraseBackward,first,last]
    · simp [erase,eraseForward,eraseBackward,first,last,Function.update_of_ne (apart' last)]
  · by_cases last : links.next x = 0
    · simp [erase,eraseForward,eraseBackward,first,last,Function.update_of_ne (apart first),
        Function.update_of_ne (self first)]
    · simp [erase,eraseForward,eraseBackward,first,last,Function.update_of_ne (apart first),
        Function.update_of_ne (apart' last),Function.update_of_ne (self first)]

/-- Of the links to the next items, taking an item out changes that of the item before it only. -/
theorem erase_next {y : Nat} (other : y ≠ links.prev x) : (erase links list x).1.next y = links.next y := by
  have forward : (eraseForward links list x).1.next y = links.next y := by
    unfold eraseForward
    split
    · rfl
    · exact Function.update_of_ne other ..
  have backward : ∀ (links : Links) (list : IntrusiveList), (eraseBackward links list x).1.next = links.next := by
    intro links list
    unfold eraseBackward
    split
    · rfl
    · rfl
  exact (congrFun (backward ..) y).trans forward

/-! ### Items that the links lead to -/

/-- The links lead from the head, and from items with the property, to such items or
    to null, whether or not the ends represent a list. -/
structure Closed (links : Links) (list : IntrusiveList) (P : Nat → Prop) : Prop where
  head : list.head = 0 ∨ P list.head
  next : ∀ y, P y → links.next y = 0 ∨ P (links.next y)

variable {P Q : Nat → Prop}

theorem popFront_closed (closed : Closed links list P) (real : list.head ≠ 0) :
    Closed (popFront links list).1 (popFront links list).2 P := by
  have first := closed.head.resolve_left real
  unfold popFront
  simp only
  split
  · exact ⟨closed.next _ first,closed.next⟩
  · exact ⟨closed.next _ first,closed.next⟩

theorem pushBack_closed (closed : Closed links list P) (more : ∀ y, P y → Q y) (item : Q x)
    (only : ∀ y, Q y → y = x ∨ P y) : Closed (pushBack links list x).1 (pushBack links list x).2 Q := by
  have update : ∀ y, Q y → Function.update links.next x 0 y = 0 ∨ Q (Function.update links.next x 0 y) := by
    intro y inside
    by_cases this : y = x
    · exact .inl (by simp [this])
    · rw [Function.update_of_ne this]
      exact (closed.next y ((only y inside).resolve_left this)).imp_right (more _)
  unfold pushBack
  simp only
  split
  · exact ⟨.inr item,update⟩
  · refine ⟨closed.head.imp_right (more _),fun y inside => ?_⟩
    by_cases this : y = list.tail
    · exact .inr (by simpa [this] using item)
    · simpa [Function.update_of_ne this] using update y inside

theorem erase_closed (closed : Closed links list P) (item : P x) :
    Closed (erase links list x).1 (erase links list x).2 P := by
  have later := closed.next x item
  have forward : Closed (eraseForward links list x).1 (eraseForward links list x).2 P := by
    unfold eraseForward
    split
    · exact ⟨later,closed.next⟩
    · refine ⟨closed.head,fun y inside => ?_⟩
      by_cases this : y = links.prev x
      · simpa [this] using later
      · simpa [Function.update_of_ne this] using closed.next y inside
  unfold erase
  simp only
  unfold eraseBackward
  split
  · exact ⟨forward.head,forward.next⟩
  · exact ⟨forward.head,forward.next⟩

end SendersIo.IntrusiveLists
