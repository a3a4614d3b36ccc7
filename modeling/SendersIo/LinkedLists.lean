import Mathlib.Data.List.Nodup

/-!
Singly linked lists whose links are read by a function, as they are from memory:
null is zero.
-/
namespace SendersIo.LinkedLists

/-- The nodes from `head` on are those of the list, and the last one links to null. -/
def Chain (next : Nat → Nat) : Nat → List Nat → Prop
  | head,[] => head = 0
  | head,p :: rest => head = p ∧ p ≠ 0 ∧ Chain next (next p) rest

/-- The nodes that a walk along the links visits before it comes to null. -/
def walk (next : Nat → Nat) : Nat → Nat → Option (List Nat)
  | 0,_ => none
  | fuel + 1,head => if head = 0 then some [] else (walk next fuel (next head)).map (head :: ·)

variable {next next' : Nat → Nat} {head p : Nat} {l : List Nat}

theorem Chain.ne_zero (chain : Chain next head l) : ∀ p ∈ l, p ≠ 0 := by
  induction l generalizing head with
  | nil => simp
  | cons p rest ih =>
    obtain ⟨_,some,later⟩ := chain
    intro q member
    rcases List.mem_cons.mp member with rfl | member
    · exact some
    · exact ih later q member

/-- Links that are not those of its nodes do not matter to a list. -/
theorem Chain.congr (chain : Chain next head l) (same : ∀ p ∈ l, next' p = next p) : Chain next' head l := by
  induction l generalizing head with
  | nil => exact chain
  | cons p rest ih =>
    obtain ⟨first,some,later⟩ := chain
    refine ⟨first,some,?_⟩
    rw [same p (by simp)]
    exact ih later fun q member => same q (by simp [member])

theorem Chain.push (chain : Chain next head l) (link : next p = head) (some : p ≠ 0) : Chain next p (p :: l) :=
  ⟨rfl,some,link ▸ chain⟩

theorem chain_nil_iff (chain : Chain next head l) : head = 0 ↔ l = [] := by
  cases l with
  | nil => exact iff_of_true chain rfl
  | cons p rest =>
    obtain ⟨rfl,some,_⟩ := chain
    exact iff_of_false some (by simp)

/-- A list with a head has that node first, and its link leads to the others. -/
theorem Chain.pop (chain : Chain next head l) (some : head ≠ 0) : ∃ rest, l = head :: rest ∧ Chain next (next head) rest := by
  cases l with
  | nil => exact absurd chain some
  | cons p rest =>
    obtain ⟨rfl,_,later⟩ := chain
    exact ⟨rest,rfl,later⟩

/-- A walk that is long enough visits exactly the nodes of the list. -/
theorem walk_of_chain {fuel : Nat} (chain : Chain next head l) (enough : l.length < fuel) : walk next fuel head = some l := by
  induction l generalizing head fuel with
  | nil =>
    obtain ⟨fuel,rfl⟩ := Nat.exists_eq_succ_of_ne_zero (Nat.ne_of_gt enough)
    simp [walk,show head = 0 from chain]
  | cons p rest ih =>
    obtain ⟨fuel,rfl⟩ := Nat.exists_eq_succ_of_ne_zero (Nat.ne_of_gt (Nat.lt_of_le_of_lt (Nat.zero_le _) enough))
    obtain ⟨rfl,some,later⟩ := chain
    rw [walk,if_neg some,ih later (by simpa using enough)]
    rfl

end SendersIo.LinkedLists
