import SendersIo.Subspans

/-!
Slices of slices. A chain of `prefix` and `suffix` calls stays within the span that it
starts from, and no subtraction wraps around, as long as every call stops at a buffer
that has the offsets it returns.
-/
namespace SendersIo.SubspanCuts
open SendersIo.Buffers SendersIo.Subspans

variable {m m' : Memory} {s s' : Subspan} {p q a i j k n i0 iN : Nat} {sub other : Nat → Nat → Option Nat}

/-- The calls of a chain. -/
inductive Cut where
  | prefixOf (n : Nat)
  | suffixOf (n : Nat)
  deriving DecidableEq

def Cut.apply (sub : Nat → Nat → Option Nat) (m : Memory) (s : Subspan) : Cut → Option Subspan
  | .prefixOf n => s.prefixOf sub m n
  | .suffixOf n => s.suffixOf sub m n

section
variable (m : Memory) (s : Subspan) (p : Nat)

/-- A slice lies in a span of `k` buffers, with its ends in its buffers, and the
    subtractions of `buffer_size` do not wrap around. -/
def Represents (k : Nat) : Prop := Inside m p k s ∧ (s.bufferSize checked m).isSome = true

/-- Every slice of a chain of calls lies in the span, and no subtraction on the way
    wraps around. -/
def Keeps (k : Nat) : List Cut → Subspan → Prop
  | [],s => Represents m s p k
  | cut :: cuts,s => Represents m s p k ∧ ∃ s', cut.apply checked m s = some s' ∧ Keeps k cuts s'

/-- The walk stops at a buffer that has the offset of the start, with a last buffer that has
    the offset of the end, and passes only buffers that have no more than is missing. -/
def WalkFits : Nat → Nat → Prop
  | 0,_ => True
  | i + 1,n =>
    if n ≤ m.sizeAt p then
      m.sizeAt p - n ≤ m.sizeAt (p + (i + 1)) ∧ m.sizeAt p ≤ m.sizeAt (p + s.size - 1)
    else m.sizeAt (p + (i + 1)) ≤ n ∧ WalkFits i (n - m.sizeAt (p + (i + 1)))

/-- What a call needs to return offsets into the buffers that it returns. -/
def Cut.Fits : Cut → Prop
  | .prefixOf n => ∀ p, s.buffers = some p → s.size = 1 → n + s.i0 ≤ m.sizeAt p
  | .suffixOf n => ∀ p, s.buffers = some p → 2 ≤ s.size → s.iN < n → WalkFits m s p (s.size - 2) (n - s.iN)

/-- Every call of a chain has what it needs. -/
def ChainFits : List Cut → Subspan → Prop
  | [],_ => True
  | cut :: cuts,s => cut.Fits m s ∧ ∀ s', cut.apply wrapping m s = some s' → ChainFits cuts s'

end

/-! ### Where no subtraction wraps around, the machine subtracts -/

/-- The second outcome is the first one, if there is one. -/
def Agrees {α : Type} (x y : Option α) : Prop := ∀ r, x = some r → y = some r

theorem agrees_rfl {α : Type} {x : Option α} : Agrees x x := fun _ => id

theorem agrees_bind {α β : Type} {x y : Option α} {f g : α → Option β} (first : Agrees x y)
    (second : ∀ a, Agrees (f a) (g a)) : Agrees (x.bind f) (y.bind g) := by
  intro b gives
  obtain ⟨a,at_x,then_⟩ := Option.bind_eq_some_iff.mp gives
  rw [first a at_x]
  exact second a b then_

theorem agrees_ite {α : Type} {c : Prop} [Decidable c] {x y x' y' : Option α} (first : Agrees x y) (second : Agrees x' y') :
    Agrees (if c then x else x') (if c then y else y') := by
  split
  · exact first
  · exact second

/-- The other subtraction gives all differences that the first one gives. -/
def Extends (sub other : Nat → Nat → Option Nat) : Prop := ∀ a b, Agrees (sub a b) (other a b)

theorem checked_extends : Extends checked wrapping := by
  intro a b d gives
  unfold checked at gives
  split at gives
  · rename_i fits
    rw [wrapping,if_pos fits]
    exact gives
  · cases gives

section
variable (ext : Extends sub other)
include ext

theorem find_extends {left count : Nat} :
    Agrees (findBufferIndexForN sub m p count left i n) (findBufferIndexForN other m p count left i n) := by
  induction left generalizing i n with
  | zero => exact agrees_bind (ext i 1) fun _ => agrees_rfl
  | succ left ih => exact agrees_bind agrees_rfl fun _ => agrees_ite agrees_rfl (agrees_bind (ext _ _) fun _ => ih)

theorem prefixOf_extends : Agrees (s.prefixOf sub m n) (s.prefixOf other m n) := by
  refine agrees_ite agrees_rfl (agrees_bind agrees_rfl fun p => agrees_bind agrees_rfl fun b => ?_)
  refine agrees_bind (ext _ _) fun length => agrees_ite agrees_rfl ?_
  exact agrees_bind (ext _ _) fun _ => agrees_bind (ext _ _) fun _ => agrees_bind (find_extends ext) fun _ => agrees_rfl

theorem walk_extends : Agrees (s.walk sub m p i n) (s.walk other m p i n) := by
  induction i generalizing n with
  | zero =>
    refine agrees_bind agrees_rfl fun b => agrees_bind (ext _ _) fun length => agrees_ite ?_ agrees_rfl
    exact agrees_bind (ext _ _) fun _ => agrees_rfl
  | succ i ih =>
    refine agrees_bind agrees_rfl fun b => agrees_ite ?_ ?_
    · exact agrees_bind (ext _ _) fun _ => agrees_bind (ext _ _) fun _ => agrees_rfl
    · exact agrees_bind agrees_rfl fun _ => agrees_bind (ext _ _) fun _ => ih

theorem suffixOf_extends : Agrees (s.suffixOf sub m n) (s.suffixOf other m n) := by
  refine agrees_ite agrees_rfl (agrees_bind agrees_rfl fun p => agrees_ite ?_ (agrees_ite ?_ ?_))
  · exact agrees_bind (ext _ _) fun _ => agrees_ite (agrees_bind (ext _ _) fun _ => agrees_rfl) agrees_rfl
  · exact agrees_bind (ext _ _) fun _ => agrees_rfl
  · exact agrees_bind (ext _ _) fun _ => agrees_bind (ext _ _) fun _ => walk_extends ext

theorem apply_extends (cut : Cut) : Agrees (cut.apply sub m s) (cut.apply other m s) := by
  cases cut with
  | prefixOf n => exact prefixOf_extends ext
  | suffixOf n => exact suffixOf_extends ext

end

/-! ### One call -/

theorem inside_of_slice (slice : Slice m s p) : Inside m p s.size s := .inr ⟨p,slice,Nat.le_refl p,Nat.le_refl _⟩

theorem inside_trans (above : p ≤ q) (below : q + n ≤ p + k) (inside : Inside m q n s) : Inside m p k s :=
  inside.imp_right fun ⟨r,slice,after,before⟩ => ⟨r,slice,by omega,by omega⟩

theorem valid_of_inside (inside : Inside m p k s) : Valid m s :=
  inside.imp_right fun ⟨q,slice,_⟩ => ⟨q,slice⟩

/-- The ends of a slice that the walk returns. -/
theorem ends_of_make (several : 2 ≤ k) (valid : Valid m (.make (some a) k i0 iN)) :
    i0 ≤ m.sizeAt a ∧ iN ≤ m.sizeAt (a + k - 1) := by
  rw [Subspan.make,if_neg (by omega)] at valid
  rcases valid with none | ⟨q,slice⟩
  · simp only at none
    omega
  · obtain rfl : a = q := Option.some.inj slice.pointer
    exact ⟨slice.starts,slice.ends⟩

/-- What the walk needs is enough for a slice of the slice, and without it there is no
    outcome, or it has an end outside of its buffers. -/
theorem walk_fits (slice : Slice m s p) (inside : i + 2 ≤ s.size) :
    (WalkFits m s p i n → ∃ s', s.walk checked m p i n = some s' ∧ Inside m p s.size s') ∧
    ∀ s', s.walk checked m p i n = some s' → Valid m s' → WalkFits m s p i n := by
  have starts := slice.starts
  have some_ := slice.nonempty
  obtain ⟨b,at_p,size⟩ := slice.reads 0 slice.nonempty
  rw [Nat.add_zero] at at_p size
  induction i generalizing n with
  | zero =>
    refine ⟨fun _ => ?_,fun _ _ _ => trivial⟩
    by_cases fits : n ≤ m.sizeAt p - s.i0
    · refine ⟨.make (some p) s.size (m.sizeAt p - n) s.iN,?_,?_⟩
      · have start : n ≤ m.sizeAt p := by omega
        simp only [Subspan.walk,at_p,size,checked_exact _ _ starts,slice.first_end,checked_exact _ _ start,
          Option.bind_eq_bind,Option.bind_some,if_pos fits]
        rfl
      · exact make_inside slice (Nat.le_refl p) (Nat.le_refl _) (by omega) slice.ends (by omega)
    · exact ⟨s,by simp [Subspan.walk,at_p,size,checked_exact _ _ starts,fits],inside_of_slice slice⟩
  | succ i ih =>
    obtain ⟨c,at_i,here⟩ := slice.reads (i + 1) (by omega)
    rw [WalkFits]
    by_cases stops : n ≤ m.sizeAt p
    · have result : s.walk checked m p (i + 1) n =
          some (.make (some (p + (i + 1))) (s.size - (i + 1)) (m.sizeAt p - n) (m.sizeAt p)) := by
        simp [Subspan.walk,at_p,size,stops,checked,show i + 1 ≤ s.size by omega]
      have end_ : p + (i + 1) + (s.size - (i + 1)) - 1 = p + s.size - 1 := by omega
      rw [if_pos stops,result]
      constructor
      · rintro ⟨first,last⟩
        exact ⟨_,rfl,make_inside slice (by omega) (by omega) first (end_ ▸ last) (by omega)⟩
      · intro s' same valid
        obtain rfl := Option.some.inj same
        exact end_ ▸ ends_of_make (by omega) valid
    · have walks : s.walk checked m p (i + 1) n = (checked n c.size).bind fun n => s.walk checked m p i n := by
        simp [Subspan.walk,at_p,size,stops,at_i]
      rw [if_neg stops,walks,here]
      by_cases passed : m.sizeAt (p + (i + 1)) ≤ n
      · obtain ⟨enough,needed⟩ := ih (n := n - m.sizeAt (p + (i + 1))) (by omega)
        rw [checked_exact _ _ passed,Option.bind_some]
        exact ⟨fun fits => enough fits.2,fun s' found valid => ⟨passed,needed s' found valid⟩⟩
      · rw [checked,if_neg passed,Option.bind_none]
        exact ⟨fun fits => absurd fits.1 passed,fun s' found => by cases found⟩

/-- The same of a call: what it needs is enough for a slice of the slice, and needed for a
    slice at all. -/
theorem cut_fits (slice : Slice m s p) (cut : Cut) :
    (cut.Fits m s → ∃ s', cut.apply checked m s = some s' ∧ Inside m p s.size s') ∧
    ∀ s', cut.apply checked m s = some s' → Valid m s' → cut.Fits m s := by
  have some_ := slice.nonempty
  have ends := slice.ends
  cases cut with
  | prefixOf n =>
    constructor
    · intro fits
      obtain ⟨s',found,inside,_⟩ := prefixOf_full (n := n) checked_exact slice slice.reads (fits p slice.pointer)
      exact ⟨s',found,inside⟩
    · intro s' found _ q same single
      obtain rfl : p = q := Option.some.inj (slice.pointer.symm.trans same)
      by_contra beyond
      rw [Cut.apply,prefixOf_beyond checked_exact slice slice.reads single (by omega)] at found
      cases found
  | suffixOf n =>
    by_cases single : s.size = 1
    · refine ⟨fun _ => ⟨_,suffixOf_single checked_exact slice single n,?_⟩,fun _ _ _ q _ several => by omega⟩
      have ordered := slice.ordered single
      rw [single,Nat.add_sub_cancel] at ends
      by_cases inside : n ≤ s.iN - s.i0
      · rw [if_pos inside]
        exact make_inside slice (Nat.le_refl p) (by omega) (by omega) (by simpa using ends) (by omega)
      · rw [if_neg inside]
        exact make_inside slice (Nat.le_refl p) (by omega) slice.starts (by simpa using ends) (by omega)
    · rw [Cut.apply,suffixOf_several checked_exact slice (by omega) n]
      by_cases inside : n ≤ s.iN
      · rw [if_pos inside]
        refine ⟨fun _ => ⟨_,rfl,?_⟩,fun _ _ _ q _ _ beyond => by omega⟩
        refine make_inside slice (by omega) (by omega) (by omega) ?_ (by omega)
        rwa [show p + s.size - 1 + 1 - 1 = p + s.size - 1 by omega]
      · rw [if_neg inside]
        obtain ⟨enough,needed⟩ := walk_fits (n := n - s.iN) slice (i := s.size - 2) (by omega)
        refine ⟨fun fits => enough (fits p slice.pointer (by omega) (by omega)),fun s' found valid q same _ _ => ?_⟩
        obtain rfl : p = q := Option.some.inj (slice.pointer.symm.trans same)
        exact needed s' found valid

/-! ### Chains -/

theorem represents_of_inside (inside : Inside m p k s) : Represents m s p k := by
  refine ⟨inside,?_⟩
  rcases inside with none | ⟨q,slice,_⟩
  · simp [Subspan.bufferSize,none]
  · rw [bufferSize_spec checked_exact slice slice.reads]
    rfl

theorem fits_of_empty (none : s.size = 0) (cut : Cut) : cut.apply checked m s = some s ∧ cut.Fits m s := by
  cases cut <;> simp [Cut.apply,Cut.Fits,Subspan.prefixOf,Subspan.suffixOf,none]

theorem keeps_iff (inside : Inside m p k s) (cuts : List Cut) : Keeps m p k cuts s ↔ ChainFits m cuts s := by
  induction cuts generalizing s with
  | nil => exact iff_of_true (represents_of_inside inside) trivial
  | cons cut cuts ih =>
    have same : ∀ t, cut.apply checked m s = some t → cut.apply wrapping m s = some t := apply_extends checked_extends cut
    have enough : cut.Fits m s → ∃ t, cut.apply checked m s = some t ∧ Inside m p k t := by
      intro fits
      rcases inside with none | ⟨q,slice,above,below⟩
      · exact ⟨s,(fits_of_empty none cut).1,.inl none⟩
      · obtain ⟨t,found,kept⟩ := (cut_fits slice cut).1 fits
        exact ⟨t,found,inside_trans above below kept⟩
    have needed : ∀ t, cut.apply checked m s = some t → Valid m t → cut.Fits m s := by
      rcases inside with none | ⟨q,slice,_⟩
      · exact fun _ _ _ => (fits_of_empty none cut).2
      · exact (cut_fits slice cut).2
    rw [Keeps,ChainFits]
    constructor
    · rintro ⟨_,t,found,later⟩
      have kept : Inside m p k t := by
        cases cuts with
        | nil => exact later.1
        | cons _ _ => exact later.1.1
      refine ⟨needed t found (valid_of_inside kept),fun t' found' => ?_⟩
      obtain rfl : t = t' := Option.some.inj ((same t found).symm.trans found')
      exact (ih kept).mp later
    · rintro ⟨fits,later⟩
      obtain ⟨t,found,kept⟩ := enough fits
      exact ⟨represents_of_inside inside,t,found,(ih kept).mpr (later t (same t found))⟩

/-- The buffers of a span are in memory, and their sizes are those of a `size_t`. -/
structure Span (m : Memory) (p k : Nat) : Prop where
  bounded : k < 2 ^ 64
  buffers : ∀ i < k, (m (p + i)).isSome = true
  sizes : ∀ i < k, m.sizeAt (p + i) < 2 ^ 64

theorem ofSpan_inside (span : Span m p k) : ∃ s, Subspan.ofSpan m (some p) k = some s ∧ Inside m p k s := by
  by_cases some : 0 < k
  · obtain ⟨b,last⟩ := Option.isSome_iff_exists.mp (span.buffers (k - 1) (by omega))
    rw [show p + (k - 1) = p + k - 1 by omega] at last
    refine ⟨⟨.some p,k,0,b.size⟩,by simp [Subspan.ofSpan,some,last],.inr ⟨p,?_,Nat.le_refl p,Nat.le_refl _⟩⟩
    exact ⟨rfl,some,span.bounded,span.buffers,span.sizes,Nat.zero_le _,(sizeAt_of_some last).ge,fun _ => Nat.zero_le _⟩
  · exact ⟨⟨.some p,k,0,0⟩,by simp [Subspan.ofSpan,some],.inl (by simp only; omega)⟩

/-- Every slice of a chain of calls on a span lies in it, with its ends in its buffers, and
    no subtraction wraps around, if and only if every call has what it needs. -/
theorem chain_keeps_iff (span : Span m p k) (made : Subspan.ofSpan m (some p) k = some s) (cuts : List Cut) :
    Keeps m p k cuts s ↔ ChainFits m cuts s := by
  obtain ⟨t,same,inside⟩ := ofSpan_inside span
  obtain rfl := Option.some.inj (made.symm.trans same)
  exact keeps_iff inside cuts

/-- A suffix of a prefix of three buffers of two bytes. -/
theorem chain_keeps_three : Keeps (array [2,2,2]) 0 3 [.prefixOf 4,.suffixOf 3] ⟨some 0,3,0,2⟩ := by
  refine (chain_keeps_iff ⟨by decide,by decide,by decide⟩ rfl _).mpr ⟨?_,fun t made => ?_⟩
  · intro q _ single
    cases single
  · cases made
    refine ⟨fun q same _ _ => ?_,fun _ _ => trivial⟩
    cases same
    exact trivial

/-- The last two bytes of buffers of two, one and one bytes: the slice has its end outside of
    its last buffer. -/
theorem suffix_breaks_representation :
    Subspan.ofSpan (array [2,1,1]) (some 0) 3 = some ⟨some 0,3,0,1⟩ ∧
    ¬ Keeps (array [2,1,1]) 0 3 [.suffixOf 2] ⟨some 0,3,0,1⟩ := by
  refine ⟨rfl,?_⟩
  rintro ⟨_,t,found,inside,_⟩
  cases found
  rcases inside with none | ⟨q,slice,_⟩
  · cases none
  · obtain rfl : 1 = q := Option.some.inj slice.pointer
    exact absurd slice.ends (by decide)

end SendersIo.SubspanCuts
