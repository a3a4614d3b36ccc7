import Mathlib.Data.Finset.Card
import Mathlib.Order.Interval.Finset.Nat
import SendersIo.SubspanCuts

/-!
The two routes to a slice in the middle of a span: the end of a beginning, and the
beginning of an end. Both return the buffers that have a byte of the slice, with the
same offsets, where the search from the end stops at the right buffer.
-/
namespace SendersIo.CanonicalSubspans
open SendersIo.Buffers SendersIo.Subspans SendersIo.SubspanCuts

variable {m : Memory} {p a b f g i j k l n x y size : Nat} {s t : Subspan} {sub : Nat → Nat → Option Nat}

/-- The position of the first byte of the `i`-th buffer. -/
def offsetOf (m : Memory) (p : Nat) : Nat → Nat
  | 0 => 0
  | i + 1 => offsetOf m p i + m.sizeAt (p + i)

/-- How many of the buffers have one of the bytes from `x` to `a`. -/
def shared (m : Memory) (p k x a : Nat) : Nat :=
  ((Finset.range k).filter fun i => max (offsetOf m p i) x < min (offsetOf m p (i + 1)) a).card

/-- The last `b` of the first `a` bytes of a span, and the first `b` of the last ones, are the
    same slice, of the buffers that have one of these bytes. -/
def Canonical (m : Memory) (p k a b : Nat) : Prop :=
  ∃ span s t, Subspan.ofSpan m (some p) k = some span ∧
    ((span.prefixOf wrapping m a).bind fun s => s.suffixOf wrapping m b) = some s ∧
    ((span.suffixOf wrapping m (offsetOf m p k - a + b)).bind fun s => s.prefixOf wrapping m b) = some t ∧
    s = t ∧ s.size = shared m p k (a - b) a

/-- The position is in the `i`-th buffer. -/
def At (m : Memory) (p x i : Nat) : Prop := offsetOf m p i ≤ x ∧ x < offsetOf m p (i + 1)

/-- When the search from the end stops at buffer `f` with the first byte of the slice, whose
    last one is in buffer `l`: `f` is the last buffer of the span; or it is the first one,
    and the second one, if it is not the last, is long enough; or it is in the middle, the
    first buffer has as many bytes as are missing there, the buffer after it, if it is not
    the last, has more than the others, and the length of the first buffer is the right one. -/
def Stops (m : Memory) (p k x a f l : Nat) : Prop :=
  f + 1 = k ∨
  f = 0 ∧ (k ≤ 2 ∨ x < m.sizeAt (p + 1)) ∨
  1 ≤ f ∧ f + 1 < k ∧ offsetOf m p (f + 1) - x ≤ m.sizeAt p ∧
    (f + 2 < k → m.sizeAt p < m.sizeAt (p + (f + 1)) + (offsetOf m p (f + 1) - x)) ∧
    (l = f ∧ m.sizeAt (p + f) = m.sizeAt p ∨
      f < l ∧ m.sizeAt p ≤ m.sizeAt (p + f) + (offsetOf m p (f + 1) - x) ∧ m.sizeAt p ≤ m.sizeAt (p + l) ∧
        (a - offsetOf m p l = m.sizeAt (p + f) ∨
          l + 1 = k ∧ m.sizeAt (p + l) = m.sizeAt p ∧ m.sizeAt (p + f) < a - offsetOf m p l))

/-! ### Positions -/

theorem offsetOf_mono (before : i ≤ j) : offsetOf m p i ≤ offsetOf m p j := by
  induction before with
  | refl => exact Nat.le_refl _
  | step _ ih => exact Nat.le_trans ih (Nat.le_add_right _ _)

theorem offsetOf_cons : offsetOf m p (i + 1) = m.sizeAt p + offsetOf m (p + 1) i := by
  induction i with
  | zero => simp [offsetOf]
  | succ i ih => rw [offsetOf,ih,offsetOf,Nat.add_assoc,show p + 1 + i = p + (i + 1) by omega]

theorem offsetOf_add : offsetOf m p (i + j) = offsetOf m p i + offsetOf m (p + i) j := by
  induction j with
  | zero => rfl
  | succ j ih => rw [← Nat.add_assoc,offsetOf,ih,offsetOf,Nat.add_assoc,Nat.add_assoc]

theorem exists_at (inside : x < offsetOf m p k) : ∃ i < k, At m p x i := by
  induction k with
  | zero => exact absurd inside (Nat.not_lt_zero x)
  | succ k ih =>
    by_cases before : x < offsetOf m p k
    · obtain ⟨i,less,at_i⟩ := ih before
      exact ⟨i,by omega,at_i⟩
    · exact ⟨k,Nat.lt_succ_self k,by omega,inside⟩

theorem at_unique (first : At m p x i) (second : At m p x j) : i = j := by
  rcases Nat.lt_trichotomy i j with less | same | more
  · have := offsetOf_mono (m := m) (p := p) less
    have := first.2
    have := second.1
    simp only [Nat.succ_eq_add_one] at *
    omega
  · exact same
  · have := offsetOf_mono (m := m) (p := p) more
    have := second.2
    have := first.1
    simp only [Nat.succ_eq_add_one] at *
    omega

theorem shared_eq (first : At m p x f) (last : At m p (a - 1) l) (more : x < a) (inside : l < k)
    (nonempty : ∀ i < k, 0 < m.sizeAt (p + i)) : shared m p k x a = l + 1 - f := by
  obtain ⟨begins,before⟩ := first
  obtain ⟨starts,ends⟩ := last
  rw [← Nat.card_Icc,shared]
  congr 1
  ext i
  simp only [Finset.mem_filter,Finset.mem_range,Finset.mem_Icc,max_lt_iff,lt_min_iff]
  constructor
  · rintro ⟨less,⟨_,below⟩,above,_⟩
    constructor
    · by_contra early
      have := offsetOf_mono (m := m) (p := p) (show i + 1 ≤ f by omega)
      omega
    · by_contra late
      have := offsetOf_mono (m := m) (p := p) (show l + 1 ≤ i by omega)
      omega
  · rintro ⟨after,upto⟩
    have here := nonempty i (by omega)
    have first := offsetOf_mono (m := m) (p := p) (show f + 1 ≤ i + 1 by omega)
    have last := offsetOf_mono (m := m) (p := p) upto
    have step : offsetOf m p (i + 1) = offsetOf m p i + m.sizeAt (p + i) := rfl
    omega

/-! ### The search from the beginning -/

/-- The search stops at the buffer with the last of the first `n` bytes. -/
theorem find_at (exact : Exact sub) (reads : Reads m m p k) {r : Nat} (all : i + r = k) (inside : j < r)
    (above : offsetOf m (p + i) j < n) (below : n ≤ offsetOf m (p + i) (j + 1)) :
    findBufferIndexForN sub m p k r i n = some (i + j,n - offsetOf m (p + i) j) := by
  induction j generalizing i r n with
  | zero =>
    obtain ⟨r,rfl⟩ : ∃ l, r = l + 1 := ⟨r - 1,by omega⟩
    obtain ⟨b,at_i,size⟩ := reads i (by omega)
    have fits : n ≤ b.size := by rw [size]; simpa [offsetOf] using below
    simp [findBufferIndexForN,at_i,fits,offsetOf]
  | succ j ih =>
    obtain ⟨r,rfl⟩ : ∃ l, r = l + 1 := ⟨r - 1,by omega⟩
    obtain ⟨b,at_i,size⟩ := reads i (by omega)
    rw [offsetOf_cons,← size] at above below
    have outside : ¬ n ≤ b.size := by omega
    have found := ih (i := i + 1) (r := r) (n := n - b.size) (by omega) (by omega)
      (by rw [show p + (i + 1) = p + i + 1 by omega]; omega) (by rw [show p + (i + 1) = p + i + 1 by omega]; omega)
    simp only [findBufferIndexForN,at_i,Option.bind_eq_bind,Option.bind_some,if_neg outside,
      exact _ _ (Nat.le_of_not_le outside),found]
    rw [offsetOf_cons,← size,show p + (i + 1) = p + i + 1 by omega,Nat.sub_sub,show i + 1 + j = i + (j + 1) by omega]

/-- Beyond all bytes, the search ends at the last buffer. -/
theorem find_beyond (exact : Exact sub) (reads : Reads m m p k) {r : Nat} (positive : 0 < k) (all : i + r = k)
    (beyond : offsetOf m (p + i) r < n) :
    findBufferIndexForN sub m p k r i n = some (k - 1,m.sizeAt (p + (k - 1))) := by
  induction r generalizing i n with
  | zero =>
    obtain rfl : i = k := by omega
    obtain ⟨b,at_last,size⟩ := reads (i - 1) (by omega)
    simp [findBufferIndexForN,exact i 1 (by omega),show i ≠ 0 by omega,show p + i - 1 = p + (i - 1) by omega,at_last,size]
  | succ r ih =>
    obtain ⟨b,at_i,size⟩ := reads i (by omega)
    rw [offsetOf_cons,← size] at beyond
    have outside : ¬ n ≤ b.size := by omega
    simp only [findBufferIndexForN,at_i,Option.bind_eq_bind,Option.bind_some,if_neg outside,
      exact _ _ (Nat.le_of_not_le outside)]
    exact ih (by omega) (by rw [show p + (i + 1) = p + i + 1 by omega]; omega)

/-- What `prefix` returns within the first buffer. -/
theorem prefixOf_first (reads : Reads m m p 1) (more : size ≠ 0) {i0 length : Nat}
    (first : wrapping (m.sizeAt p) i0 = some length) (fits : n ≤ length) (bounded : n + i0 < 2 ^ 64) :
    (Subspan.mk (some p) size i0 y).prefixOf wrapping m n = some (.make (some p) 1 i0 (n + i0)) := by
  obtain ⟨b,at_p,same⟩ := reads 0 (by omega)
  rw [Nat.add_zero] at at_p same
  simp only [Subspan.prefixOf,if_neg more,Option.bind_eq_bind,Option.bind_some,at_p,same,first,if_pos fits,
    Nat.mod_eq_of_lt bounded]
  rfl

/-- What `prefix` returns beyond it. -/
theorem prefixOf_later (reads : Reads m m p size) (positive : 0 < size) {i0 index rest : Nat} (starts : i0 ≤ m.sizeAt p)
    (beyond : m.sizeAt p - i0 < n)
    (found : findBufferIndexForN wrapping m (p + 1) (size - 1) (size - 1) 0 (n - (m.sizeAt p - i0)) = some (index,rest)) :
    (Subspan.mk (some p) size i0 y).prefixOf wrapping m n = some (.make (some p) (index + 2) i0 rest) := by
  obtain ⟨b,at_p,same⟩ := reads 0 positive
  rw [Nat.add_zero] at at_p same
  simp only [Subspan.prefixOf,if_neg (show size ≠ 0 by omega),Option.bind_eq_bind,Option.bind_some,at_p,same,
    wrapping_exact _ _ starts,wrapping_exact _ _ (Nat.le_of_lt beyond),wrapping_exact size 1 (by omega),
    if_neg (Nat.not_le.mpr beyond),found]
  rfl

theorem reads_later (reads : Reads m m p k) (inside : i ≤ k) : Reads m m (p + i) (k - i) := fun j less => by
  have := reads (i + j) (by omega)
  rwa [← Nat.add_assoc] at this

theorem reads_span (span : Span m p k) : Reads m m p k := fun i less => by
  obtain ⟨b,at_i⟩ := Option.isSome_iff_exists.mp (span.buffers i less)
  exact ⟨b,at_i,(sizeAt_of_some at_i).symm⟩

/-- The first buffers of a span. -/
theorem span_first (span : Span m p k) (inside : i ≤ k) : Span m p i :=
  ⟨by have := span.bounded; omega,fun j less => span.buffers j (by omega),fun j less => span.sizes j (by omega)⟩

theorem first_size (span : Span m p k) (positive : 0 < k) : m.sizeAt p < 2 ^ 64 := span.sizes 0 positive

/-- The beginning of a span that ends in buffer `l`. -/
theorem prefixOf_span (span : Span m p k) (positive : 0 < a) (last : At m p (a - 1) l) (inside : l < k) :
    (Subspan.mk (some p) k 0 y).prefixOf wrapping m a = some ⟨some p,l + 1,0,a - offsetOf m p l⟩ := by
  have reads := reads_span span
  obtain ⟨starts,ends⟩ := last
  cases l with
  | zero =>
    have fits : a ≤ m.sizeAt p := by simpa [offsetOf] using (show a ≤ offsetOf m p (0 + 1) by omega)
    have bounded := first_size span inside
    rw [prefixOf_first (fun i less => reads i (by omega)) (by omega) (wrapping_exact _ 0 (Nat.zero_le _)) fits
      (by omega),Subspan.make,if_neg (by omega)]
    rfl
  | succ l =>
    rw [offsetOf_cons] at starts ends
    have found := find_at (i := 0) wrapping_exact (reads_later reads (i := 1) (by omega)) (r := k - 1) (j := l)
      (n := a - (m.sizeAt p - 0)) (by omega) (by omega) (by simp only [Nat.add_zero]; omega) (by simp only [Nat.add_zero]; omega)
    rw [prefixOf_later reads (by omega) (Nat.zero_le _) (by omega) found,Subspan.make,if_neg (by omega),offsetOf_cons]
    simp only [Nat.zero_add,Nat.add_zero,Nat.sub_zero,Nat.sub_sub]

/-! ### The search from the end -/

/-- A slice of the first buffers of a span. -/
def begin (p size y : Nat) : Subspan := ⟨some p,size,0,y⟩

/-- Where the walk stops at buffer `f`, what it returns. -/
def stopped (m : Memory) (p size y x f : Nat) : Subspan :=
  if f = 0 then ⟨some p,size,x,y⟩
  else ⟨some (p + f),size - f,m.sizeAt p - (offsetOf m p (f + 1) - x),m.sizeAt p⟩

/-- The walk from buffer `i` passes all buffers before buffer `f` and stops there. -/
def Passes (m : Memory) (p x f i : Nat) : Prop :=
  (f < i → m.sizeAt p < m.sizeAt (p + (f + 1)) + (offsetOf m p (f + 1) - x)) ∧
  (1 ≤ f → offsetOf m p (f + 1) - x ≤ m.sizeAt p)

section
variable (span : Span m p size)
include span

/-- The walk at the first buffer. -/
theorem walk_zero (several : 2 ≤ size) (fits : n ≤ m.sizeAt p) :
    (begin p size y).walk wrapping m p 0 n = some ⟨some p,size,m.sizeAt p - n,y⟩ := by
  obtain ⟨b,at_p,same⟩ := reads_span span 0 (by omega)
  rw [Nat.add_zero] at at_p same
  have bounded : (0 + m.sizeAt p) % 2 ^ 64 = m.sizeAt p := by
    have := first_size span (by omega)
    omega
  simp only [Subspan.walk,begin,at_p,same,wrapping_exact _ 0 (Nat.zero_le _),Nat.sub_zero,Option.bind_eq_bind,
    Option.bind_some,if_pos fits,bounded,wrapping_exact _ _ fits]
  change some (Subspan.make (some p) size (m.sizeAt p - n) y) = _
  rw [Subspan.make,if_neg (by omega)]

theorem walk_stop (inside : i + 1 < size) (stops : n ≤ m.sizeAt p) :
    (begin p size y).walk wrapping m p (i + 1) n =
      some (.make (some (p + (i + 1))) (size - (i + 1)) (m.sizeAt p - n) (m.sizeAt p)) := by
  obtain ⟨b,at_p,same⟩ := reads_span span 0 (by omega)
  rw [Nat.add_zero] at at_p same
  simp only [Subspan.walk,begin,at_p,same,Option.bind_eq_bind,Option.bind_some,if_pos stops,wrapping_exact _ _ stops,
    wrapping_exact size (i + 1) (by omega)]
  rfl

theorem walk_pass (inside : i + 1 < size) (goes : m.sizeAt p < n) :
    ∃ r, wrapping n (m.sizeAt (p + (i + 1))) = some r ∧
      (begin p size y).walk wrapping m p (i + 1) n = (begin p size y).walk wrapping m p i r := by
  obtain ⟨b,at_p,same⟩ := reads_span span 0 (by omega)
  obtain ⟨c,at_i,here⟩ := reads_span span (i + 1) inside
  rw [Nat.add_zero] at at_p same
  refine ⟨_,rfl,?_⟩
  simp only [Subspan.walk,at_p,at_i,same,here,Option.bind_eq_bind,Option.bind_some,if_neg (Nat.not_le.mpr goes),wrapping]

/-- Wherever the walk stops, the slice has all of the buffers from there on. -/
theorem walk_shape (inside : i + 2 ≤ size) (n : Nat) :
    ∃ t j, (begin p size y).walk wrapping m p i n = some t ∧ j ≤ i ∧ t.buffers = some (p + j) ∧ t.size = size - j := by
  induction i generalizing n with
  | zero =>
    obtain ⟨b,at_p,same⟩ := reads_span span 0 (by omega)
    rw [Nat.add_zero] at at_p same
    by_cases fits : n ≤ m.sizeAt p
    · exact ⟨_,0,walk_zero span (by omega) fits,Nat.le_refl 0,rfl,rfl⟩
    · exact ⟨begin p size y,0,by simp [Subspan.walk,begin,at_p,same,wrapping,fits],Nat.le_refl 0,rfl,rfl⟩
  | succ i ih =>
    by_cases stops : n ≤ m.sizeAt p
    · refine ⟨_,i + 1,walk_stop span (by omega) stops,Nat.le_refl _,?_,?_⟩
      all_goals rw [Subspan.make,if_neg (by omega)]
    · obtain ⟨r,_,walks⟩ := walk_pass span (y := y) (i := i) (by omega) (Nat.lt_of_not_le stops)
      obtain ⟨t,j,found,before,shape⟩ := ih (by omega) r
      exact ⟨t,j,walks.trans found,by omega,shape⟩

/-- The walk passes a buffer that is after the one with the first byte. -/
theorem walk_after (inside : i + 1 < size) (first : At m p x f) (after : f ≤ i)
    (goes : m.sizeAt p < offsetOf m p (i + 2) - x) :
    (begin p size y).walk wrapping m p (i + 1) (offsetOf m p (i + 2) - x) =
      (begin p size y).walk wrapping m p i (offsetOf m p (i + 1) - x) := by
  obtain ⟨r,subtracts,walks⟩ := walk_pass span (y := y) inside goes
  have before := offsetOf_mono (m := m) (p := p) (show f + 1 ≤ i + 1 by omega)
  have step : offsetOf m p (i + 2) = offsetOf m p (i + 1) + m.sizeAt (p + (i + 1)) := rfl
  have below := first.2
  rw [wrapping_exact _ _ (by omega)] at subtracts
  rw [walks,← Option.some.inj subtracts]
  congr 1
  omega

theorem walk_hits (inside : i + 2 ≤ size) (first : At m p x f) (after : f ≤ i) (passes : Passes m p x f i) :
    (begin p size y).walk wrapping m p i (offsetOf m p (i + 1) - x) = some (stopped m p size y x f) := by
  induction i with
  | zero =>
    obtain rfl : f = 0 := by omega
    have below : x < m.sizeAt p := by simpa [offsetOf] using first.2
    have only : offsetOf m p (0 + 1) = m.sizeAt p := by simp [offsetOf]
    rw [only,walk_zero span (by omega) (Nat.sub_le _ _),stopped,if_pos rfl,show m.sizeAt p - (m.sizeAt p - x) = x by omega]
  | succ i ih =>
    have step : offsetOf m p (i + 2) = offsetOf m p (i + 1) + m.sizeAt (p + (i + 1)) := rfl
    by_cases here : f = i + 1
    · subst here
      rw [walk_stop span (by omega) (passes.2 (by omega)),Subspan.make,if_neg (by omega),stopped,if_neg (by omega)]
    · have far := offsetOf_mono (m := m) (p := p) (show f + 2 ≤ i + 2 by omega)
      have next : offsetOf m p (f + 2) = offsetOf m p (f + 1) + m.sizeAt (p + (f + 1)) := rfl
      have goes := passes.1 (by omega)
      have below := first.2
      rw [walk_after span (by omega) first (by omega) (by omega)]
      exact ih (by omega) (by omega) ⟨fun _ => goes,passes.2⟩

theorem walk_misses (inside : i + 2 ≤ size) (first : At m p x f) (after : f ≤ i) (fails : ¬ Passes m p x f i)
    (found : (begin p size y).walk wrapping m p i (offsetOf m p (i + 1) - x) = some t) : t.buffers ≠ some (p + f) := by
  induction i with
  | zero => exact absurd ⟨fun _ => by omega,fun _ => by omega⟩ fails
  | succ i ih =>
    change (begin p size y).walk wrapping m p (i + 1) (offsetOf m p (i + 2) - x) = some t at found
    have step : offsetOf m p (i + 2) = offsetOf m p (i + 1) + m.sizeAt (p + (i + 1)) := rfl
    by_cases here : f = i + 1
    · subst here
      have goes : m.sizeAt p < offsetOf m p (i + 2) - x := by
        by_contra stops
        exact fails ⟨fun less => absurd less (Nat.lt_irrefl _),fun _ => Nat.le_of_not_lt stops⟩
      obtain ⟨r,_,walks⟩ := walk_pass span (y := y) (i := i) (by omega) goes
      obtain ⟨u,j,same,before,pointer,_⟩ := walk_shape span (y := y) (i := i) (by omega) r
      obtain rfl : u = t := Option.some.inj (same.symm.trans (walks.symm.trans found))
      rw [pointer]
      simp only [ne_eq,Option.some.injEq]
      omega
    · by_cases stops : offsetOf m p (i + 2) - x ≤ m.sizeAt p
      · rw [walk_stop span (by omega) stops,Subspan.make,if_neg (by omega)] at found
        rw [← Option.some.inj found]
        simp only [ne_eq,Option.some.injEq]
        omega
      · rw [walk_after span (by omega) first (by omega) (Nat.lt_of_not_le stops)] at found
        refine ih (by omega) (by omega) (fun passes => fails ⟨fun _ => ?_,passes.2⟩) found
        rcases Nat.lt_or_ge f i with before | at_i
        · exact passes.1 before
        · obtain rfl : f = i := by omega
          have below := first.2
          omega

end

/-! ### Both routes -/

theorem make_keeps {pointer : Option Nat} {i0 : Nat} (same : Subspan.make pointer size i0 y = t) :
    t.i0 = i0 ∧ (t.buffers = pointer ∨ t.buffers = none) := by
  rw [← same,Subspan.make]
  split
  · exact ⟨rfl,.inr rfl⟩
  · exact ⟨rfl,.inl rfl⟩

/-- A beginning begins where the slice does. -/
theorem prefixOf_keeps (found : s.prefixOf sub m n = some t) :
    t.i0 = s.i0 ∧ (t.buffers = s.buffers ∨ t.buffers = none) := by
  unfold Subspan.prefixOf at found
  split at found
  · rw [← Option.some.inj found]
    exact ⟨rfl,.inl rfl⟩
  · obtain ⟨q,pointer,found⟩ := Option.bind_eq_some_iff.mp found
    obtain ⟨_,_,found⟩ := Option.bind_eq_some_iff.mp found
    obtain ⟨_,_,found⟩ := Option.bind_eq_some_iff.mp found
    rw [pointer]
    split at found
    · exact make_keeps (Option.some.inj found)
    · obtain ⟨_,_,found⟩ := Option.bind_eq_some_iff.mp found
      obtain ⟨_,_,found⟩ := Option.bind_eq_some_iff.mp found
      obtain ⟨_,_,found⟩ := Option.bind_eq_some_iff.mp found
      exact make_keeps (Option.some.inj found)

/-- The end of a beginning, if the slice is in its last buffer. -/
theorem suffixOf_last (span : Span m p (l + 1)) (more : 0 < b) (below : b ≤ a) (first : At m p (a - b) l)
    (last : At m p (a - 1) l) : (begin p (l + 1) (a - offsetOf m p l)).suffixOf wrapping m b =
      some ⟨some (p + l),1,a - b - offsetOf m p l,a - offsetOf m p l⟩ := by
  obtain ⟨starts,ends⟩ := last
  have start := first.1
  have step : offsetOf m p (l + 1) = offsetOf m p l + m.sizeAt (p + l) := rfl
  have bounded := span.sizes l (Nat.lt_succ_self l)
  obtain ⟨e,same⟩ : ∃ e, e = a - offsetOf m p l := ⟨_,rfl⟩
  rw [show a - b - offsetOf m p l = e - b by omega,← same]
  have inside : b ≤ e := by omega
  have whole : e % 2 ^ 64 = e := by omega
  have made : Subspan.make (some (p + l)) 1 (e - b) e = ⟨some (p + l),1,e - b,e⟩ := by
    rw [Subspan.make,if_neg (by omega)]
  by_cases single : l = 0
  · subst single
    simp only [Subspan.suffixOf,begin,Nat.zero_add,one_ne_zero,if_false,Option.bind_eq_bind,Option.bind_some,if_true,
      wrapping_exact _ 0 (Nat.zero_le _),Nat.sub_zero,if_pos inside,whole,wrapping_exact _ _ inside]
    rw [← made]
    rfl
  · simp only [Subspan.suffixOf,begin,Nat.succ_ne_zero,if_false,Option.bind_eq_bind,Option.bind_some,
      if_neg (show l + 1 ≠ 1 by omega),if_pos inside,wrapping_exact _ _ inside]
    rw [← made]
    rfl

/-- If it starts before it, the walk goes on with what is missing there. -/
theorem suffixOf_walks (more : 0 < b) (below : b ≤ a) (first : At m p (a - b) f) (last : At m p (a - 1) l) (before : f < l) :
    (begin p (l + 1) (a - offsetOf m p l)).suffixOf wrapping m b =
      (begin p (l + 1) (a - offsetOf m p l)).walk wrapping m p (l - 1) (offsetOf m p l - (a - b)) := by
  obtain ⟨starts,ends⟩ := last
  have less := first.2
  have far := offsetOf_mono (m := m) (p := p) (show f + 1 ≤ l by omega)
  have outside : ¬ b ≤ a - offsetOf m p l := by omega
  simp only [Subspan.suffixOf,begin,Nat.succ_ne_zero,if_false,Option.bind_eq_bind,Option.bind_some,
    if_neg (show l + 1 ≠ 1 by omega),if_neg outside,wrapping_exact _ _ (Nat.le_of_not_le outside),
    wrapping_exact (l + 1) 2 (by omega)]
  rw [show b - (a - offsetOf m p l) = offsetOf m p l - (a - b) by omega,show l + 1 - 2 = l - 1 by omega]

theorem canonical_eq (span : Span m p k) (more : 0 < b) (below : b ≤ a) (within : a ≤ offsetOf m p k) (inside : l < k)
    (first : At m p (a - b) f) (last : At m p (a - 1) l) (nonempty : ∀ i < k, 0 < m.sizeAt (p + i)) :
    Canonical m p k a b ↔ ∃ s t, (begin p (l + 1) (a - offsetOf m p l)).suffixOf wrapping m b = some s ∧
      (begin p k (offsetOf m p k - offsetOf m p (k - 1))).suffixOf wrapping m (offsetOf m p k - (a - b)) = some t ∧
      t.prefixOf wrapping m b = some s ∧ s.size = l + 1 - f := by
  obtain ⟨c,at_last,size⟩ := reads_span span (k - 1) (by omega)
  have whole : offsetOf m p k - offsetOf m p (k - 1) = c.size := by
    have step : offsetOf m p (k - 1 + 1) = offsetOf m p (k - 1) + m.sizeAt (p + (k - 1)) := rfl
    rw [show k - 1 + 1 = k by omega] at step
    omega
  have made : Subspan.ofSpan m (some p) k = some (begin p k c.size) := by
    rw [show p + (k - 1) = p + k - 1 by omega] at at_last
    simp [Subspan.ofSpan,show 0 < k by omega,at_last,begin]
  have cut : (begin p k c.size).prefixOf wrapping m a = some (begin p (l + 1) (a - offsetOf m p l)) :=
    prefixOf_span span (by omega) last inside
  have same : offsetOf m p k - a + b = offsetOf m p k - (a - b) := by omega
  rw [Canonical,shared_eq first last (by omega) inside nonempty,same,whole]
  constructor
  · rintro ⟨span,s,_,started,left,right,rfl,count⟩
    obtain rfl := Option.some.inj (made.symm.trans started)
    rw [cut,Option.bind_some] at left
    obtain ⟨t,right,then_⟩ := Option.bind_eq_some_iff.mp right
    exact ⟨s,t,left,right,then_,count⟩
  · rintro ⟨s,t,left,right,then_,count⟩
    exact ⟨_,s,s,made,by rw [cut,Option.bind_some]; exact left,Option.bind_eq_some_iff.mpr ⟨t,right,then_⟩,rfl,count⟩

/-- The end of the span that begins with the slice. -/
theorem right_last (span : Span m p k) (first : At m p (a - b) f) (same : f + 1 = k) :
    (begin p k (offsetOf m p k - offsetOf m p (k - 1))).suffixOf wrapping m (offsetOf m p k - (a - b)) =
      some ⟨some (p + f),1,a - b - offsetOf m p f,offsetOf m p k - offsetOf m p f⟩ := by
  subst same
  have start := first.1
  have less := first.2
  have still : offsetOf m p (f + 1) - (offsetOf m p (f + 1) - (a - b)) = a - b := by omega
  have found := suffixOf_last (a := offsetOf m p (f + 1)) (b := offsetOf m p (f + 1) - (a - b)) (l := f) span (by omega)
    (by omega) (by rw [still]; exact first) ⟨by omega,by omega⟩
  rwa [still] at found

/-- If it starts before the last buffer, the walk goes on with what is missing there. -/
theorem right_walks (more : 0 < b) (below : b ≤ a) (within : a ≤ offsetOf m p k) (before : f + 1 < k)
    (first : At m p (a - b) f) (nonempty : ∀ i < k, 0 < m.sizeAt (p + i)) :
    (begin p k (offsetOf m p k - offsetOf m p (k - 1))).suffixOf wrapping m (offsetOf m p k - (a - b)) =
      (begin p k (offsetOf m p k - offsetOf m p (k - 1))).walk wrapping m p (k - 2) (offsetOf m p (k - 2 + 1) - (a - b)) := by
  obtain ⟨i,rfl⟩ : ∃ i, k = i + 1 := ⟨k - 1,by omega⟩
  have less := first.2
  have far := offsetOf_mono (m := m) (p := p) (show f + 1 ≤ i by omega)
  have step : offsetOf m p (i + 1) = offsetOf m p i + m.sizeAt (p + i) := rfl
  have more := nonempty i (by omega)
  have still : offsetOf m p (i + 1) - (offsetOf m p (i + 1) - (a - b)) = a - b := by omega
  have found := suffixOf_walks (a := offsetOf m p (i + 1)) (b := offsetOf m p (i + 1) - (a - b)) (l := i) (f := f) (by omega)
    (by omega) (by rw [still]; exact first) ⟨by omega,by omega⟩ (by omega)
  rw [still] at found
  rw [show i + 1 - 2 + 1 = i by omega,show i + 1 - 2 = i - 1 by omega]
  exact found

section
variable (span : Span m p k) (more : 0 < b) (below : b ≤ a) (within : a ≤ offsetOf m p k) (inside : l < k)
  (first : At m p (a - b) f) (last : At m p (a - 1) l)
include more below first last

theorem first_le_last : f ≤ l := by
  have less := first.1
  have least := last.2
  by_contra beyond
  have far := offsetOf_mono (m := m) (p := p) (show l + 1 ≤ f by omega)
  omega

include span

theorem left_last (inside : l < k) (same : f = l) :
    (begin p (l + 1) (a - offsetOf m p l)).suffixOf wrapping m b =
      some ⟨some (p + f),1,a - b - offsetOf m p f,a - offsetOf m p f⟩ := by
  subst same
  exact suffixOf_last (span_first span inside) more below first last

theorem left_hits (inside : l < k) (before : f < l) (passes : Passes m p (a - b) f (l - 1)) :
    (begin p (l + 1) (a - offsetOf m p l)).suffixOf wrapping m b =
      some (stopped m p (l + 1) (a - offsetOf m p l) (a - b) f) := by
  rw [suffixOf_walks more below first last before]
  have hits := walk_hits (span_first span inside) (y := a - offsetOf m p l) (i := l - 1) (by omega) first (by omega) passes
  rwa [show l - 1 + 1 = l by omega] at hits

end

section
variable (span : Span m p k) (nonempty : ∀ i < k, 0 < m.sizeAt (p + i)) (more : 0 < b) (below : b ≤ a)
  (within : a ≤ offsetOf m p k) (inside : l < k) (first : At m p (a - b) f) (last : At m p (a - 1) l)
include span nonempty more below within inside first last

/-- If the slice starts in the last buffer, both routes agree. -/
theorem canonical_of_last (bounded : a < 2 ^ 64) (same : f + 1 = k) : Canonical m p k a b := by
  obtain rfl : f = l := by
    have := first_le_last more below first last
    omega
  refine (canonical_eq span more below within inside first last nonempty).mpr
    ⟨_,_,left_last span more below first last inside rfl,right_last span first same,?_,by simp only; omega⟩
  have start := first.1
  have less := first.2
  have step : offsetOf m p (f + 1) = offsetOf m p f + m.sizeAt (p + f) := rfl
  have length : wrapping (m.sizeAt (p + f)) (a - b - offsetOf m p f) = some (m.sizeAt (p + f) - (a - b - offsetOf m p f)) :=
    wrapping_exact _ _ (by omega)
  rw [← same] at within
  rw [prefixOf_first (fun i less => reads_later (reads_span span) (i := f) (by omega) i (by omega)) one_ne_zero length
    (by omega) (by omega),Subspan.make,if_neg (by omega),show b + (a - b - offsetOf m p f) = a - offsetOf m p f by omega]

/-- If the walk misses the first buffer of the slice, they do not. -/
theorem passes_of_canonical (before : f + 1 < k) (canonical : Canonical m p k a b) : Passes m p (a - b) f (k - 2) := by
  by_contra misses
  obtain ⟨s,t,left,right,then_,count⟩ := (canonical_eq span more below within inside first last nonempty).mp canonical
  rw [right_walks more below within before first nonempty] at right
  have elsewhere := walk_misses span (by omega) first (by omega) misses right
  have pointer : s.buffers ≠ some (p + f) := by
    rcases (prefixOf_keeps then_).2 with same | none
    · rwa [same]
    · rw [none]
      nofun
  rcases Nat.lt_or_ge f l with less | late
  · rw [suffixOf_walks more below first last less] at left
    obtain ⟨u,j,found,upto,buffers,size⟩ := walk_shape (span_first span (i := l + 1) inside) (y := a - offsetOf m p l)
      (i := l - 1) (by omega) (offsetOf m p l - (a - b))
    obtain rfl := Option.some.inj (found.symm.trans left)
    refine pointer (buffers.trans ?_)
    rw [show j = f by omega]
  · have same : f = l := Nat.le_antisymm (first_le_last more below first last) (by omega)
    rw [left_last span more below first last inside same] at left
    exact pointer (by rw [← Option.some.inj left])

theorem canonical_walked (before : f + 1 < k) (passes : Passes m p (a - b) f (k - 2)) :
    Canonical m p k a b ↔
      (stopped m p k (offsetOf m p k - offsetOf m p (k - 1)) (a - b) f).prefixOf wrapping m b =
        some (if f = l then ⟨some (p + f),1,a - b - offsetOf m p f,a - offsetOf m p f⟩
          else stopped m p (l + 1) (a - offsetOf m p l) (a - b) f) := by
  have order := first_le_last more below first last
  have hits := walk_hits span (y := offsetOf m p k - offsetOf m p (k - 1)) (by omega) first (by omega) passes
  rw [canonical_eq span more below within inside first last nonempty,right_walks more below within before first nonempty,hits]
  rcases Nat.lt_or_ge f l with less | late
  · have fewer : Passes m p (a - b) f (l - 1) := ⟨fun _ => passes.1 (by omega),passes.2⟩
    rw [left_hits span more below first last inside less fewer,if_neg (by omega)]
    have size : (stopped m p (l + 1) (a - offsetOf m p l) (a - b) f).size = l + 1 - f := by
      rw [stopped]
      split
      · simp only
        omega
      · rfl
    constructor
    · rintro ⟨s,t,same,stops,then_,_⟩
      rw [Option.some.inj stops,then_,same]
    · exact fun then_ => ⟨_,_,rfl,rfl,then_,size⟩
  · obtain rfl : f = l := Nat.le_antisymm order late
    rw [left_last span more below first last inside rfl,if_pos rfl]
    constructor
    · rintro ⟨s,t,same,stops,then_,_⟩
      rw [Option.some.inj stops,then_,same]
    · exact fun then_ => ⟨_,_,rfl,rfl,then_,by simp only; omega⟩

/-- If the slice starts in the first buffer, both routes agree where the walk passes the
    others. -/
theorem canonical_of_first (bounded : a < 2 ^ 64) (several : 1 < k) (zero : f = 0)
    (passes : Passes m p (a - b) f (k - 2)) : Canonical m p k a b := by
  subst zero
  refine (canonical_walked span nonempty more below within inside first last (by omega) passes).mpr ?_
  have less : a - b < m.sizeAt p := by simpa [offsetOf] using first.2
  obtain ⟨starts,ends⟩ := last
  rw [stopped,if_pos rfl]
  by_cases single : l = 0
  · subst single
    have fits : a - 1 < m.sizeAt p := by simpa [offsetOf] using ends
    rw [prefixOf_first (fun i less => reads_span span i (by omega)) (by omega) (wrapping_exact _ _ (Nat.le_of_lt less))
      (by omega) (by omega),Subspan.make,if_neg (by omega),if_pos rfl,show b + (a - b) = a by omega]
    rfl
  · obtain ⟨l,rfl⟩ : ∃ i, l = i + 1 := ⟨l - 1,by omega⟩
    rw [offsetOf_cons] at starts ends
    have found := find_at (i := 0) wrapping_exact (reads_later (reads_span span) (i := 1) (by omega)) (r := k - 1) (j := l)
      (n := b - (m.sizeAt p - (a - b))) (by omega) (by omega) (by simp only [Nat.add_zero]; omega)
      (by simp only [Nat.add_zero]; omega)
    rw [prefixOf_later (reads_span span) (by omega) (Nat.le_of_lt less) (by omega) found,Subspan.make,if_neg (by omega),
      if_neg (by omega),stopped,if_pos rfl,offsetOf_cons]
    simp only [Nat.zero_add,Nat.add_zero]
    congr 2
    omega

end

/-- Where the search for the end of the slice stops, if its beginning is `d` bytes long
    and `d - n` bytes of it are missing in buffer `f`. -/
theorem find_ends (span : Span m p k) (before : f < l) (inside : l < k) {d e : Nat} (positive : 0 < d) (more : 0 < n)
    (missing : n + m.sizeAt (p + f) = offsetOf m p l - offsetOf m p (f + 1) + e + d) :
    ∃ index rest, findBufferIndexForN wrapping m (p + f + 1) (k - f - 1) (k - f - 1) 0 n = some (index,rest) ∧
      (index + 2 = l + 1 - f ∧ rest = d ↔
        d ≤ m.sizeAt (p + l) ∧
          (e = m.sizeAt (p + f) ∨ l + 1 = k ∧ m.sizeAt (p + l) = d ∧ m.sizeAt (p + f) < e)) := by
  have reads : Reads m m (p + f + 1) (k - f - 1) := by
    have := reads_later (reads_span span) (i := f + 1) (by omega)
    rwa [show p + (f + 1) = p + f + 1 by omega,show k - (f + 1) = k - f - 1 by omega] at this
  have split : ∀ j, offsetOf m p (f + 1 + j) = offsetOf m p (f + 1) + offsetOf m (p + f + 1) j := fun j => by
    rw [offsetOf_add,show p + (f + 1) = p + f + 1 by omega]
  have at_l := split (l - f - 1)
  have after_l := split (l - f)
  have at_k := split (k - f - 1)
  rw [show f + 1 + (l - f - 1) = l by omega] at at_l
  rw [show f + 1 + (l - f) = l + 1 by omega] at after_l
  rw [show f + 1 + (k - f - 1) = k by omega] at at_k
  have step : offsetOf m p (l + 1) = offsetOf m p l + m.sizeAt (p + l) := rfl
  have upto := offsetOf_mono (m := m) (p := p) (show l + 1 ≤ k by omega)
  by_cases within : n ≤ offsetOf m (p + f + 1) (k - f - 1)
  · obtain ⟨j,less,above,below⟩ := exists_at (m := m) (p := p + f + 1) (x := n - 1) (k := k - f - 1) (by omega)
    refine ⟨0 + j,n - offsetOf m (p + f + 1) j,find_at wrapping_exact reads (by omega) less
      (by simp only [Nat.add_zero]; omega) (by simp only [Nat.add_zero]; omega),?_⟩
    constructor
    · rintro ⟨index,rest⟩
      obtain rfl : j = l - f - 1 := by omega
      rw [show l - f - 1 + 1 = l - f by omega] at below
      omega
    · rintro ⟨fits,same | ⟨at_end,size,less⟩⟩
      · have : j = l - f - 1 := by
          refine at_unique ⟨above,below⟩ ⟨by omega,?_⟩
          rw [show l - f - 1 + 1 = l - f by omega]
          omega
        subst this
        omega
      · subst at_end
        omega
  · refine ⟨k - f - 1 - 1,m.sizeAt (p + f + 1 + (k - f - 1 - 1)),find_beyond wrapping_exact reads (by omega) (by omega)
      (by simp only [Nat.add_zero]; omega),?_⟩
    rw [show p + f + 1 + (k - f - 1 - 1) = p + (k - 1) by omega]
    constructor
    · rintro ⟨index,rest⟩
      obtain rfl : k = l + 1 := by omega
      rw [Nat.add_sub_cancel] at rest
      omega
    · rintro ⟨fits,same | ⟨at_end,size,less⟩⟩
      · omega
      · subst at_end
        rw [Nat.add_sub_cancel]
        omega

theorem make_size_le (pointer : Option Nat) (i0 y : Nat) : (Subspan.make pointer 1 i0 y).size ≤ 1 := by
  rw [Subspan.make]
  split <;> simp

section
variable (span : Span m p k) (nonempty : ∀ i < k, 0 < m.sizeAt (p + i)) (bounded : a < 2 ^ 64) (more : 0 < b) (below : b ≤ a)
  (within : a ≤ offsetOf m p k) (inside : l < k) (first : At m p (a - b) f) (last : At m p (a - 1) l)
include span nonempty bounded more below within inside first last

theorem canonical_single (before : f + 1 < k) (later : 1 ≤ f) (passes : Passes m p (a - b) f (k - 2)) (same : l = f) :
    Canonical m p k a b ↔ m.sizeAt (p + f) = m.sizeAt p := by
  subst same
  have fits := passes.2 later
  have start := first.1
  have less := first.2
  have ends := last.2
  have step : offsetOf m p (l + 1) = offsetOf m p l + m.sizeAt (p + l) := rfl
  rw [canonical_walked span nonempty more below within inside first last before passes,if_pos rfl,stopped,
    if_neg (by omega)]
  constructor
  · intro found
    have keeps := (prefixOf_keeps found).1
    simp only at keeps
    omega
  · intro equal
    have length := wrapping_exact (m.sizeAt (p + l)) (m.sizeAt p - (offsetOf m p (l + 1) - (a - b))) (by omega)
    rw [prefixOf_first (fun i less => reads_later (reads_span span) (i := l) (by omega) i (by omega)) (by omega) length
      (by omega) (by omega),Subspan.make,if_neg (by omega)]
    congr 2 <;> omega

theorem canonical_several (before : f + 1 < k) (later : 1 ≤ f) (passes : Passes m p (a - b) f (k - 2)) (less : f < l) :
    Canonical m p k a b ↔
      m.sizeAt p ≤ m.sizeAt (p + f) + (offsetOf m p (f + 1) - (a - b)) ∧ m.sizeAt p ≤ m.sizeAt (p + l) ∧
        (a - offsetOf m p l = m.sizeAt (p + f) ∨
          l + 1 = k ∧ m.sizeAt (p + l) = m.sizeAt p ∧ m.sizeAt (p + f) < a - offsetOf m p l) := by
  have fits := passes.2 later
  have start := first.1
  have here := first.2
  have ends := last.1
  have positive := nonempty 0 (by omega)
  rw [Nat.add_zero] at positive
  have far := offsetOf_mono (m := m) (p := p) (show f + 1 ≤ l by omega)
  have behind := offsetOf_mono (m := m) (p := p) later
  have one : offsetOf m p 1 = m.sizeAt p := by simp [offsetOf]
  have step : offsetOf m p (f + 1) = offsetOf m p f + m.sizeAt (p + f) := rfl
  obtain ⟨i0,begins⟩ : ∃ i0, i0 = m.sizeAt p - (offsetOf m p (f + 1) - (a - b)) := ⟨_,rfl⟩
  rw [canonical_walked span nonempty more below within inside first last before passes,if_neg (by omega),stopped,
    if_neg (by omega),stopped,if_neg (by omega),← begins]
  have reads := reads_later (reads_span span) (i := f) (by omega)
  have short : ∀ length, wrapping (m.sizeAt (p + f)) i0 = some length → b ≤ length →
      (Subspan.mk (some (p + f)) (k - f) i0 (m.sizeAt p)).prefixOf wrapping m b ≠
        some ⟨some (p + f),l + 1 - f,i0,m.sizeAt p⟩ := by
    intro length subtracts enough found
    rw [prefixOf_first (fun i less => reads i (by omega)) (by omega) subtracts enough (by omega)] at found
    have size := make_size_le (some (p + f)) i0 (b + i0)
    rw [Option.some.inj found] at size
    simp only at size
    omega
  by_cases starts : i0 ≤ m.sizeAt (p + f)
  · by_cases enough : b ≤ m.sizeAt (p + f) - i0
    · exact iff_of_false (short _ (wrapping_exact _ _ starts) enough) (by omega)
    · obtain ⟨index,rest,found,stops⟩ := find_ends span less inside (n := b - (m.sizeAt (p + f) - i0)) (d := m.sizeAt p)
        (e := a - offsetOf m p l) positive (by omega) (by omega)
      rw [prefixOf_later reads (by omega) starts (by omega) found,Subspan.make,if_neg (by omega),← stops]
      simp only [Option.some.injEq,Subspan.mk.injEq,true_and]
      omega
  · refine iff_of_false (short (2 ^ 64 + m.sizeAt (p + f) - i0) ?_ (by omega)) (by omega)
    rw [wrapping,if_neg starts]

/-- The two routes to a slice agree, on the buffers that have one of its bytes, if and only
    if the search from the end stops at the right buffer with the right offsets. -/
theorem canonical_stops : Canonical m p k a b ↔ Stops m p k (a - b) a f l := by
  have order := first_le_last more below first last
  by_cases at_end : f + 1 = k
  · exact iff_of_true (canonical_of_last span nonempty more below within inside first last bounded at_end) (.inl at_end)
  have before : f + 1 < k := by omega
  by_cases passes : Passes m p (a - b) f (k - 2)
  · by_cases zero : f = 0
    · refine iff_of_true (canonical_of_first span nonempty more below within inside first last bounded (by omega) zero passes)
        (.inr (.inl ⟨zero,?_⟩))
      subst zero
      have less := first.2
      have one : offsetOf m p (0 + 1) = m.sizeAt p := by simp [offsetOf]
      have goes := passes.1
      rw [one] at less goes
      simp only [Nat.zero_add] at goes
      omega
    · have goes := passes.1
      have fits := passes.2 (by omega)
      rcases Nat.lt_or_ge f l with less | late
      · rw [canonical_several span nonempty bounded more below within inside first last before (by omega) passes less,Stops]
        constructor
        · exact fun stops => .inr (.inr ⟨by omega,before,fits,fun far => goes (by omega),.inr ⟨less,stops⟩⟩)
        · rintro (_ | ⟨_,_⟩ | ⟨_,_,_,_,⟨_,_⟩ | ⟨_,stops⟩⟩)
          · omega
          · omega
          · omega
          · exact stops
      · have same : l = f := by omega
        rw [canonical_single span nonempty bounded more below within inside first last before (by omega) passes same,Stops]
        constructor
        · exact fun stops => .inr (.inr ⟨by omega,before,fits,fun far => goes (by omega),.inl ⟨same,stops⟩⟩)
        · rintro (_ | ⟨_,_⟩ | ⟨_,_,_,_,⟨_,stops⟩ | ⟨_,_⟩⟩)
          · omega
          · omega
          · exact stops
          · omega
  · refine iff_of_false
      (fun canonical => passes (passes_of_canonical span nonempty more below within inside first last before canonical)) ?_
    rintro (_ | ⟨zero,stops⟩ | ⟨_,_,fits,goes,_⟩)
    · omega
    · subst zero
      have less := first.2
      have one : offsetOf m p (0 + 1) = m.sizeAt p := by simp [offsetOf]
      rw [one] at less
      refine passes ⟨fun far => ?_,fun positive => absurd positive (by omega)⟩
      rw [one]
      simp only [Nat.zero_add]
      omega
    · exact passes ⟨fun far => goes (by omega),fun _ => fits⟩

end

/-- For a span of buffers that are not empty, both routes to the last `b` of the first `a`
    bytes return the same slice, of the buffers that have one of these bytes, if and only if
    the search from the end stops at the buffer of the first one with the right offsets. -/
theorem canonical_iff (span : Span m p k) (nonempty : ∀ i < k, 0 < m.sizeAt (p + i)) (bounded : a < 2 ^ 64)
    (more : 0 < b) (below : b ≤ a) (within : a ≤ offsetOf m p k) :
    Canonical m p k a b ↔ ∃ f l, f < k ∧ l < k ∧ At m p (a - b) f ∧ At m p (a - 1) l ∧ Stops m p k (a - b) a f l := by
  obtain ⟨f,starts,first⟩ := exists_at (m := m) (p := p) (x := a - b) (k := k) (by omega)
  obtain ⟨l,inside,last⟩ := exists_at (m := m) (p := p) (x := a - 1) (k := k) (by omega)
  rw [canonical_stops span nonempty bounded more below within inside first last]
  constructor
  · exact fun stops => ⟨f,l,starts,inside,first,last,stops⟩
  · rintro ⟨_,_,_,_,first',last',stops⟩
    rwa [at_unique first first',at_unique last last']

/-- The two buffers in the middle of four buffers of two bytes. -/
theorem canonical_middle : Canonical (array [2,2,2,2]) 0 4 6 4 :=
  (canonical_iff ⟨by decide,by decide,by decide⟩ (by decide) (by decide) (by decide) (by decide) (by decide)).mpr
    ⟨1,2,by decide,by decide,⟨by decide,by decide⟩,⟨by decide,by decide⟩,by rw [Stops]; decide⟩

/-- The second of three buffers of two, one and one bytes: the second route returns the last
    buffer, with the end of the second one before it. -/
theorem routes_differ :
    Span (array [2,1,1]) 0 3 ∧ (∀ i < 3, 0 < (array [2,1,1]).sizeAt (0 + i)) ∧ offsetOf (array [2,1,1]) 0 3 = 4 ∧
    ¬ Canonical (array [2,1,1]) 0 3 3 1 := by
  refine ⟨⟨by decide,by decide,by decide⟩,by decide,by decide,?_⟩
  rintro ⟨span,s,t,made,left,right,same,_⟩
  cases made
  cases left
  cases right
  cases same

end SendersIo.CanonicalSubspans
