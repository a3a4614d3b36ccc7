import Mathlib.Algebra.Order.Ring.Nat
import Mathlib.Tactic.Ring

/-!
Numbers as lists of bytes, the most significant first. Numbers of equally many
bytes are ordered as their bytes are, by the first byte that differs.
-/
namespace SendersIo.ByteOrder

/-- The number of the given bytes. -/
def bigEndian : List UInt8 → Nat
  | [] => 0
  | b :: bs => b.toNat * 256 ^ bs.length + bigEndian bs

/-- The `n` bytes of a number. -/
def bytes : Nat → Nat → List UInt8
  | 0,_ => []
  | n + 1,v => UInt8.ofNat (v / 256 ^ n) :: bytes n v

variable {as bs : List UInt8} {n v : Nat}

@[simp] theorem length_bytes (n v : Nat) : (bytes n v).length = n := by
  induction n with
  | zero => rfl
  | succ n ih => simp [bytes,ih]

theorem bigEndian_lt (bs : List UInt8) : bigEndian bs < 256 ^ bs.length := by
  induction bs with
  | nil => simp [bigEndian]
  | cons b bs ih =>
    have byte : b.toNat + 1 ≤ 256 := b.toNat_lt
    calc bigEndian (b :: bs) < b.toNat * 256 ^ bs.length + 256 ^ bs.length := by simpa [bigEndian] using ih
      _ = (b.toNat + 1) * 256 ^ bs.length := by rw [Nat.succ_mul]
      _ ≤ 256 * 256 ^ bs.length := Nat.mul_le_mul_right _ byte
      _ = 256 ^ (b :: bs).length := by rw [List.length_cons,pow_succ']

theorem bigEndian_bytes (n v : Nat) : bigEndian (bytes n v) = v % 256 ^ n := by
  induction n with
  | zero => simp [bigEndian,bytes,Nat.mod_one]
  | succ n ih =>
    rw [bytes,bigEndian,length_bytes,ih,pow_succ,Nat.mod_mul,UInt8.toNat_ofNat']
    ring

theorem bigEndian_append (as bs : List UInt8) : bigEndian (as ++ bs) = bigEndian as * 256 ^ bs.length + bigEndian bs := by
  induction as with
  | nil => simp [bigEndian]
  | cons a as ih =>
    rw [List.cons_append,bigEndian,bigEndian,ih,List.length_append,pow_add]
    ring

theorem bigEndian_eq_zero : bigEndian bs = 0 ↔ ∀ b ∈ bs, b = 0 := by
  induction bs with
  | nil => simp [bigEndian]
  | cons b bs ih =>
    have zero : b.toNat = 0 ↔ b = 0 := by rw [← UInt8.toNat_inj,UInt8.toNat_zero]
    simp [bigEndian,ih,zero]

/-- The numbers that begin with certain bytes are those of a range. -/
theorem bigEndian_append_range {low high : Nat} :
    low * 256 ^ bs.length ≤ bigEndian (as ++ bs) ∧ bigEndian (as ++ bs) < high * 256 ^ bs.length ↔
      low ≤ bigEndian as ∧ bigEndian as < high := by
  have bound := bigEndian_lt bs
  have positive : 0 < 256 ^ bs.length := Nat.pow_pos (by omega)
  rw [bigEndian_append]
  constructor
  · rintro ⟨above,below⟩
    constructor
    · by_contra less
      have := Nat.mul_le_mul_right (256 ^ bs.length) (Nat.succ_le_of_lt (Nat.not_le.mp less))
      rw [Nat.succ_mul] at this
      omega
    · exact lt_of_mul_lt_mul_right (by omega : bigEndian as * 256 ^ bs.length < high * 256 ^ bs.length) positive.le
  · rintro ⟨above,below⟩
    have := Nat.mul_le_mul_right (256 ^ bs.length) above
    have := Nat.mul_le_mul_right (256 ^ bs.length) (Nat.succ_le_of_lt below)
    rw [Nat.succ_mul] at this
    omega

/-! ### The order -/

/-- A smaller digit in front makes a smaller number, whatever follows. -/
theorem add_lt_of_digit {p q m a b : Nat} (less : p < q) (bound : a < m) : p * m + a < q * m + b :=
  calc p * m + a < p * m + m := by omega
    _ = (p + 1) * m := by rw [Nat.succ_mul]
    _ ≤ q * m := Nat.mul_le_mul_right _ less
    _ ≤ q * m + b := by omega

/-- The order of the bytes is that of the numbers. -/
theorem compare_bigEndian (same : as.length = bs.length) : compare (bigEndian as) (bigEndian bs) = compare as bs := by
  induction as generalizing bs with
  | nil =>
    obtain rfl := List.length_eq_zero_iff.mp same.symm
    rfl
  | cons a as ih =>
    obtain ⟨b,bs,rfl⟩ := List.exists_cons_of_length_eq_add_one same.symm
    have same : as.length = bs.length := by simpa using same
    rw [List.compare_cons_cons,← ih same,bigEndian,bigEndian,← same]
    cases digits : compare a b with
    | lt =>
      have less := Std.compare_eq_lt.mp digits
      exact Std.compare_eq_lt.mpr (add_lt_of_digit less (bigEndian_lt as))
    | eq =>
      obtain rfl := Std.LawfulEqCmp.eq_of_compare digits
      simp only [Ordering.then,Nat.compare_eq_ite_lt,Nat.add_lt_add_iff_left]
    | gt =>
      have more := Std.compare_eq_gt.mp digits
      exact Std.compare_eq_gt.mpr (add_lt_of_digit more (by rw [same]; exact bigEndian_lt bs))

/-- Different bytes, equally many, make different numbers. -/
theorem bigEndian_inj (same : as.length = bs.length) (equal : bigEndian as = bigEndian bs) : as = bs := by
  have compared : compare as bs = .eq := by rw [← compare_bigEndian same,equal]; exact Std.ReflCmp.compare_self
  exact Std.LawfulEqCmp.eq_of_compare compared

theorem bytes_bigEndian (bs : List UInt8) : bytes bs.length (bigEndian bs) = bs := by
  refine bigEndian_inj (length_bytes _ _) ?_
  rw [bigEndian_bytes,Nat.mod_eq_of_lt (bigEndian_lt bs)]

/-! ### The byte that decides -/

/-- The first two bytes that differ. -/
def firstDifference (as bs : List UInt8) : Option (UInt8 × UInt8) := (as.zip bs).find? fun pair => pair.1 ≠ pair.2

theorem firstDifference_cons (a b : UInt8) (as bs : List UInt8) :
    firstDifference (a :: as) (b :: bs) = if a = b then firstDifference as bs else some (a,b) := by
  unfold firstDifference
  by_cases same : a = b <;> simp [same]

theorem firstDifference_eq_none (same : as.length = bs.length) : firstDifference as bs = none ↔ as = bs := by
  induction as generalizing bs with
  | nil =>
    obtain rfl := List.length_eq_zero_iff.mp same.symm
    simp [firstDifference]
  | cons a as ih =>
    obtain ⟨b,bs,rfl⟩ := List.exists_cons_of_length_eq_add_one same.symm
    rw [firstDifference_cons]
    by_cases head : a = b
    · simp [head,ih (by simpa using same)]
    · simp [head]

/-- The first difference decides the order. -/
theorem compare_eq_lt_iff (same : as.length = bs.length) :
    compare as bs = .lt ↔ ∃ pair ∈ firstDifference as bs, pair.1 < pair.2 := by
  induction as generalizing bs with
  | nil =>
    obtain rfl := List.length_eq_zero_iff.mp same.symm
    simp [firstDifference]
  | cons a as ih =>
    obtain ⟨b,bs,rfl⟩ := List.exists_cons_of_length_eq_add_one same.symm
    rw [firstDifference_cons,List.compare_cons_cons]
    by_cases head : a = b
    · subst head
      simp [ih (by simpa using same)]
    · have apart : compare a b ≠ .eq := fun equal => head (Std.LawfulEqCmp.eq_of_compare equal)
      simp only [head,if_false,Option.mem_def,Option.some.injEq,exists_eq_left',← Std.compare_eq_lt]
      cases digits : compare a b with
      | lt => simp
      | eq => exact absurd digits apart
      | gt => simp

/-- What the two lists begin with does not matter. -/
theorem compare_append (front as bs : List UInt8) : compare (front ++ as) (front ++ bs) = compare as bs := by
  induction front with
  | nil => rfl
  | cons a front ih =>
    have equal : compare a a = .eq := Std.ReflCmp.compare_self
    rw [List.cons_append,List.cons_append,List.compare_cons_cons,ih,equal]
    rfl

end SendersIo.ByteOrder
