import Mathlib.Algebra.Order.Ring.Nat

/-!
Bytes at addresses: the memory of a process, or the content of a file.
-/
namespace SendersIo.Bytes

/-- The byte at every address. -/
abbrev Store := Nat → UInt8

/-- The target after `n` bytes of the source at `a` were copied to `b`. -/
def copy (source : Store) (a : Nat) (target : Store) (b n : Nat) : Store := fun x =>
  if b ≤ x ∧ x < b + n then source (a + (x - b)) else target x

variable {source target : Store} {a b n m : Nat}

theorem copy_inside {x : Nat} (above : b ≤ x) (below : x < b + n) :
    copy source a target b n x = source (a + (x - b)) := if_pos ⟨above,below⟩

theorem copy_outside {x : Nat} (outside : x < b ∨ b + n ≤ x) : copy source a target b n x = target x :=
  if_neg fun inside => by omega

@[simp] theorem copy_zero : copy source a target b 0 = target := by
  funext x
  exact copy_outside (by omega)

/-- Two copies that follow one another are one. -/
theorem copy_append : copy source (a + n) (copy source a target b n) (b + n) m = copy source a target b (n + m) := by
  funext x
  by_cases second : b + n ≤ x ∧ x < b + n + m
  · rw [copy_inside second.1 second.2,copy_inside (by omega) (by omega)]
    congr 1
    omega
  · rw [copy_outside (by omega)]
    by_cases first : b ≤ x ∧ x < b + n
    · rw [copy_inside first.1 first.2,copy_inside first.1 (by omega)]
    · rw [copy_outside (by omega),copy_outside (by omega)]

/-! ### Words, the least significant byte first -/

/-- The word of `n` bytes at an address. -/
def load (m : Store) (a : Nat) : Nat → Nat
  | 0 => 0
  | n + 1 => (m a).toNat + 256 * load m (a + 1) n

/-- The bytes of a word. -/
def bytesOf (v : Nat) : Store := fun k => UInt8.ofNat (v / 256 ^ k)

/-- The memory after a word of `n` bytes was stored at an address. -/
def store (m : Store) (a n v : Nat) : Store := copy (bytesOf v) 0 m a n

variable {m₁ m₂ : Store} {v : Nat}

theorem load_congr (same : ∀ k < n, m₁ (a + k) = m₂ (b + k)) : load m₁ a n = load m₂ b n := by
  induction n generalizing a b with
  | zero => rfl
  | succ n ih =>
    have first : m₁ a = m₂ b := same 0 (by omega)
    rw [load,load,first,ih fun k less => ?_]
    rw [show a + 1 + k = a + (k + 1) by omega,show b + 1 + k = b + (k + 1) by omega]
    exact same (k + 1) (by omega)

theorem bytesOf_succ (v k : Nat) : bytesOf v (k + 1) = bytesOf (v / 256) k := by
  rw [bytesOf,bytesOf,pow_succ',Nat.div_div_eq_div_mul]

theorem load_bytesOf (v n : Nat) : load (bytesOf v) 0 n = v % 256 ^ n := by
  induction n generalizing v with
  | zero => simp [load,Nat.mod_one]
  | succ n ih =>
    have rest : load (bytesOf v) (0 + 1) n = load (bytesOf (v / 256)) 0 n :=
      load_congr fun k _ => by rw [Nat.zero_add,Nat.zero_add,Nat.add_comm 1 k,bytesOf_succ]
    rw [load,rest,ih,pow_succ',Nat.mod_mul]
    simp [bytesOf]

/-- A word that was stored is loaded again, as far as its bytes can hold it. -/
theorem load_store (m : Store) (a n v : Nat) : load (store m a n v) a n = v % 256 ^ n := by
  rw [← load_bytesOf]
  refine load_congr fun k less => ?_
  rw [store,copy_inside (by omega) (by omega)]
  congr 1
  omega

/-- Storing a word changes no other word. -/
theorem load_store_apart {n' : Nat} (apart : a + n ≤ b ∨ b + n' ≤ a) (m : Store) (v : Nat) :
    load (store m b n' v) a n = load m a n :=
  load_congr fun k less => copy_outside (by omega)

/-! ### The bytes at several addresses -/

/-- The bytes at the addresses, one after the other. -/
def bytesAt (s : Store) (addresses : List Nat) : List UInt8 := addresses.map s

section
variable {s s' : Store} {as as' : List Nat}

theorem bytesAt_append (s : Store) (as as' : List Nat) : bytesAt s (as ++ as') = bytesAt s as ++ bytesAt s as' :=
  List.map_append

theorem bytesAt_length (s : Store) (as : List Nat) : (bytesAt s as).length = as.length := List.length_map _

theorem bytesAt_congr (same : ∀ a ∈ as, s a = s' a) : bytesAt s as = bytesAt s' as := List.map_congr_left same

/-- The bytes that were copied are those of the source. -/
theorem bytesAt_copy (source : Store) (a : Nat) (target : Store) (b n : Nat) :
    bytesAt (copy source a target b n) (List.range' b n) = bytesAt source (List.range' a n) := by
  simp only [bytesAt,List.range'_eq_map_range,List.map_map]
  refine List.map_congr_left fun i member => ?_
  have less : i < n := List.mem_range.mp member
  simp only [Function.comp_apply]
  rw [copy_inside (by omega) (by omega)]
  congr 1
  omega

end

end SendersIo.Bytes
