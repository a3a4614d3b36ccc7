import Mathlib.Data.List.Perm.Basic
import Mathlib.Data.List.Nodup

/-!
Storage for one object whose lifetime is managed by hand: a construction does not look
whether an object is there, and the end of the storage destroys nothing. The objects that
were constructed in it are numbered, and every one of them is there, was lost when another
was constructed over it, or was destroyed.
-/
namespace SendersIo.ManualLifetime
universe u

/-- Storage, with the numbers of the objects that were lost or destroyed, and with how often
    it was read or destroyed while there was no object. -/
structure Storage (α : Type u) where
  object : Option (Nat × α)
  constructed : Nat
  lost : List Nat
  destroyed : List Nat
  misused : Nat
  accounted : ((object.toList.map Prod.fst ++ lost) ++ destroyed).Perm (List.range constructed)

namespace Storage
variable {α : Type u}

/-- Storage in which no object was constructed yet. -/
def empty : Storage α := ⟨none,0,[],[],0,by simp⟩

/-- An object is constructed; what was there is lost. -/
def construct (s : Storage α) (v : α) : Storage α where
  object := some (s.constructed,v)
  constructed := s.constructed + 1
  lost := s.object.toList.map Prod.fst ++ s.lost
  destroyed := s.destroyed
  misused := s.misused
  accounted := by
    rw [List.range_succ]
    exact (s.accounted.cons s.constructed).trans (List.perm_append_singleton _ _).symm

/-- The value of the object that is there. -/
def value (s : Storage α) : Option α := s.object.map Prod.snd

/-- The object is read. -/
def read (s : Storage α) : Storage α := { s with misused := s.misused + if s.object.isNone then 1 else 0 }

/-- The object is destroyed. -/
def destroy (s : Storage α) : Storage α where
  object := none
  constructed := s.constructed
  lost := s.lost
  destroyed := s.object.toList.map Prod.fst ++ s.destroyed
  misused := s.misused + if s.object.isNone then 1 else 0
  accounted := by
    refine .trans ?_ s.accounted
    simp only [Option.toList_none,List.map_nil,List.nil_append,← List.append_assoc]
    exact List.perm_append_comm.append_right _

variable (s : Storage α) (v : α)

@[simp] theorem value_empty : (empty : Storage α).value = none := rfl
@[simp] theorem value_construct : (s.construct v).value = some v := rfl
@[simp] theorem value_read : s.read.value = s.value := rfl
@[simp] theorem value_destroy : s.destroy.value = none := rfl

/-- Where there is a value, there is an object. -/
theorem object_of_value {s : Storage α} {v : α} (value : s.value = some v) : s.object.isNone = false := by
  obtain ⟨object,there,_⟩ := Option.map_eq_some_iff.mp value
  rw [there,Option.isNone_some]

/-- Every object was destroyed once, and none was constructed over another. -/
def Balanced : Prop := (∀ k < s.constructed, s.destroyed.count k = 1) ∧ s.lost = []

/-- The objects were all destroyed if and only if none is there and none was lost. -/
theorem balanced_iff : s.Balanced ↔ s.object = none ∧ s.lost = [] := by
  have distinct : ((s.object.toList.map Prod.fst ++ s.lost) ++ s.destroyed).Nodup :=
    s.accounted.nodup_iff.mpr List.nodup_range
  constructor
  · rintro ⟨once,kept⟩
    refine ⟨?_,kept⟩
    cases there : s.object with
    | none => rfl
    | some object =>
      have member : object.1 ∈ (s.object.toList.map Prod.fst ++ s.lost) ++ s.destroyed := by simp [there]
      have small := List.mem_range.mp (s.accounted.subset member)
      have gone : object.1 ∈ s.destroyed := List.count_pos_iff.mp (by rw [once _ small]; exact Nat.one_pos)
      exact absurd gone ((List.nodup_append'.mp distinct).2.2 (by simp [there]))
  · rintro ⟨gone,kept⟩
    have all := s.accounted
    rw [gone,kept] at all distinct
    simp only [Option.toList_none,List.map_nil,List.nil_append,List.append_nil] at all distinct
    refine ⟨fun k small => ?_,kept⟩
    exact List.count_eq_one_of_mem distinct (all.symm.subset (List.mem_range.mpr small))

end Storage

end SendersIo.ManualLifetime
