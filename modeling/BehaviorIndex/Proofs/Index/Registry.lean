import BehaviorIndex.Index.Registry
import Mathlib.Order.Basic
import Std.Data.TreeMap.Lemmas

/-!
# Numbers of files

As long as the registry has numbers left, the two directions of the registry match: a path has a
number exactly when that number stands for the path (`Matched`). Then no two paths share a number.
The last number is gone when `idCount` paths are registered. The two directions still match
(`Paired`), but the match is lost with the next path, because the counter starts again; so `Sound`
is said of registries that are not full.
-/

namespace BehaviorIndex.Registry

open Std

/-- How many numbers there are: all of 32 bits but zero. -/
def idCount : Nat := UInt32.size - 1

/-- All numbers are given out. -/
def Full (r : Registry) : Prop := idCount ≤ r.size

/-- A path has a number exactly when the number stands for the path. -/
def Paired (r : Registry) : Prop :=
  ∀ (key : String) (id : FileId), r.byPath[key]? = some id ↔
    ∃ p : Path, r.byId[id.value]? = some p ∧ p.normal = key

structure Matched (r : Registry) : Prop where
  next_eq : r.next.toNat = r.size + 1
  lt_next : ∀ (v : UInt32) (p : Path), r.byId[v]? = some p → v.toNat < r.next.toNat
  byPath : r.Paired

/-- The registry is full, or its two directions match. -/
def Sound (r : Registry) : Prop := r.size < idCount → r.Matched

theorem matched_empty : Matched {} where
  next_eq := rfl
  lt_next v p h := by simp at h
  byPath key id := by simp

/-! ## Registering a path -/

/-- The cases of `register`, from which everything else about it follows. -/
theorem register_cases (r : Registry) (p : Path) :
    (∃ id, r.id? p = some id ∧ r.register p = (r, some id)) ∨
    (r.id? p = none ∧ r.next ≠ 0 ∧
      r.register p = ({ byPath := r.byPath.insert p.normal ⟨r.next⟩
                        byId := r.byId.insert r.next p
                        next := r.next + 1 }, some ⟨r.next⟩)) ∨
    (r.id? p = none ∧ r.next = 0 ∧ r.register p = ({ r with next := r.next + 1 }, none)) := by
  rw [register]
  cases h : r.id? p with
  | some id => exact .inl ⟨id, rfl, rfl⟩
  | none =>
    by_cases hnext : r.next = 0
    · refine .inr (.inr ⟨rfl, hnext, ?_⟩)
      rw [FileId.ofValue?, if_pos hnext]
    · refine .inr (.inl ⟨rfl, hnext, ?_⟩)
      rw [FileId.ofValue?, if_neg hnext]

theorem size_le_size_register (r : Registry) (p : Path) : r.size ≤ (r.register p).1.size := by
  obtain ⟨id, -, h⟩ | ⟨-, -, h⟩ | ⟨-, -, h⟩ := r.register_cases p
  · exact Nat.le_of_eq (by rw [h])
  · rw [h]
    exact TreeMap.size_le_size_insert
  · rw [h]
    exact Nat.le_refl _

theorem size_register_le (r : Registry) (p : Path) : (r.register p).1.size ≤ r.size + 1 := by
  obtain ⟨id, -, h⟩ | ⟨-, -, h⟩ | ⟨-, -, h⟩ := r.register_cases p
  · rw [h]
    exact Nat.le_succ _
  · rw [h]
    exact TreeMap.size_insert_le
  · rw [h]
    exact Nat.le_succ _

theorem id?_register_self {r : Registry} {p : Path} {id : FileId} (h : (r.register p).2 = some id) :
    (r.register p).1.id? p = some id := by
  obtain ⟨id', hid, hr⟩ | ⟨-, -, hr⟩ | ⟨-, -, hr⟩ := r.register_cases p
  · rw [hr] at h ⊢
    exact hid.trans h
  · rw [hr] at h ⊢
    rw [id?, TreeMap.getElem?_insert_self]
    exact h
  · rw [hr] at h
    cases h

/-- A path that is refused has no number. -/
theorem id?_register_of_none {r : Registry} {p : Path} (h : (r.register p).2 = none) :
    (r.register p).1.id? p = none := by
  obtain ⟨id, -, hr⟩ | ⟨-, -, hr⟩ | ⟨hnone, -, hr⟩ := r.register_cases p
  · rw [hr] at h
    cases h
  · rw [hr] at h
    cases h
  · rw [hr]
    exact hnone

theorem id?_register_of_ne (r : Registry) {p q : Path} (hne : p.normal ≠ q.normal) :
    (r.register p).1.id? q = r.id? q := by
  obtain ⟨id, -, h⟩ | ⟨-, -, h⟩ | ⟨-, -, h⟩ := r.register_cases p
  · rw [h]
  · rw [h, id?, id?, TreeMap.getElem?_insert, if_neg (by simpa using hne)]
  · rw [h]
    rfl

theorem id?_congr (r : Registry) {p q : Path} (h : p.normal = q.normal) : r.id? p = r.id? q := by
  rw [id?, id?, h]

/-- A path keeps its number. -/
theorem id?_register_of_some {r : Registry} {q : Path} {id : FileId} (h : r.id? q = some id)
    (p : Path) : (r.register p).1.id? q = some id := by
  by_cases hpq : p.normal = q.normal
  · obtain ⟨_, -, hr⟩ | ⟨hnone, -, -⟩ | ⟨hnone, -, -⟩ := r.register_cases p
    · rwa [hr]
    all_goals
      rw [r.id?_congr hpq, h] at hnone
      cases hnone
  · rwa [id?_register_of_ne r hpq]

namespace Paired

variable {r : Registry} (hr : r.Paired)

include hr

/-- No two paths share a number. -/
theorem normal_eq_of_id? {p q : Path} {id : FileId} (hp : r.id? p = some id)
    (hq : r.id? q = some id) : p.normal = q.normal := by
  obtain ⟨p', hp', hpn⟩ := (hr _ _).mp hp
  obtain ⟨q', hq', hqn⟩ := (hr _ _).mp hq
  rw [hp', Option.some_inj] at hq'
  rw [← hpn, ← hqn, hq']

theorem id?_of_path? {p : Path} {id : FileId} (h : r.path? id = some p) : r.id? p = some id :=
  (hr _ _).mpr ⟨p, h, rfl⟩

/-- A new path may be given the next number, if that number is free. -/
theorem insert_next (hfree : r.byId[r.next]? = none) {p : Path} (hnone : r.id? p = none) :
    Paired { byPath := r.byPath.insert p.normal ⟨r.next⟩
             byId := r.byId.insert r.next p
             next := r.next + 1 } := by
  intro key id
  show (r.byPath.insert p.normal ⟨r.next⟩)[key]? = some id ↔
    ∃ q : Path, (r.byId.insert r.next p)[id.value]? = some q ∧ q.normal = key
  rw [TreeMap.getElem?_insert, TreeMap.getElem?_insert]
  simp only [LawfulEqCmp.compare_eq_iff_eq]
  by_cases hid : r.next = id.value
  · -- The new number stands for the new path and for no other.
    rw [if_pos hid]
    have hold : r.byPath[key]? ≠ some id := fun hk => by
      obtain ⟨q, hq, -⟩ := (hr key id).mp hk
      rw [← hid, hfree] at hq
      cases hq
    by_cases hkey : p.normal = key
    · simp [hkey, hid]
    · simp [hkey, hold]
  · -- An old number keeps its path, which is not the new one.
    have hne : (⟨r.next⟩ : FileId) ≠ id := fun h => hid (by rw [← h])
    rw [if_neg hid, ← hr]
    by_cases hkey : p.normal = key
    · have hnone' : r.byPath[key]? = none := hkey ▸ hnone
      simp [hkey, hne, hnone']
    · rw [if_neg hkey]

end Paired

namespace Matched

variable {r : Registry} (hr : r.Matched)

include hr

/-- No two paths share a number. -/
theorem normal_eq_of_id? {p q : Path} {id : FileId} (hp : r.id? p = some id)
    (hq : r.id? q = some id) : p.normal = q.normal :=
  hr.byPath.normal_eq_of_id? hp hq

theorem next_ne_zero : r.next ≠ 0 := by
  intro h
  have := hr.next_eq
  rw [h] at this
  simp at this

theorem getElem?_next : r.byId[r.next]? = none := by
  cases h : r.byId[r.next]? with
  | none => rfl
  | some p => exact absurd (hr.lt_next _ _ h) (Nat.lt_irrefl _)

theorem exists_register (p : Path) : ∃ id, (r.register p).2 = some id := by
  obtain ⟨id, -, h⟩ | ⟨-, -, h⟩ | ⟨-, hz, -⟩ := r.register_cases p
  · exact ⟨id, by rw [h]⟩
  · exact ⟨_, by rw [h]⟩
  · exact absurd hz hr.next_ne_zero

theorem size_insert_next (p : Path) : (r.byId.insert r.next p).size = r.size + 1 := by
  rw [TreeMap.size_insert, if_neg]
  · rfl
  · rw [TreeMap.contains_eq_isSome_getElem?, hr.getElem?_next]
    simp

/-- The two directions match also when the last number has been given out. -/
theorem paired_register (p : Path) : (r.register p).1.Paired := by
  obtain ⟨id, -, h⟩ | ⟨hnone, -, h⟩ | ⟨-, hz, -⟩ := r.register_cases p
  · rw [h]
    exact hr.byPath
  · rw [h]
    exact hr.byPath.insert_next hr.getElem?_next hnone
  · exact absurd hz hr.next_ne_zero

theorem register {p : Path} (hroom : (r.register p).1.size < idCount) :
    (r.register p).1.Matched := by
  have hpaired := hr.paired_register p
  obtain ⟨id, -, h⟩ | ⟨hnone, -, h⟩ | ⟨-, hz, -⟩ := r.register_cases p
  · rwa [h]
  · rw [h] at hroom hpaired ⊢
    have hsize := hr.size_insert_next p
    have hnext : (r.next + 1).toNat = r.size + 2 := by
      have hroom' : (r.byId.insert r.next p).size < idCount := hroom
      rw [hsize, idCount, UInt32.size] at hroom'
      rw [UInt32.toNat_add, hr.next_eq]
      exact Nat.mod_eq_of_lt (by simp; omega)
    refine ⟨?_, ?_, hpaired⟩
    · show (r.next + 1).toNat = (r.byId.insert r.next p).size + 1
      rw [hsize, hnext]
    · intro v q hv
      show v.toNat < (r.next + 1).toNat
      rw [hnext]
      rw [TreeMap.getElem?_insert] at hv
      split_ifs at hv with hvn
      · rw [← LawfulEqCmp.compare_eq_iff_eq.mp hvn, hr.next_eq]
        omega
      · have := hr.lt_next v q hv
        rw [hr.next_eq] at this
        omega
  · exact absurd hz hr.next_ne_zero

end Matched

theorem sound_empty : Sound {} := fun _ => matched_empty

theorem Sound.register {r : Registry} (h : r.Sound) (p : Path) : (r.register p).1.Sound :=
  fun hroom => (h (Nat.lt_of_le_of_lt (r.size_le_size_register p) hroom)).register hroom

end BehaviorIndex.Registry
