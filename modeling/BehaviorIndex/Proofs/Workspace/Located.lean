import BehaviorIndex.Proofs.Workspace.Indexed

/-!
# Whose locations the index holds

`Workspace.Located P` says that every location is that of a registered path with the property `P`,
which may depend on the kind. `Workspace.Registered C` says that all registered paths are in the
class `C`; in a class whose members have different normal forms, the number of a path stands for the
path as it is written.

Indexing a file brings locations of that file only, and only if it has a content. All other
locations are those there were, without the ones that the file had for the same kind
(`Located.indexFile`). After a file has been removed, none of its locations is left
(`Located.removeFile`).
-/

namespace BehaviorIndex

/-- A number keeps its path. -/
theorem Registry.Matched.path?_register {r : Registry} (hr : r.Matched) {id : FileId} {p : Path}
    (h : r.path? id = some p) (q : Path) : (r.register q).1.path? id = some p := by
  obtain ⟨_, -, hreg⟩ | ⟨-, -, hreg⟩ | ⟨-, -, hreg⟩ := r.register_cases q
  · rwa [hreg]
  · have hne : r.next ≠ id.value := by
      intro heq
      have hlt := hr.lt_next id.value p h
      rw [heq] at hlt
      exact Nat.lt_irrefl _ hlt
    rw [hreg, path?, Std.TreeMap.getElem?_insert, if_neg (by simpa using hne)]
    exact h
  · rwa [hreg]

namespace Workspace

/-- All registered paths are in the class `C`. -/
def Registered (C : Path → Prop) (w : Workspace) : Prop :=
  ∀ id p, w.registry.path? id = some p → C p

/-- Every location is that of a path with the property `P`, for its kind. -/
def Located (P : Kind → Path → Prop) (w : Workspace) : Prop :=
  ∀ kind name, ∀ place ∈ w.store.lookup kind name,
    ∃ p, w.registry.path? place.file = some p ∧ P kind p

theorem mem_locationsIn {w : Workspace} {kind : Kind} {name : String} {place : Location} :
    place ∈ w.store.locationsIn kind place.file name ↔ place ∈ w.store.lookup kind name := by
  simp [Store.locationsIn]

theorem Located.mono {w : Workspace} {P P' : Kind → Path → Prop} (h : w.Located P)
    (hP : ∀ kind p, P kind p → P' kind p) : w.Located P' := by
  intro kind name place hplace
  obtain ⟨p, hpath, hp⟩ := h kind name place hplace
  exact ⟨p, hpath, hP kind p hp⟩

section

variable {w : Workspace} {C : Path → Prop} {P P' : Kind → Path → Prop} {p : Path}

theorem Registered.indexFile (h : w.Registered C) (hp : C p) (d : Disk) (kind : Kind) :
    (w.indexFile d p kind).1.Registered C := by
  intro id q hq
  rw [registry_indexFile] at hq
  obtain ⟨_, -, hreg⟩ | ⟨-, -, hreg⟩ | ⟨-, -, hreg⟩ := w.registry.register_cases p
  · rw [hreg] at hq
    exact h id q hq
  · rw [hreg, Registry.path?, Std.TreeMap.getElem?_insert] at hq
    split at hq
    · cases hq
      exact hp
    · exact h id q hq
  · rw [hreg] at hq
    exact h id q hq

/-- In a class of different paths, the number of a path stands for the path. -/
theorem Registered.path?_of_id? (h : w.Registered C) (hmatch : w.registry.Matched)
    (hinj : ∀ q, C q → q.normal = p.normal → q = p) {id : FileId}
    (hid : w.registry.id? p = some id) : w.registry.path? id = some p := by
  obtain ⟨q, hq, hnormal⟩ := (hmatch.byPath _ _).mp hid
  rw [← hinj q (h id q hq) hnormal]
  exact hq

theorem Sound.path?_indexFile (hw : w.Sound) {d : Disk} {kind : Kind}
    (hroom : (w.indexFile d p kind).1.registry.size < Registry.idCount) {id : FileId} {q : Path}
    (hq : w.registry.path? id = some q) :
    (w.indexFile d p kind).1.registry.path? id = some q := by
  rw [registry_indexFile] at hroom ⊢
  have hbefore := Nat.lt_of_le_of_lt (w.registry.size_le_size_register p) hroom
  exact (hw.registry hbefore).path?_register hq p

/-- **Indexing a file.** New locations are those of the file, which then has a content. -/
theorem Located.indexFile (h : w.Located P) (hw : w.Sound) {d : Disk} {kind : Kind}
    (hregistered : w.Registered C) (hp : C p) (hinj : ∀ q, C q → q.normal = p.normal → q = p)
    (hroom : (w.indexFile d p kind).1.registry.size < Registry.idCount)
    (hnew : (d.content? p).isSome → P' kind p)
    (hold : ∀ k q, C q → P k q → (q = p → k ≠ kind) → P' k q) :
    (w.indexFile d p kind).1.Located P' := by
  have hmatch := (hw.indexFile d p kind).registry hroom
  obtain ⟨file, hid, hlocations⟩ := hw.exists_locationsIn_indexFile hroom
  intro k name place hplace
  rw [← mem_locationsIn, hlocations] at hplace
  split at hplace
  · next heq =>
    obtain ⟨rfl, hplaceFile⟩ := heq
    refine ⟨p, ?_, hnew ?_⟩
    · rw [hplaceFile]
      exact (hregistered.indexFile hp d kind).path?_of_id? hmatch hinj hid
    · cases hcontent : d.content? p with
      | some text => rfl
      | none => simp [hcontent, definitionsOf] at hplace
  · next hne =>
    obtain ⟨q, hq, hPq⟩ := h k name place (mem_locationsIn.mp hplace)
    have hkept := hw.path?_indexFile hroom hq
    refine ⟨q, hkept, hold k q (hregistered _ q hq) hPq ?_⟩
    -- The file kept its number, so its own locations of this kind have been replaced.
    rintro rfl rfl
    have hnumber := hmatch.byPath.id?_of_path? hkept
    rw [hid] at hnumber
    exact hne ⟨rfl, (Option.some_inj.mp hnumber).symm⟩

/-- **Removing a file.** No location of the file is left. -/
theorem Located.removeFile (h : w.Located P) (hw : w.Sound)
    (hroom : w.registry.size < Registry.idCount) (hold : ∀ k q, P k q → q ≠ p → P' k q) :
    (w.removeFile p).1.Located P' := by
  have hmatch := hw.registry hroom
  intro k name place hplace
  rw [registry_removeFile]
  obtain ⟨hnone, hremoved⟩ | ⟨file, hfile, hremoved⟩ := w.removeFile_cases p
  · rw [hremoved] at hplace
    obtain ⟨q, hq, hPq⟩ := h k name place hplace
    refine ⟨q, hq, hold k q hPq ?_⟩
    rintro rfl
    rw [hmatch.byPath.id?_of_path? hq] at hnone
    cases hnone
  · rw [← mem_locationsIn, hremoved, hw.locationsIn_removeFile] at hplace
    split at hplace
    · cases hplace
    · next hne =>
      obtain ⟨q, hq, hPq⟩ := h k name place (mem_locationsIn.mp hplace)
      refine ⟨q, hq, hold k q hPq ?_⟩
      rintro rfl
      exact hne (Option.some_inj.mp ((hmatch.byPath.id?_of_path? hq).symm.trans hfile))

end

end Workspace

end BehaviorIndex
