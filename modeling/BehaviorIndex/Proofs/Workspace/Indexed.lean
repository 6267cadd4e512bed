import BehaviorIndex.Proofs.Files.Path
import BehaviorIndex.Proofs.Index.Refinement
import BehaviorIndex.Proofs.Index.Registry
import BehaviorIndex.Proofs.Source.Order
import BehaviorIndex.Workspace.Basic

/-!
# What a path has in the index

Files are indexed under their numbers, and the locations of a path are those under its number. A
path is *current* with respect to a content when its locations are those that the content gives; a
path without a content, one that cannot be read, has no locations.

Indexing a file makes its path current, and removing it makes it current without a content. Neither
changes anything for another path, as long as the registry is not full: two paths never share a
number.
-/

namespace BehaviorIndex

/-- The content of a file, if it can be read. -/
def Disk.content? (d : Disk) (p : Path) : Option String := (d.read p).toOption

namespace Workspace

/-- What a content defines in a file. A file without a content defines nothing. -/
def definitionsOf (w : Workspace) (file : FileId) (kind : Kind) : Option String → Definitions
  | some text => w.settings.patterns.locate file kind text
  | none => []

/-- A path that has a content is registered, and its locations are those that the content gives. -/
structure Current (w : Workspace) (kind : Kind) (p : Path) (content : Option String) : Prop where
  registered : content.isSome → (w.registry.id? p).isSome
  locations : ∀ file, w.registry.id? p = some file → ∀ name,
    w.store.locationsIn kind file name = placesIn (w.definitionsOf file kind content) name

/-- The store follows some logs, and the registry is full or matched. -/
structure Sound (w : Workspace) : Prop where
  registry : w.registry.Sound
  store : ∃ logs, w.store.Follows logs

theorem file_of_mem_definitionsOf (w : Workspace) (file : FileId) (kind : Kind)
    (content : Option String) : ∀ pair ∈ w.definitionsOf file kind content, pair.2.file = file := by
  cases content with
  | none => simp [definitionsOf]
  | some text => exact Source.Patterns.file_of_mem_locate _ _ _ _

theorem Current.of_normal_eq {w : Workspace} {kind : Kind} {p q : Path} {content : Option String}
    (h : w.Current kind p content) (hpq : p.normal = q.normal) : w.Current kind q content := by
  have hid : w.registry.id? q = w.registry.id? p := by
    rw [Registry.id?, Registry.id?, hpq]
  exact ⟨fun hc => hid ▸ h.registered hc, fun file hf => h.locations file (hid ▸ hf)⟩

/-! ## Indexing a file -/

/-- The cases of `indexFile`: the registry has no number for the path, or it has one. -/
theorem indexFile_cases (w : Workspace) (d : Disk) (p : Path) (kind : Kind) :
    ((w.registry.register p).2 = none ∧
      (w.indexFile d p kind).1 = { w with registry := (w.registry.register p).1 }) ∨
    ∃ file, (w.registry.register p).2 = some file ∧
      (w.indexFile d p kind).1 = { w with
        registry := (w.registry.register p).1
        store := (w.store.replace file kind (w.definitionsOf file kind (d.content? p))).1 } := by
  unfold indexFile Disk.content?
  rcases hr : w.registry.register p with ⟨registry, _ | file⟩
  · exact .inl ⟨rfl, rfl⟩
  · refine .inr ⟨file, rfl, ?_⟩
    cases d.read p with
    | error fault => rfl
    | ok text => rfl

theorem registry_indexFile (w : Workspace) (d : Disk) (p : Path) (kind : Kind) :
    (w.indexFile d p kind).1.registry = (w.registry.register p).1 := by
  obtain ⟨-, h⟩ | ⟨file, -, h⟩ := w.indexFile_cases d p kind <;> rw [h]

theorem settings_indexFile (w : Workspace) (d : Disk) (p : Path) (kind : Kind) :
    (w.indexFile d p kind).1.settings = w.settings := by
  obtain ⟨-, h⟩ | ⟨file, -, h⟩ := w.indexFile_cases d p kind <;> rw [h]

theorem clock_indexFile (w : Workspace) (d : Disk) (p : Path) (kind : Kind) :
    (w.indexFile d p kind).1.clock = w.clock := by
  obtain ⟨-, h⟩ | ⟨file, -, h⟩ := w.indexFile_cases d p kind <;> rw [h]

theorem Sound.indexFile {w : Workspace} (hw : w.Sound) (d : Disk) (p : Path) (kind : Kind) :
    (w.indexFile d p kind).1.Sound := by
  refine ⟨?_, ?_⟩
  · rw [registry_indexFile]
    exact hw.registry.register p
  · obtain ⟨logs, hlogs⟩ := hw.store
    obtain ⟨-, h⟩ | ⟨file, -, h⟩ := w.indexFile_cases d p kind
    · rw [h]
      exact ⟨logs, hlogs⟩
    · rw [h]
      exact ⟨_, hlogs.apply (a := .replace file kind (w.definitionsOf file kind (d.content? p)))
        (file_of_mem_definitionsOf w file kind _)⟩

/-- The file that was indexed has a number, under which its definitions are the only new locations.
-/
theorem Sound.exists_locationsIn_indexFile {w : Workspace} (hw : w.Sound) {d : Disk} {p : Path}
    {kind : Kind} (hroom : (w.indexFile d p kind).1.registry.size < Registry.idCount) :
    ∃ file, (w.indexFile d p kind).1.registry.id? p = some file ∧
      ∀ k id name, (w.indexFile d p kind).1.store.locationsIn k id name =
        if kind = k ∧ id = file then
          placesIn ((w.indexFile d p kind).1.definitionsOf file kind (d.content? p)) name
        else w.store.locationsIn k id name := by
  rw [registry_indexFile] at hroom ⊢
  have hmatch := hw.registry (Nat.lt_of_le_of_lt (w.registry.size_le_size_register p) hroom)
  obtain ⟨logs, hlogs⟩ := hw.store
  obtain ⟨hnone, -⟩ | ⟨file, hfile, hindexed⟩ := w.indexFile_cases d p kind
  · obtain ⟨file, hfile⟩ := hmatch.exists_register p
    rw [hnone] at hfile
    cases hfile
  · refine ⟨file, Registry.id?_register_self hfile, fun k id name => ?_⟩
    rw [hindexed]
    exact hlogs.locationsIn_replace (file_of_mem_definitionsOf w file kind _) kind k id name

/-- Indexing a file makes its path current. -/
theorem Sound.current_indexFile {w : Workspace} (hw : w.Sound) (d : Disk) (p : Path) (kind : Kind)
    (hroom : (w.indexFile d p kind).1.registry.size < Registry.idCount) :
    (w.indexFile d p kind).1.Current kind p (d.content? p) := by
  obtain ⟨file, hid, hlocations⟩ := hw.exists_locationsIn_indexFile hroom
  refine ⟨fun _ => by rw [hid]; rfl, fun other hother name => ?_⟩
  obtain rfl : file = other := Option.some_inj.mp (hid.symm.trans hother)
  rw [hlocations, if_pos ⟨rfl, rfl⟩]

/-- Indexing a file leaves every other path as it is. -/
theorem Current.indexFile {w : Workspace} (hw : w.Sound) {kind k : Kind} {p q : Path}
    {content : Option String} (hq : w.Current kind q content) (hne : p.normal ≠ q.normal) (d : Disk)
    (hroom : (w.indexFile d p k).1.registry.size < Registry.idCount) :
    (w.indexFile d p k).1.Current kind q content := by
  rw [registry_indexFile] at hroom
  have hid := w.registry.id?_register_of_ne hne
  obtain ⟨logs, hlogs⟩ := hw.store
  obtain ⟨-, h⟩ | ⟨file, hfile, h⟩ := w.indexFile_cases d p k
  · rw [h]
    exact ⟨fun hc => hid ▸ hq.registered hc, fun other ho => hq.locations other (hid ▸ ho)⟩
  · rw [h]
    refine ⟨fun hc => hid ▸ hq.registered hc, fun other ho name => ?_⟩
    -- The two paths have different numbers.
    have hother : other ≠ file := by
      rintro rfl
      exact hne ((hw.registry.register p hroom).normal_eq_of_id?
        (Registry.id?_register_self hfile) ho)
    refine ((hlogs.locationsIn_replace (file_of_mem_definitionsOf w file k _) k kind other
      name).trans (if_neg fun h => hother h.2)).trans ?_
    exact hq.locations other (hid ▸ ho) name

/-! ## Removing a file -/

/-- The cases of `removeFile`: the path has no number, or it has one. -/
theorem removeFile_cases (w : Workspace) (p : Path) :
    (w.registry.id? p = none ∧
      (w.removeFile p).1 = { w with clock := w.clock.cancel p.normal }) ∨
    ∃ file, w.registry.id? p = some file ∧
      (w.removeFile p).1 = { w with
        clock := w.clock.cancel p.normal
        store := ((w.store.removeFile file .tree).1.removeFile file .node).1 } := by
  unfold removeFile
  cases h : w.registry.id? p with
  | none => exact .inl ⟨rfl, by simp only [h]⟩
  | some file => exact .inr ⟨file, rfl, by simp only [h]⟩

theorem registry_removeFile (w : Workspace) (p : Path) :
    (w.removeFile p).1.registry = w.registry := by
  obtain ⟨-, h⟩ | ⟨file, -, h⟩ := w.removeFile_cases p <;> rw [h]

theorem settings_removeFile (w : Workspace) (p : Path) :
    (w.removeFile p).1.settings = w.settings := by
  obtain ⟨-, h⟩ | ⟨file, -, h⟩ := w.removeFile_cases p <;> rw [h]

theorem clock_removeFile (w : Workspace) (p : Path) :
    (w.removeFile p).1.clock = w.clock.cancel p.normal := by
  obtain ⟨-, h⟩ | ⟨file, -, h⟩ := w.removeFile_cases p <;> rw [h]

theorem Sound.removeFile {w : Workspace} (hw : w.Sound) (p : Path) : (w.removeFile p).1.Sound := by
  refine ⟨?_, ?_⟩
  · rw [registry_removeFile]
    exact hw.registry
  · obtain ⟨logs, hlogs⟩ := hw.store
    obtain ⟨-, h⟩ | ⟨file, -, h⟩ := w.removeFile_cases p
    · rw [h]
      exact ⟨logs, hlogs⟩
    · rw [h]
      exact ⟨_, (hlogs.apply (a := .removeFile file .tree) trivial).apply
        (a := .removeFile file .node) trivial⟩

/-- Removing a file from both kinds leaves it no location, and every other file its locations. -/
theorem Sound.locationsIn_removeFile {w : Workspace} (hw : w.Sound) (file other : FileId)
    (kind : Kind) (name : String) :
    ((w.store.removeFile file .tree).1.removeFile file .node).1.locationsIn kind other name =
      if other = file then [] else w.store.locationsIn kind other name := by
  obtain ⟨logs, hlogs⟩ := hw.store
  have h₁ : (w.store.removeFile file .tree).1.Follows _ :=
    hlogs.apply (a := .removeFile file .tree) trivial
  rw [h₁.locationsIn_removeFile, hlogs.locationsIn_removeFile]
  by_cases ho : other = file <;> cases kind <;> simp [ho]

/-- Removing a file leaves its path without locations. -/
theorem Sound.current_removeFile {w : Workspace} (hw : w.Sound) (kind : Kind) (p : Path) :
    (w.removeFile p).1.Current kind p none := by
  refine ⟨fun h => by simp at h, fun other ho name => ?_⟩
  rw [registry_removeFile] at ho
  obtain ⟨hnone, -⟩ | ⟨file, hfile, h⟩ := w.removeFile_cases p
  · rw [hnone] at ho
    cases ho
  · rw [h]
    exact (hw.locationsIn_removeFile file other kind name).trans
      (if_pos (Option.some_inj.mp (ho.symm.trans hfile)))

/-- Removing a file leaves every other path as it is. -/
theorem Current.removeFile {w : Workspace} (hw : w.Sound) {kind : Kind} {p q : Path}
    {content : Option String} (hq : w.Current kind q content) (hne : p.normal ≠ q.normal)
    (hroom : w.registry.size < Registry.idCount) :
    (w.removeFile p).1.Current kind q content := by
  obtain ⟨-, h⟩ | ⟨file, hfile, h⟩ := w.removeFile_cases p
  · rw [h]
    exact ⟨hq.registered, hq.locations⟩
  · rw [h]
    refine ⟨hq.registered, fun other ho name => ?_⟩
    have hother : other ≠ file := by
      rintro rfl
      exact hne ((hw.registry hroom).normal_eq_of_id? hfile ho)
    exact ((hw.locationsIn_removeFile file other kind name).trans (if_neg hother)).trans
      (hq.locations other ho name)

/-! ## Reachable workspaces -/

/-- What can become of a new workspace. All that is done to one is to index files, to remove files,
and to set its timers. -/
inductive Reachable : Workspace → Prop
  | new (d : Disk) (settings : Settings) (root : Path) : Reachable (new d settings root)
  | indexFile {w : Workspace} (d : Disk) (p : Path) (kind : Kind) :
      Reachable w → Reachable (w.indexFile d p kind).1
  | removeFile {w : Workspace} (p : Path) : Reachable w → Reachable (w.removeFile p).1
  | clock {w : Workspace} (clock : Timer.Clock Path Path) :
      Reachable w → Reachable { w with clock }

theorem Reachable.sound {w : Workspace} (h : Reachable w) : w.Sound := by
  induction h with
  | new d settings root => exact ⟨Registry.sound_empty, _, Store.follows_empty⟩
  | indexFile d p kind _ ih => exact ih.indexFile d p kind
  | removeFile p _ ih => exact ih.removeFile p
  | clock c _ ih => exact ⟨ih.registry, ih.store⟩

end Workspace

end BehaviorIndex
