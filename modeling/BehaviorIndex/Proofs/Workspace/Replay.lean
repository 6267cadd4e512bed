import BehaviorIndex.Proofs.Watch.Loop
import BehaviorIndex.Proofs.Workspace.Mirror

/-!
# The index is a function of its history

Clients index files, index them again, and remove them, while the disk changes. What they did is
told by the *history* of each kind: to index a file moves its path to the end, with what its content
defines at that time; a file that cannot be read loses what it defined of the kind; to remove a file
drops it from both histories; and to index a file of no kind again does nothing.

**Theorem (`recounts_replay`).** After any calls on a new workspace, as long as there are numbers
for all paths, the definitions of a name are read off the history of the kind, each under the path
that its number stands for, which is the path as it was first written. A path keeps its number for
good, no two paths share one, and only calls that index a file give one out.

The proof runs along the calls, with the invariant `Mirrors`: each call does to the histories what
it does to the workspace (`Mirrors.call`).
-/

namespace BehaviorIndex.Workspace

/-- What a client asks of a workspace. A call that reads a file comes with the disk it reads. -/
inductive Call where
  | indexFile (d : Disk) (p : Path) (kind : Kind)
  | reindex (d : Disk) (p : Path)
  | removeFile (p : Path)

/-- What becomes of the history of a kind when a file is indexed for `k`. -/
def recordRead (settings : Settings) (kind : Kind) (h : History) (d : Disk) (p : Path) (k : Kind) :
    History :=
  if k = kind then
    match d.read p with
    | .ok text => h.renew p (settings.patterns.sites k text)
    | .error _ => h.without p
  else h

namespace Call

def apply (w : Workspace) : Call → Workspace
  | indexFile d p kind => (w.indexFile d p kind).1
  | reindex d p => (w.reindex d p).1
  | removeFile p => (w.removeFile p).1

/-- The path that a call registers. -/
def registered? (settings : Settings) : Call → Option Path
  | indexFile _ p _ => some p
  | reindex _ p => (settings.indexing.kindOf? p).map fun _ => p
  | removeFile _ => none

/-- What a call does to the history of a kind. -/
def record (settings : Settings) (kind : Kind) (h : History) : Call → History
  | indexFile d p k => recordRead settings kind h d p k
  | reindex d p =>
    match settings.indexing.kindOf? p with
    | some k => recordRead settings kind h d p k
    | none => h
  | removeFile p => h.without p

end Call

/-- The workspace after some calls. -/
def replay (w : Workspace) (calls : List Call) : Workspace := calls.foldl Call.apply w

/-- The history of a kind after some calls. -/
def historyOf (settings : Settings) (kind : Kind) (calls : List Call) : History :=
  calls.foldl (Call.record settings kind) []

/-- The paths that some calls register, in that order. -/
def registered (settings : Settings) (calls : List Call) : List Path :=
  calls.filterMap (Call.registered? settings)

/-- What holds of a workspace after some calls. -/
structure Recounts (start : Workspace) (calls : List Call) : Prop where
  /-- The definitions are those of the history. -/
  sites : ∀ kind name, ((start.replay calls).definitions kind name).map Definition.site =
    ((historyOf start.settings kind calls).sites name).map fun site =>
      (Path.firstOf (registered start.settings calls) site.1, site.2)
  /-- Each has the path of its entry, however that is written. -/
  normal_sites : ∀ kind name, ((start.replay calls).definitions kind name).map
      (fun d => (d.path.normal, d.location.line, d.location.column)) =
    ((historyOf start.settings kind calls).sites name).map fun site => (site.1.normal, site.2)
  /-- No location is left out. -/
  locations : ∀ kind name, ((start.replay calls).definitions kind name).map Definition.location =
    (start.replay calls).lookup kind name
  resolved : ∀ kind name, ∀ d ∈ (start.replay calls).definitions kind name,
    d.name = name ∧ d.kind = kind ∧
      (start.replay calls).registry.id? d.path = some d.location.file
  isSome_id?_iff : ∀ p, ((start.replay calls).registry.id? p).isSome ↔
    p.normal ∈ (registered start.settings calls).map Path.normal
  /-- A path keeps its number. -/
  id?_stays : ∀ before after, calls = before ++ after → ∀ p id,
    (start.replay before).registry.id? p = some id → (start.replay calls).registry.id? p = some id
  /-- No two paths share a number. -/
  normal_eq : ∀ p q id, (start.replay calls).registry.id? p = some id →
    (start.replay calls).registry.id? q = some id → p.normal = q.normal
  /-- The number of a path stands for the path, as it was first written. -/
  path?_of_id? : ∀ p id, (start.replay calls).registry.id? p = some id →
    (start.replay calls).registry.path? id =
        some (Path.firstOf (registered start.settings calls) p) ∧
      (Path.firstOf (registered start.settings calls) p).normal = p.normal
  id?_of_path? : ∀ p id, (start.replay calls).registry.path? id = some p →
    (start.replay calls).registry.id? p = some id

/-! ## One call -/

section

variable {w : Workspace} {paths : List Path} {histories : Kind → History}

theorem Mirrors.indexFile (h : w.Mirrors paths histories) (d : Disk) {p : Path} (k : Kind)
    (hroom : ((paths ++ [p]).map Path.normal).toFinset.card ≤ Registry.idCount) :
    (w.indexFile d p k).1.Mirrors (paths ++ [p])
      fun kind => recordRead w.settings kind (histories kind) d p k := by
  obtain ⟨-, file, hfile⟩ := h.registry.register hroom
  have hregistered := h.register hroom
  have hid := Registry.id?_register_self hfile
  obtain ⟨hnone, -⟩ | ⟨file', hfile', hindex⟩ := w.indexFile_cases d p k
  · rw [hfile] at hnone
    cases hnone
  · obtain rfl := Option.some_inj.mp (hfile.symm.trans hfile')
    rw [hindex, Disk.content?]
    unfold recordRead
    cases d.read p with
    | ok text =>
      have hrenewed := hregistered.renew hid k (w.settings.patterns.sites k text)
      rwa [← Source.Patterns.locate_eq_placed] at hrenewed
    | error fault => exact hregistered.without hid k

theorem Mirrors.removeFile (h : w.Mirrors paths histories) (p : Path) :
    (w.removeFile p).1.Mirrors paths fun kind => (histories kind).without p := by
  obtain ⟨hnone, hremove⟩ | ⟨file, hfile, hremove⟩ := w.removeFile_cases p
  · -- A path without a number is in no history.
    have hsame : ∀ kind, (histories kind).without p = histories kind := by
      intro kind
      refine List.filter_eq_self.mpr fun entry hentry => ?_
      have hknown := h.known kind entry hentry
      rw [decide_eq_true_eq]
      intro heq
      rw [w.registry.id?_congr heq, hnone] at hknown
      cases hknown
    rw [hremove]
    simp only [hsame]
    exact ⟨h.registry, h.known, h.store⟩
  · have hdropped := (h.without hfile .tree).without hfile .node
    have hboth : ∀ kind, (if Kind.node = kind then
        History.without (if Kind.tree = kind then (histories kind).without p else histories kind) p
      else if Kind.tree = kind then (histories kind).without p else histories kind) =
        (histories kind).without p := by
      rintro (_ | _) <;> rfl
    rw [hremove]
    simp only [hboth] at hdropped
    exact ⟨hdropped.registry, hdropped.known, hdropped.store⟩

/-- **One call.** A call does to the histories what it does to the workspace. -/
theorem Mirrors.call (h : w.Mirrors paths histories) (c : Call)
    (hroom : ((paths ++ (c.registered? w.settings).toList).map Path.normal).toFinset.card ≤
      Registry.idCount) :
    (c.apply w).Mirrors (paths ++ (c.registered? w.settings).toList)
      fun kind => c.record w.settings kind (histories kind) := by
  cases c with
  | indexFile d p k => exact h.indexFile d k hroom
  | reindex d p =>
    rw [Call.registered?] at hroom ⊢
    simp only [Call.record]
    obtain ⟨hnone, hreindex⟩ | ⟨k, hk, hreindex⟩ := w.reindex_cases d p
    · rw [Call.apply, hreindex, hnone, Option.map_none, Option.toList_none, List.append_nil]
      exact h
    · rw [hk] at hroom ⊢
      rw [Call.apply, hreindex]
      exact h.indexFile d k hroom
  | removeFile p =>
    rw [Call.registered?, Option.toList_none, List.append_nil]
    exact h.removeFile p

theorem settings_apply (w : Workspace) (c : Call) : (c.apply w).settings = w.settings := by
  cases c with
  | indexFile d p k => exact w.settings_indexFile d p k
  | reindex d p => exact w.settings_reindex d p
  | removeFile p => exact w.settings_removeFile p

/-- A path keeps its number through a call. -/
theorem id?_apply_of_some {p : Path} {id : FileId} (h : w.registry.id? p = some id) (c : Call) :
    (c.apply w).registry.id? p = some id := by
  cases c with
  | indexFile d q k =>
    rw [Call.apply, registry_indexFile]
    exact Registry.id?_register_of_some h q
  | reindex d q =>
    rw [Call.apply]
    obtain ⟨-, hreindex⟩ | ⟨k, -, hreindex⟩ := w.reindex_cases d q <;> rw [hreindex]
    · exact h
    · rw [registry_indexFile]
      exact Registry.id?_register_of_some h q
  | removeFile q =>
    rw [Call.apply, registry_removeFile]
    exact h

/-! ## All calls -/

theorem settings_replay (w : Workspace) (calls : List Call) :
    (w.replay calls).settings = w.settings := by
  induction calls generalizing w with
  | nil => rfl
  | cons c calls ih => exact (ih (c.apply w)).trans (settings_apply w c)

theorem id?_replay_of_some {p : Path} {id : FileId} (h : w.registry.id? p = some id)
    (calls : List Call) : (w.replay calls).registry.id? p = some id := by
  induction calls generalizing w with
  | nil => exact h
  | cons c calls ih => exact ih (id?_apply_of_some h c)

theorem replay_append (w : Workspace) (before after : List Call) :
    w.replay (before ++ after) = (w.replay before).replay after := List.foldl_append

theorem registered_concat (settings : Settings) (calls : List Call) (c : Call) :
    registered settings (calls ++ [c]) =
      registered settings calls ++ (c.registered? settings).toList := by
  rw [registered, List.filterMap_append]
  cases h : c.registered? settings <;> simp [registered, h]

/-- **All calls.** A workspace holds the histories of the calls that were made on it. -/
theorem mirrors_replay (d : Disk) (settings : Settings) (root : Path) {calls : List Call}
    (hfew : ((registered settings calls).map Path.normal).toFinset.card ≤ Registry.idCount) :
    ((new d settings root).replay calls).Mirrors (registered settings calls)
      fun kind => historyOf settings kind calls := by
  induction calls using List.reverseRecOn with
  | nil => exact mirrors_new d settings root
  | append_singleton calls c ih =>
    have hsettings := settings_replay (new d settings root) calls
    rw [registered_concat] at hfew ⊢
    have hbefore : ((registered settings calls).map Path.normal).toFinset.card ≤
        Registry.idCount := by
      refine Nat.le_trans (Finset.card_le_card ?_) hfew
      rw [List.map_append, List.toFinset_append]
      exact Finset.subset_union_left
    have hcall := (ih hbefore).call c (by rwa [hsettings])
    rw [hsettings] at hcall
    rw [replay_append]
    simp only [historyOf, List.foldl_append]
    exact hcall

end

/-- **The index is a function of its history.** -/
theorem recounts_replay (d : Disk) (settings : Settings) (root : Path) (calls : List Call)
    (hfew : ((registered settings calls).map Path.normal).toFinset.card ≤ Registry.idCount) :
    Recounts (new d settings root) calls := by
  have h := mirrors_replay d settings root hfew
  refine ⟨h.sites_definitions, fun kind name => ?_, h.location_definitions, fun kind name d hd =>
    h.id?_of_mem_definitions hd, h.registry.mem_iff, ?_, fun p q id hp hq =>
    h.registry.paired.normal_eq_of_id? hp hq, fun p id hp =>
    ⟨h.registry.path? p id hp, Path.normal_firstOf _ p⟩, fun p id hp =>
    h.registry.paired.id?_of_path? hp⟩
  · have hsites := congrArg (List.map fun site => (Path.normal site.1, site.2))
      (h.sites_definitions kind name)
    rw [List.map_map, List.map_map] at hsites
    refine hsites.trans (List.map_congr_left fun site _ => ?_)
    rw [Function.comp_apply, Path.normal_firstOf]
  · rintro before after rfl p id hid
    rw [replay_append]
    exact id?_replay_of_some hid after

/-- A disk with two files, the second of which defines a tree. -/
def pairDisk (first : String) : Disk :=
  ⟨.ofList [("/a.xml", Disk.Entry.file first.toUTF8),
    ("/b.xml", Disk.Entry.file "<BehaviorTree ID='T'/>".toUTF8)], "/"⟩

/-- Both files are indexed. Then the first is removed and comes back with its tree on another line,
written in another way. A file of no kind is left alone. -/
def comeback : List Call :=
  [.indexFile (pairDisk "<BehaviorTree ID='T'/>") "/a.xml" .tree, .reindex (pairDisk "") "//b.xml",
    .removeFile "/a.xml", .reindex (pairDisk "\n<BehaviorTree ID='T'/>") "/./a.xml",
    .reindex (pairDisk "") "/c.txt"]

theorem recounts_comeback :
    ((registered (.defaults 1) comeback).map Path.normal).toFinset.card ≤ Registry.idCount ∧
      Recounts (new {} (.defaults 1) "/") comeback ∧
      (((new {} (.defaults 1) "/").replay comeback).definitions .tree "T").map Definition.site =
        [("//b.xml", 0, 0), ("/a.xml", 1, 0)] := by
  have hfew : ((registered (.defaults 1) comeback).map Path.normal).toFinset.card ≤ Registry.idCount := by
    decide +kernel
  have h := recounts_replay {} (.defaults 1) "/" comeback hfew
  exact ⟨hfew, h, (h.sites .tree "T").trans (by decide +kernel)⟩

end BehaviorIndex.Workspace
