import BehaviorIndex.Proofs.Files.Writing
import BehaviorIndex.Proofs.Settings.Layers
import BehaviorIndex.Proofs.Toml.Documents

/-!
# Saving and loading

**Theorem (`exists_save_loadFrom`).** Settings whose numbers and root can be written are saved at
every path where a file can be written, and loading them from there gives them back as they were,
if no variable names a setting.

Saving writes all settings as a document (`document`), which is read back
(`Toml.Document.parse?_render`) from the place where it was written
(`Disk.Writable.exists_writeText`). So the file has a value for every leaf of the settings but a
missing root, which has no default either, and nothing is left to the defaults.

**Refutation (`save_strange`).** A root that is no text is not saved.
-/

namespace BehaviorIndex.Settings

open Data (Value Entries)

/-! ## The document -/

/-- The numbers fit the types of the settings and can be written, and so can the root. -/
structure Storable (s : Settings) : Prop where
  root : s.hasTextRoot = true
  version : s.version < UInt32.size
  parallelThreads : s.indexing.parallelThreads < Nat.pow 2 63
  debounceMs : s.fileWatch.debounceMs < Nat.pow 2 63

theorem Storable.inRange {s : Settings} (h : s.Storable) : s.InRange where
  root := h.root
  version := h.version
  parallelThreads := h.parallelThreads.trans (by decide)
  debounceMs := h.debounceMs.trans (by decide)

theorem savable_texts (ss : List String) : Toml.Savable Toml.maxNesting (texts ss) := by
  refine .list fun v hv => ?_
  obtain ⟨s, -, rfl⟩ := List.mem_map.mp hv
  exact .text s

/-- The entries of the outermost table. -/
def topEntries (s : Settings) : Entries :=
  [("version", .nat s.version)] ++
    ((s.workspaceRoot.bind SystemPath.text?).map fun p => ("workspace_root", .text p)).toList ++
    [("debug", .bool s.debug)]

theorem isFlat_topEntries {s : Settings} (h : s.Storable) : Toml.IsFlat s.topEntries := by
  have hversion : Toml.Savable Toml.maxNesting (.nat s.version) :=
    .nat (h.version.trans (by decide))
  rw [topEntries]
  cases s.workspaceRoot.bind SystemPath.text? with
  | none =>
    refine ⟨by simp [Entries.keys], ?_, ?_⟩
    · simp only [Option.map_none, Option.toList_none, List.append_nil, List.singleton_append,
        List.forall_mem_cons]
      decide
    · simpa using ⟨hversion, .bool s.debug⟩
  | some root =>
    refine ⟨by simp [Entries.keys], ?_, ?_⟩
    · simp only [Option.map_some, Option.toList_some, List.cons_append, List.nil_append,
        List.forall_mem_cons]
      decide
    · simpa using ⟨hversion, .text root, .bool s.debug⟩

theorem isFlat_indexing {i : Indexing} (h : i.parallelThreads < Nat.pow 2 63) :
    Toml.IsFlat i.toEntries where
  nodup := by simp [Entries.keys, Indexing.toEntries]
  bare := by
    simp only [Indexing.toEntries, List.forall_mem_cons]
    decide
  savable := by
    simpa [Indexing.toEntries] using ⟨.nat h, savable_texts _, savable_texts _⟩

theorem isFlat_markup (m : Markup) : Toml.IsFlat m.toEntries where
  nodup := by simp [Entries.keys, Markup.toEntries]
  bare := by
    simp only [Markup.toEntries, List.forall_mem_cons]
    decide
  savable := by simpa [Markup.toEntries] using ⟨.text _, .text _, savable_texts _⟩

theorem isFlat_native (n : Native) : Toml.IsFlat n.toEntries where
  nodup := by simp [Entries.keys, Native.toEntries]
  bare := by
    simp only [Native.toEntries, List.forall_mem_cons]
    decide
  savable := by simpa [Native.toEntries] using .text _

theorem isFlat_fileWatch {w : FileWatch} (h : w.debounceMs < Nat.pow 2 63) :
    Toml.IsFlat w.toEntries where
  nodup := by simp [Entries.keys, FileWatch.toEntries]
  bare := by
    simp only [FileWatch.toEntries, List.forall_mem_cons]
    decide
  savable := by simpa [FileWatch.toEntries] using ⟨.bool _, .nat h⟩

/-- Settings as a document. -/
def document (s : Settings) (h : s.Storable) : Toml.Document where
  top := s.topEntries
  sections := [("indexing", s.indexing.toEntries), ("markup", s.markup.toEntries),
    ("native", s.native.toEntries), ("file_watch", s.fileWatch.toEntries)]
  nodup := by
    cases hroot : s.workspaceRoot.bind SystemPath.text? <;> simp [topEntries, Entries.keys, hroot]
  bare := by
    simp only [List.forall_mem_cons]
    decide
  top_flat := isFlat_topEntries h
  flat := by
    simpa using ⟨isFlat_indexing h.parallelThreads, isFlat_markup _, isFlat_native _,
      isFlat_fileWatch h.debounceMs⟩

theorem entries_document {s : Settings} (h : s.Storable) :
    (s.document h).entries = s.toEntries := by
  simp [document, Toml.Document.entries, topEntries, toEntries]

theorem render_eq {s : Settings} (h : s.Storable) : s.render = .ok (Toml.render s.toEntries) := by
  have hwritable := (s.document h).entriesWritable
  rw [entries_document] at hwritable
  rw [render, h.root, if_neg (by decide), if_pos hwritable]

theorem parse?_render_toEntries {s : Settings} (h : s.Storable) :
    Toml.parse? (Toml.render s.toEntries) = some (Toml.entriesAsRead s.toEntries) := by
  have hparse := (s.document h).parse?_render
  rwa [entries_document] at hparse

/-! ## What the file has -/

/-- The file has the values of the settings, as they are read. -/
theorem at?_entriesAsRead (s : Settings) (leaf : Leaf) :
    Entries.at? (Toml.entriesAsRead s.toEntries) leaf.path = (s.value? leaf).map Toml.asRead := by
  rw [value?, Leaf.path]
  cases leaf.place? with
  | none => exact Toml.get?_entriesAsRead _ _
  | some place =>
    simp only [Option.map_some, Option.toList_some, List.singleton_append, Entries.at?_cons,
      Entries.at?_singleton, Toml.tableAt_entriesAsRead, Toml.get?_entriesAsRead]

theorem plain_asRead {s : Settings} {leaf : Leaf} {v : Value} (h : s.value? leaf = some v) :
    plain (Toml.asRead v) = v := by
  have htexts (ss : List String) : plain (Toml.asRead (texts ss)) = texts ss := by
    simp [texts, Toml.asRead, Toml.allAsRead_eq_map, plain]
  rw [value?_eq] at h
  cases leaf with
  | workspaceRoot =>
    obtain ⟨root, -, rfl⟩ := Option.map_eq_some_iff.mp h
    rfl
  | treeExtensions | nodeExtensions | referenceAttributes =>
    cases h
    exact htexts _
  | _ =>
    cases h
    rfl

/-- Only the root can be missing, and it has no default. -/
theorem eq_none_of_value?_eq_none {s : Settings} {leaf : Leaf} (h : s.value? leaf = none) :
    leaf.place? = none ∧ ∀ cpus, value? (defaults cpus) leaf = none := by
  rw [value?_eq] at h
  cases leaf with
  | workspaceRoot => exact ⟨rfl, fun _ => rfl⟩
  | _ => cases h

theorem shaped_get?_entriesAsRead (s : Settings) {part : String} (hpart : part ∈ parts) :
    Shaped (Entries.get? (Toml.entriesAsRead s.toEntries) part) := by
  have htable : ∃ es, s.toEntries.get? part = some (.table es) := by
    simp only [parts, List.mem_cons, List.not_mem_nil, or_false] at hpart
    rw [toEntries]
    cases s.workspaceRoot.bind SystemPath.text? <;>
      rcases hpart with rfl | rfl | rfl | rfl <;>
      exact ⟨_, rfl⟩
  obtain ⟨es, hes⟩ := htable
  rw [Toml.get?_entriesAsRead, hes]
  exact shaped_table _

theorem ofEntries_entriesAsRead (cpus : UInt64) {s : Settings} {vars : Variables} (hs : s.Storable)
    (hvars : ∀ x ∈ vars, keysOf? x.1 = none)
    (hdistinct : Toml.Distinct (.table (Toml.entriesAsRead s.toEntries))) :
    ofEntries cpus (layered cpus (Toml.entriesAsRead s.toEntries) (environmentEntries vars)) =
      .ok s := by
  have hnamed : named vars = [] := List.filterMap_eq_nil_iff.mpr hvars
  have hseparate : Separate vars := by
    refine ⟨fun keys hkeys => ?_, by simp [hnamed]⟩
    simp [hnamed] at hkeys
  have henv := collects_environmentEntries hseparate
  rw [ofEntries_eq_ok_iff]
  refine ⟨hs.inRange, fun part hpart => ?_, fun leaf => ?_⟩
  · exact (shaped_layered_iff hdistinct.nodup_keys henv hpart).mpr
      (.inr (shaped_get?_entriesAsRead s hpart))
  · rw [eq_map_plain_iff (value?_ne_table s leaf) (alike_resolved? hdistinct henv leaf), resolved?,
      assigned?_eq_none (by simp [hnamed]), at?_entriesAsRead, Option.none_or]
    cases hvalue : s.value? leaf with
    | none =>
      obtain ⟨hplace, hdefault⟩ := eq_none_of_value?_eq_none hvalue
      simp [listed?, hplace, hdefault]
    | some v => simp [plain_asRead hvalue]

/-! ## The place of the file -/

/-- A file that is found under every path to its place is the one that is looked for: a relative
path is tried in the current directory before those above it. -/
theorem exists_locateFile? {d : Disk} {p : Path} (hcurrent : d.current.isAbsolute = true)
    (hp : Disk.asksForDirectory p = false)
    (hfile : ∀ q, Disk.asksForDirectory q = false →
      (d.current.join q).names = (d.current.join p).names → d.isFile q = true) :
    ∃ q, locateFile? d p = some q ∧ Disk.asksForDirectory q = false ∧
      (d.current.join q).names = (d.current.join p).names := by
  cases habs : p.isAbsolute with
  | true => exact ⟨p, by rw [locateFile?, if_pos habs, if_pos (hfile p hp rfl)], hp, rfl⟩
  | false =>
    obtain ⟨hnames, hnormal⟩ := d.current.names_normal
    rw [hcurrent] at hnormal
    have hne : d.current.normal ≠ "" := by
      intro heq
      rw [heq] at hnormal
      exact absurd hnormal (by decide)
    have hasks : Disk.asksForDirectory (d.current.normal.join p) = false := by
      rw [Disk.asksForDirectory_join hne habs, hp]
    have hjoin : (d.current.join (d.current.normal.join p)).names = (d.current.join p).names := by
      rw [Path.join, if_pos (Path.isAbsolute_join hnormal p), Path.names_join habs, hnames,
        Path.names_join habs]
    have hcomponents : d.current.components ≠ [] := by
      rw [Path.components, if_pos hcurrent]
      exact List.cons_ne_nil _ _
    obtain ⟨above, habove⟩ := List.head?_eq_some_iff.mp (Path.head?_ancestors hcomponents)
    refine ⟨d.current.normal.join p, ?_, hasks, hjoin⟩
    rw [locateFile?, if_neg (by simp [habs]), habove, List.map_cons,
      List.find?_cons_of_pos (hfile _ hasks hjoin)]

/-- **Saving and loading.** Saved settings are loaded again as they were. -/
theorem exists_save_loadFrom {cpus : UInt64} {d : Disk} {s : Settings} {p : Path} {vars : Variables}
    (hcurrent : d.current.isAbsolute = true) (hp : d.Writable p) (hs : s.Storable)
    (hvars : ∀ x ∈ vars, keysOf? x.1 = none) :
    ∃ d', save d s p = .ok d' ∧ loadFrom cpus d' vars p = .ok s := by
  obtain ⟨parent, d₁, d₂, hparent, hmake, hwrite, hsame, hread⟩ :=
    hp.exists_writeText (Toml.render s.toEntries)
  have hsave : save d s p = .ok d₂ := by
    unfold save
    simp only [hparent, hmake, render_eq hs, hwrite]
  rw [← hsame] at hcurrent hread
  obtain ⟨q, hlocate, hq, hnames⟩ :=
    exists_locateFile? hcurrent hp.asks fun q hq hnames => (hread q hq hnames).1
  have hfile : fileEntries d₂ p = .ok (Toml.entriesAsRead s.toEntries) := by
    simp only [fileEntries, hlocate, (hread q hq hnames).2, Except.toOption, Option.bind_some,
      parse?_render_toEntries hs]
  have hload := ofEntries_entriesAsRead cpus hs hvars (distinct_of_fileEntries hfile)
  exact ⟨d₂, hsave, by simp only [loadFrom, hfile, hload]⟩

/-! ### Settings that are hard to write -/

def unusual : Settings where
  version := 4294967295
  workspaceRoot := some (.ofText "/home/\"a\\b\"\n")
  debug := true
  indexing := { parallelThreads := 9223372036854775807, treeExtensions := [],
                nodeExtensions := ["h", "'''", ""] }
  markup := { entityTag := "\"\"\"\n'''", idAttribute := "\x00\t\x7f é",
              referenceAttributes := ["a\r\nb"] }
  native := { declarationKeyword := "" }
  fileWatch := { enabled := false, debounceMs := 0 }

def workDisk : Disk := ⟨.ofList [("/work", Disk.Entry.directory)], "/work"⟩

def foreignVars : Variables := [("PATH", "/bin"), ("TSX", "1")]

theorem exists_save_loadFrom_unusual :
    workDisk.current.isAbsolute = true ∧ workDisk.Writable ".treesense/settings.toml" ∧
      unusual.Storable ∧ (∀ x ∈ foreignVars, keysOf? x.1 = none) ∧
      ∃ d, save workDisk unusual ".treesense/settings.toml" = .ok d ∧
        loadFrom 4 d foreignVars ".treesense/settings.toml" = .ok unusual := by
  have hcurrent : workDisk.current.isAbsolute = true := by decide
  have hwritable : workDisk.Writable ".treesense/settings.toml" := by decide +kernel
  have hstorable : unusual.Storable :=
    ⟨by decide +kernel, by decide, by decide, by decide⟩
  have hvars : ∀ x ∈ foreignVars, keysOf? x.1 = none := by decide +kernel
  exact ⟨hcurrent, hwritable, hstorable, hvars,
    exists_save_loadFrom hcurrent hwritable hstorable hvars⟩

/-! ### A root that is no text -/

/-- Settings with the bytes of a path that are those of no text. -/
def strange : Settings := { indexing := .defaults 4, workspaceRoot := some ⟨⟨#[0x2f, 0xff]⟩⟩ }

/-- **Refutation.** The numbers can be written, and so can a file at the path, but the settings
cannot. -/
theorem save_strange :
    workDisk.Writable ".treesense/settings.toml" ∧
      strange.version < UInt32.size ∧ strange.indexing.parallelThreads < Nat.pow 2 63 ∧
      strange.fileWatch.debounceMs < Nat.pow 2 63 ∧
      save workDisk strange ".treesense/settings.toml" = .error .notText := by
  have hwritable : workDisk.Writable ".treesense/settings.toml" := by decide +kernel
  have hrender : strange.render = .error .notText := by
    have hroot : strange.hasTextRoot = false := by decide +kernel
    rw [render, hroot]
    rfl
  refine ⟨hwritable, by decide, by decide, by decide, ?_⟩
  obtain ⟨parent, d, hparent, hmake, -⟩ := hwritable.exists_makeDirectories
  unfold save
  simp only [hparent, hmake, hrender]

end BehaviorIndex.Settings
