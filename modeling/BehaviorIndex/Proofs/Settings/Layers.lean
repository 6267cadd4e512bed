import BehaviorIndex.Proofs.Settings.Leaves
import BehaviorIndex.Proofs.Toml.Keys
import BehaviorIndex.Settings.Load
import Mathlib.Data.List.Induction

/-!
# Where a setting comes from

Settings have three layers, which are merged before they are decoded. Here the layers are put in
order for one leaf at a time (`resolved?`): a variable that names the leaf comes first, then the
file, then the default. A section that the file writes as a list gives its leaves by their places;
but a variable that names keys of the section makes a table of it, and the list is lost.

**Theorem (`loadFrom_eq_ok_iff`).** If each variable names a leaf, or keys that have nothing to do
with one, and no two variables name the same keys, then loading gives settings exactly if the
numbers are in range, no section is a scalar, and each leaf has the first value in that order. The
number of CPUs is a default like any other.

So no leaf depends on what the layers have for another one, lists are replaced as a whole, and keys
that name no leaf do not count.

**Refutation (`loadFrom_listed`).** The exception for lists is real: a file without the key
`declaration_keyword` changes the word before a declaration.
-/

namespace BehaviorIndex.Settings

open Data (Value Entries Alike overlay overlay_none alike_overlay)

/-! ## The order of the layers -/

/-- The nested keys that variables name. -/
def named (vars : Variables) : List (List String) := vars.filterMap fun x => keysOf? x.1

/-- The value that a variable gives a leaf. -/
def assigned? (vars : Variables) (leaf : Leaf) : Option Value :=
  vars.findSome? fun x => if keysOf? x.1 = some leaf.path then some (valueOf x.2) else none

/-- Some variable names keys in a section. -/
def Touches (vars : Variables) (part : String) : Prop :=
  ∃ keys ∈ named vars, keys.head? = some part

instance (vars : Variables) (part : String) : Decidable (Touches vars part) :=
  inferInstanceAs (Decidable (∃ keys ∈ named vars, keys.head? = some part))

/-- The items of a value that is a list. -/
def itemsOf : Option Value → List Value
  | some (.list vs) => vs
  | _ => []

/-- The value of a leaf in a section that the file writes as a list, unless variables name keys of
the section. -/
def listed? (vars : Variables) (file : Entries) (leaf : Leaf) : Option Value :=
  match leaf.place? with
  | none => none
  | some (part, index) => if Touches vars part then none else (itemsOf (file.get? part))[index]?

/-- The first value of a leaf in the order of the layers. -/
def resolved? (cpus : UInt64) (vars : Variables) (file : Entries) (leaf : Leaf) : Option Value :=
  (assigned? vars leaf).or
    ((file.at? leaf.path).or ((listed? vars file leaf).or (value? (defaults cpus) leaf)))

/-- Each variable names a leaf or keys that have nothing to do with one, and no two variables name
the same keys. -/
structure Separate (vars : Variables) : Prop where
  apart : ∀ keys ∈ named vars, ∀ leaf : Leaf,
    keys = leaf.path ∨ ¬ keys <+: leaf.path ∧ ¬ leaf.path <+: keys
  distinct : (named vars).Nodup

/-- No leaf's nested keys lead on to another leaf. -/
theorem Leaf.eq_of_path_prefix {a b : Leaf} (h : a.path <+: b.path) : a = b := by
  revert h
  cases a <;> cases b <;> decide

/-- Variables that name leaves, each another one. -/
theorem separate_of_leaves {vars : Variables}
    (hleaf : ∀ keys ∈ named vars, ∃ leaf : Leaf, keys = leaf.path)
    (hdistinct : (named vars).Nodup) : Separate vars := by
  refine ⟨fun keys hkeys leaf => ?_, hdistinct⟩
  obtain ⟨own, rfl⟩ := hleaf keys hkeys
  by_cases h : own = leaf
  · exact .inl (congrArg Leaf.path h)
  · exact .inr ⟨fun hpre => h (Leaf.eq_of_path_prefix hpre),
      fun hpre => h (Leaf.eq_of_path_prefix hpre).symm⟩

/-! ## The environment -/

theorem Leaf.path_ne_nil (leaf : Leaf) : leaf.path ≠ [] := by
  simp [path]

/-- Every section has a leaf. -/
theorem exists_path_of_mem_parts {part : String} (h : part ∈ parts) :
    ∃ leaf : Leaf, ∃ key, leaf.path = [part, key] := by
  simp only [parts, List.mem_cons, List.not_mem_nil, or_false] at h
  rcases h with rfl | rfl | rfl | rfl
  · exact ⟨.parallelThreads, _, rfl⟩
  · exact ⟨.entityTag, _, rfl⟩
  · exact ⟨.declarationKeyword, _, rfl⟩
  · exact ⟨.enabled, _, rfl⟩

section

variable {vars : Variables} {name text part : String} {keys : List String}

theorem named_concat :
    named (vars ++ [(name, text)]) = named vars ++ (keysOf? name).toList := by
  rw [named, List.filterMap_append, named]
  cases h : keysOf? name <;> simp [h]

theorem assigned?_concat (leaf : Leaf) :
    assigned? (vars ++ [(name, text)]) leaf = (assigned? vars leaf).or
      (if keysOf? name = some leaf.path then some (valueOf text) else none) := by
  rw [assigned?, List.findSome?_append, assigned?]
  simp

theorem assigned?_eq_none {leaf : Leaf} (h : leaf.path ∉ named vars) :
    assigned? vars leaf = none := by
  rw [assigned?, List.findSome?_eq_none_iff]
  intro x hx
  rw [if_neg]
  exact fun hkeys => h (List.mem_filterMap.mpr ⟨x, hx, hkeys⟩)

theorem environmentEntries_concat :
    environmentEntries (vars ++ [(name, text)]) = match keysOf? name with
      | none => environmentEntries vars
      | some keys => (environmentEntries vars).put keys (valueOf text) := by
  rw [environmentEntries, List.foldl_append]
  rfl

theorem touches_concat (hkeys : keysOf? name = some keys) :
    Touches (vars ++ [(name, text)]) part ↔ Touches vars part ∨ keys.head? = some part := by
  simp only [Touches, named_concat, hkeys, Option.toList_some, List.mem_append,
    List.mem_singleton]
  constructor
  · rintro ⟨own, hown | rfl, hhead⟩
    · exact .inl ⟨own, hown, hhead⟩
    · exact .inr hhead
  · rintro (⟨own, hown, hhead⟩ | hhead)
    · exact ⟨own, .inl hown, hhead⟩
    · exact ⟨keys, .inr rfl, hhead⟩

end

/-- What the entries of an environment have: each leaf what a variable gives it, and a table for
each section that a variable names keys of. -/
structure Collects (vars : Variables) (es : Entries) : Prop where
  nodup : es.keys.Nodup
  leaf : ∀ leaf : Leaf, es.at? leaf.path = assigned? vars leaf
  part : ∀ part ∈ parts, es.get? part = none ∧ ¬ Touches vars part ∨
    ∃ inner : Entries, es.get? part = some (.table inner) ∧ inner.keys.Nodup ∧ Touches vars part

namespace Collects

variable {vars : Variables} {es : Entries} {name text part : String} {keys : List String}

theorem nodup_tableAt (h : Collects vars es) (hpart : part ∈ parts) :
    (es.tableAt part).keys.Nodup := by
  rw [Entries.tableAt]
  obtain ⟨hnone, -⟩ | ⟨inner, htable, hnodup, -⟩ := h.part part hpart
  · rw [hnone]
    exact List.nodup_nil
  · rw [htable]
    exact hnodup

/-- One more variable. -/
theorem put (h : Collects vars es) (hkeys : keysOf? name = some keys)
    (hvars : Separate (vars ++ [(name, text)])) :
    Collects (vars ++ [(name, text)]) (es.put keys (valueOf text)) := by
  have hnamed : named (vars ++ [(name, text)]) = named vars ++ [keys] := by
    rw [named_concat, hkeys, Option.toList_some]
  have hmem : keys ∈ named (vars ++ [(name, text)]) := by simp [hnamed]
  have hnew : keys ∉ named vars := by
    have hdistinct := hvars.distinct
    rw [hnamed, List.nodup_append] at hdistinct
    exact fun hold => hdistinct.2.2 keys hold keys (List.mem_singleton_self keys) rfl
  -- Keys that lead on to a leaf are its own, so there is at least one key.
  obtain ⟨key, rest, rfl⟩ : ∃ key rest, keys = key :: rest := by
    refine List.exists_cons_of_ne_nil fun hnil => ?_
    obtain heq | ⟨hpre, -⟩ := hvars.apart keys hmem .version
    · exact Leaf.path_ne_nil .version (heq ▸ hnil)
    · exact hpre (hnil ▸ List.nil_prefix)
  refine ⟨Entries.nodup_keys_put h.nodup, fun leaf => ?_, fun part hpart => ?_⟩
  · rw [assigned?_concat, hkeys]
    obtain heq | ⟨hpre, hpre'⟩ := hvars.apart _ hmem leaf
    · have hnone : assigned? vars leaf = none := assigned?_eq_none (heq ▸ hnew)
      rw [hnone, if_pos (congrArg some heq), Option.none_or, heq]
      exact Entries.at?_put_self leaf.path_ne_nil (by rw [h.leaf, hnone])
    · have hne : some (key :: rest) ≠ some leaf.path := fun heq =>
        hpre (Option.some.inj heq ▸ List.prefix_refl _)
      rw [if_neg hne, Option.or_none, Entries.at?_put_of_unrelated hpre hpre', h.leaf]
  · rw [touches_concat hkeys, List.head?_cons, Option.some.injEq]
    by_cases hkey : key = part
    · subst hkey
      obtain ⟨leaf, own, hpath⟩ := exists_path_of_mem_parts hpart
      -- The section's key alone would lead on to its leaves.
      obtain ⟨other, rest, rfl⟩ : ∃ other rest', rest = other :: rest' := by
        refine List.exists_cons_of_ne_nil fun hnil => ?_
        obtain heq | ⟨hpre, -⟩ := hvars.apart _ hmem leaf
        · simp [hnil, hpath] at heq
        · simp [hnil, hpath] at hpre
      exact .inr ⟨_, Entries.get?_put_cons, Entries.nodup_keys_put (h.nodup_tableAt hpart),
        .inr rfl⟩
    · rw [Entries.get?_put_of_ne (Ne.symm hkey)]
      simpa [hkey] using h.part part hpart

end Collects

theorem Separate.of_concat {vars : Variables} {name text : String}
    (h : Separate (vars ++ [(name, text)])) : Separate vars := by
  have hnamed : named (vars ++ [(name, text)]) = _ := named_concat
  refine ⟨fun keys hkeys => h.apart keys ?_, ?_⟩
  · rw [hnamed]
    exact List.mem_append_left _ hkeys
  · have hdistinct := h.distinct
    rw [hnamed] at hdistinct
    exact hdistinct.of_append_left

theorem collects_environmentEntries {vars : Variables} (h : Separate vars) :
    Collects vars (environmentEntries vars) := by
  induction vars using List.reverseRecOn with
  | nil =>
    refine ⟨List.nodup_nil, fun leaf => ?_, fun part _ => .inl ⟨rfl, by simp [Touches, named]⟩⟩
    cases leaf <;> rfl
  | append_singleton vars x ih =>
    obtain ⟨name, text⟩ := x
    have hvars := ih h.of_concat
    rw [environmentEntries_concat]
    cases hkeys : keysOf? name with
    | none =>
      have hnamed : named (vars ++ [(name, text)]) = named vars := by simp [named_concat, hkeys]
      refine ⟨hvars.nodup, fun leaf => ?_, fun part hpart => ?_⟩
      · rw [assigned?_concat, hkeys, if_neg (by simp), Option.or_none, hvars.leaf]
      · rw [Touches, hnamed]
        exact hvars.part part hpart
    | some keys => exact hvars.put hkeys h

/-! ## One section -/

section

variable {lower inner : Entries} {key : String} {index : Nat}

/-- A section of the defaults with what the file has on top. -/
theorem alike_section_file (file : Option Value)
    (hfile : ∀ es : Entries, file = some (.table es) → es.keys.Nodup) :
    Alike (((Entries.ofValue? (overlay (some (.table lower)) file)).get? key).or (lower.get? key))
      (((Entries.ofValue? file).get? key).or (lower.get? key)) := by
  cases file with
  | none =>
    rw [overlay_none]
    exact .inl (by simp [Entries.ofValue?, Entries.get?_nil])
  | some v =>
    by_cases hv : ∃ es, v = .table es
    · obtain ⟨es, rfl⟩ := hv
      rw [Data.get?_overlay_table _ (hfile es rfl)]
      refine ((alike_overlay _ _).or_left _).trans (.inl ?_)
      simp [Entries.ofValue?, Option.or_assoc]
    · rw [Data.overlay_of_not_table _ fun es heq => hv ⟨es, heq⟩]
      exact Alike.refl _

theorem bind_item?_of_table {o : Option Value} (h : ∃ es, o = some (.table es)) :
    o.bind (item? key index) = (Entries.ofValue? o).get? key := by
  obtain ⟨es, rfl⟩ := h
  rfl

theorem overlay_some_table (o : Option Value) (upper : Entries) :
    ∃ es, overlay o (some (.table upper)) = some (.table es) := by
  obtain ⟨es, -, h⟩ | ⟨-, h⟩ := Data.overlay_table o upper
  · exact ⟨_, h⟩
  · exact ⟨_, h⟩

/-- A section that no variable names keys of. -/
theorem alike_section_of_none (file : Option Value)
    (hfile : ∀ es : Entries, file = some (.table es) → es.keys.Nodup) :
    Alike (((overlay (some (.table lower)) file).bind (item? key index)).or (lower.get? key))
      (((Entries.ofValue? file).get? key).or ((itemsOf file)[index]?.or (lower.get? key))) := by
  cases file with
  | none =>
    rw [bind_item?_of_table ⟨lower, overlay_none _⟩]
    exact alike_section_file none hfile
  | some v =>
    by_cases hv : ∃ es, v = .table es
    · obtain ⟨es, rfl⟩ := hv
      rw [bind_item?_of_table (overlay_some_table _ es)]
      exact alike_section_file _ hfile
    · rw [Data.overlay_of_not_table _ fun es heq => hv ⟨es, heq⟩]
      refine .inl ?_
      cases v with
      | table es => exact absurd ⟨es, rfl⟩ hv
      | _ => simp [item?, itemsOf, Entries.ofValue?, Entries.get?_nil]

/-- A section that variables name keys of. -/
theorem alike_section_of_table (file : Option Value)
    (hfile : ∀ es : Entries, file = some (.table es) → es.keys.Nodup) (hinner : inner.keys.Nodup) :
    Alike (((overlay (overlay (some (.table lower)) file) (some (.table inner))).bind
        (item? key index)).or (lower.get? key))
      ((inner.get? key).or (((Entries.ofValue? file).get? key).or (lower.get? key))) := by
  rw [bind_item?_of_table (overlay_some_table _ inner), Data.get?_overlay_table _ hinner]
  refine ((alike_overlay _ _).or_left _).trans ?_
  rw [Option.or_assoc]
  exact (alike_section_file file hfile).or_right _

end

/-! ## All layers -/

theorem distinct_of_fileEntries {d : Disk} {p : Path} {file : Entries}
    (h : fileEntries d p = .ok file) : Toml.Distinct (.table file) := by
  rw [fileEntries] at h
  split at h
  · cases h
    exact .table List.nodup_nil (by simp)
  · split at h
    · next hread =>
      cases h
      obtain ⟨text, -, hparse⟩ := Option.bind_eq_some_iff.mp hread
      exact Toml.distinct_of_parse? hparse
    · cases h

section

variable {cpus : UInt64} {vars : Variables} {file environment : Entries}

theorem get?_layered (hfile : file.keys.Nodup) (henv : environment.keys.Nodup) (key : String) :
    (layered cpus file environment).get? key =
      overlay (overlay ((toEntries (defaults cpus)).get? key) (file.get? key))
        (environment.get? key) := by
  rw [layered, Data.get?_mergeEntries henv, Data.get?_mergeEntries hfile]

/-- A section has a table of defaults. -/
theorem exists_get?_toEntries (cpus : UInt64) {part : String} (hpart : part ∈ parts) :
    ∃ es : Entries, (toEntries (defaults cpus)).get? part = some (.table es) := by
  simp only [parts, List.mem_cons, List.not_mem_nil, or_false] at hpart
  rcases hpart with rfl | rfl | rfl | rfl <;> exact ⟨_, rfl⟩

theorem Leaf.part_mem {leaf : Leaf} {part : String} {index : Nat}
    (h : leaf.place? = some (part, index)) : part ∈ parts := by
  cases leaf <;> cases h <;> decide

theorem shaped_none : Shaped none := by
  intro v hv
  cases hv

theorem shaped_table (es : Entries) : Shaped (some (.table es)) := by
  intro v hv
  cases hv
  exact .inl ⟨es, rfl⟩

theorem shaped_overlay_iff (lower : Entries) (upper : Option Value) :
    Shaped (overlay (some (.table lower)) upper) ↔ Shaped upper := by
  cases upper with
  | none =>
    rw [overlay_none]
    exact iff_of_true (shaped_table lower) shaped_none
  | some v =>
    by_cases hv : ∃ es, v = .table es
    · obtain ⟨es, rfl⟩ := hv
      obtain ⟨es', hes⟩ := overlay_some_table (some (.table lower)) es
      rw [hes]
      exact iff_of_true (shaped_table es') (shaped_table es)
    · rw [Data.overlay_of_not_table _ fun es heq => hv ⟨es, heq⟩]

/-- The sections after the merge are tables or lists if the file's are, or variables make tables of
them. -/
theorem shaped_layered_iff (hfile : file.keys.Nodup) (henv : Collects vars environment)
    {part : String} (hpart : part ∈ parts) :
    Shaped ((layered cpus file environment).get? part) ↔
      Touches vars part ∨ Shaped (file.get? part) := by
  obtain ⟨lower, hlower⟩ := exists_get?_toEntries cpus hpart
  rw [get?_layered hfile henv.nodup, hlower]
  obtain ⟨hnone, huntouched⟩ | ⟨inner, htable, -, htouched⟩ := henv.part part hpart
  · rw [hnone, overlay_none, shaped_overlay_iff]
    simp [huntouched]
  · obtain ⟨es, hes⟩ := overlay_some_table (overlay (some (.table lower)) (file.get? part)) inner
    rw [htable, hes]
    exact iff_of_true (shaped_table es) (.inl htouched)

/-- What a leaf gets from the merged layers is what it gets from the first of them that has a value
for it. -/
theorem alike_resolved? (hfile : Toml.Distinct (.table file)) (henv : Collects vars environment)
    (leaf : Leaf) :
    Alike ((found? (layered cpus file environment) leaf).or (value? (defaults cpus) leaf))
      (resolved? cpus vars file leaf) := by
  rw [resolved?, ← henv.leaf, value?]
  cases hplace : leaf.place? with
  | none =>
    have hpath : leaf.path = [leaf.key] := by simp [Leaf.path, hplace]
    simp only [found?, listed?, hplace, hpath, Entries.at?_singleton, Option.none_or]
    rw [get?_layered hfile.nodup_keys henv.nodup]
    generalize (toEntries (defaults cpus)).get? leaf.key = lower
    have hmerged : Alike (overlay (overlay lower (file.get? leaf.key)) (environment.get? leaf.key))
        ((environment.get? leaf.key).or ((file.get? leaf.key).or lower)) :=
      (alike_overlay _ _).trans ((alike_overlay _ _).or_right _)
    simpa [Option.or_assoc] using hmerged.or_left lower
  | some place =>
    obtain ⟨part, index⟩ := place
    have hpart := Leaf.part_mem hplace
    have hpath : leaf.path = [part, leaf.key] := by simp [Leaf.path, hplace]
    have hsection : ∀ es : Entries, file.get? part = some (.table es) → es.keys.Nodup :=
      fun es hes => (hfile.of_get? hes).nodup_keys
    obtain ⟨lower, hlower⟩ := exists_get?_toEntries cpus hpart
    simp only [found?, listed?, hplace, hpath, Entries.at?_cons, Entries.at?_singleton,
      Entries.tableAt, get?_layered hfile.nodup_keys henv.nodup, hlower]
    obtain ⟨hnone, huntouched⟩ | ⟨inner, htable, hinner, htouched⟩ := henv.part part hpart
    · rw [hnone, overlay_none, if_neg huntouched]
      exact alike_section_of_none _ hsection
    · rw [htable, if_pos htouched, Option.none_or]
      exact alike_section_of_table _ hsection hinner

end

/-- No leaf is a table. -/
theorem value?_ne_table (s : Settings) (leaf : Leaf) (es : Entries) :
    s.value? leaf ≠ some (.table es) := by
  rw [value?_eq]
  cases leaf with
  | workspaceRoot => cases s.workspaceRoot.bind SystemPath.text? <;> simp
  | _ => simp [texts]

/-- Where no table is expected, values that are alike do equally well. -/
theorem eq_map_plain_iff {o a b : Option Value} (ho : ∀ es, o ≠ some (.table es))
    (h : Alike a b) : o = a.map plain ↔ o = b.map plain := by
  obtain rfl | ⟨⟨es, rfl⟩, ⟨es', rfl⟩⟩ := h
  · rfl
  · exact iff_of_false (ho es) (ho es')

/-- **Layers.** Settings are loaded if the numbers are in range and no section is a scalar. Then
each leaf has what a variable gives it, or else what the file gives it, or else its default. -/
theorem loadFrom_eq_ok_iff {cpus : UInt64} {d : Disk} {vars : Variables} {p : Path}
    {file : Entries} {s : Settings} (hvars : Separate vars) (hfile : fileEntries d p = .ok file) :
    loadFrom cpus d vars p = .ok s ↔ s.InRange ∧
      (∀ part ∈ parts, Touches vars part ∨ Shaped (file.get? part)) ∧
      ∀ leaf, s.value? leaf = (resolved? cpus vars file leaf).map plain := by
  have hdistinct := distinct_of_fileEntries hfile
  have henv := collects_environmentEntries hvars
  have hload : loadFrom cpus d vars p = .ok s ↔
      ofEntries cpus (layered cpus file (environmentEntries vars)) = .ok s := by
    simp only [loadFrom, hfile]
    cases ofEntries cpus (layered cpus file (environmentEntries vars)) <;> simp
  rw [hload, ofEntries_eq_ok_iff]
  refine and_congr_right fun _ => and_congr ?_ ?_
  · exact forall₂_congr fun part hpart => shaped_layered_iff hdistinct.nodup_keys henv hpart
  · exact forall_congr' fun leaf =>
      eq_map_plain_iff (value?_ne_table s leaf) (alike_resolved? hdistinct henv leaf)

/-! ## A file with lists for sections -/

def mixed : String :=
  "spare = 7\nmarkup = [\"Tree\"]\nnative = [\"struct\"]\n[file_watch]\ndebounce_ms = 50\n"

def mixedDisk : Disk := ⟨.ofList [("/s.toml", Disk.Entry.file mixed.toUTF8)], "/"⟩

def mixedVars : Variables := [("TS_MARKUP__ID_ATTRIBUTE", "name")]

def mixedSettings : Settings :=
  { indexing := .defaults 4, markup := { idAttribute := "name" },
    native := { declarationKeyword := "struct" }, fileWatch := { debounceMs := 50 } }

theorem named_mixedVars : named mixedVars = [Leaf.idAttribute.path] := by decide +kernel

theorem eq_ok_of_toOption {ε α : Type} {x : Except ε α} {a : α} (h : x.toOption = some a) :
    x = .ok a := by
  cases x with
  | error e => cases h
  | ok b => exact congrArg Except.ok (Option.some.inj h)

/-- The file has no table for the word to be in. -/
theorem exists_fileEntries_mixedDisk :
    ∃ file, fileEntries mixedDisk "/s.toml" = .ok file ∧
      file.at? Leaf.declarationKeyword.path = none := by
  have hnone : (fileEntries mixedDisk "/s.toml").toOption.map
      (fun file => (file.at? Leaf.declarationKeyword.path).isNone) = some true := by
    decide +kernel
  obtain ⟨file, hfile, hpath⟩ := Option.map_eq_some_iff.mp hnone
  exact ⟨file, eq_ok_of_toOption hfile, Option.isNone_iff_eq_none.mp hpath⟩

theorem loadFrom_mixedDisk : loadFrom 4 mixedDisk mixedVars "/s.toml" = .ok mixedSettings := by
  have hload : (loadFrom 4 mixedDisk mixedVars "/s.toml").toOption = some mixedSettings := by
    decide +kernel
  exact eq_ok_of_toOption hload

theorem loadFrom_eq_ok_mixed :
    ∃ file, Separate mixedVars ∧ fileEntries mixedDisk "/s.toml" = .ok file ∧
      loadFrom 4 mixedDisk mixedVars "/s.toml" = .ok mixedSettings ∧
      ∀ leaf, mixedSettings.value? leaf = (resolved? 4 mixedVars file leaf).map plain := by
  have hvars : Separate mixedVars := by
    refine separate_of_leaves ?_ ?_
    · rw [named_mixedVars]
      exact fun keys hkeys => ⟨.idAttribute, List.mem_singleton.mp hkeys⟩
    · rw [named_mixedVars]
      exact List.nodup_singleton _
  obtain ⟨file, hfile, -⟩ := exists_fileEntries_mixedDisk
  exact ⟨file, hvars, hfile, loadFrom_mixedDisk,
    ((loadFrom_eq_ok_iff hvars hfile).mp loadFrom_mixedDisk).2.2⟩

/-- **Refutation.** Neither the variable nor a key of the file names the word before a declaration,
and yet it is not the default. -/
theorem loadFrom_listed :
    ∃ file s, named mixedVars = [Leaf.idAttribute.path] ∧
      fileEntries mixedDisk "/s.toml" = .ok file ∧
      loadFrom 4 mixedDisk mixedVars "/s.toml" = .ok s ∧
      s.value? .declarationKeyword ≠
        ((assigned? mixedVars .declarationKeyword).or
          ((file.at? Leaf.declarationKeyword.path).or
            (value? (defaults 4) .declarationKeyword))).map plain := by
  obtain ⟨file, hfile, hpath⟩ := exists_fileEntries_mixedDisk
  refine ⟨file, mixedSettings, named_mixedVars, hfile, loadFrom_mixedDisk, ?_⟩
  have hassigned : assigned? mixedVars .declarationKeyword = none :=
    assigned?_eq_none (by rw [named_mixedVars]; decide)
  rw [hassigned, hpath, value?_eq, value?_eq]
  simp [mixedSettings, defaults, plain]

end BehaviorIndex.Settings
