import BehaviorIndex.Proofs.Data.Layers
import BehaviorIndex.Toml.Document

/-!
# No key twice

Each statement of a document either finds its place in the tree of tables or is refused. It never
gives a table a second entry under a key that the table has.

**Theorem (`distinct_of_parse?`).** No table of a document has a key twice, at any depth.

A statement reaches the table it changes through `Items.update`, which puts the changed table in the
place of the old one (`Items.Distinct.update`). So it is enough that each of the three changes keeps
the keys of one table apart. Tables in braces are built from entries in the same way.
-/

namespace BehaviorIndex.Toml

open Data (Value Entries)

/-- No table in the value has a key twice. -/
inductive Distinct : Value → Prop
  | scalar {v : Value} (hlist : ∀ vs, v ≠ .list vs) (htable : ∀ es, v ≠ .table es) : Distinct v
  | list {vs : List Value} (h : ∀ v ∈ vs, Distinct v) : Distinct (.list vs)
  | table {es : Entries} (hkeys : es.keys.Nodup) (h : ∀ e ∈ es, Distinct e.2) : Distinct (.table es)

namespace Distinct

variable {es : Entries} {key : String} {v : Value}

theorem nodup_keys (h : Distinct (.table es)) : es.keys.Nodup := by
  cases h with
  | scalar _ htable => exact absurd rfl (htable es)
  | table hkeys _ => exact hkeys

theorem of_get? (h : Distinct (.table es)) (hget : es.get? key = some v) : Distinct v := by
  cases h with
  | scalar _ htable => exact absurd rfl (htable es)
  | table _ hes =>
    obtain ⟨before, behind, rfl, -⟩ := List.lookup_eq_some_iff.mp hget
    exact hes (key, v) (by simp)

end Distinct

/-! ## The tree of a document -/

inductive Item.Distinct : Item → Prop
  | value {v : Value} (h : Toml.Distinct v) : Distinct (.value v)
  | table {origin : Origin} {es : Items} (hkeys : (es.map Prod.fst).Nodup)
      (h : ∀ e ∈ es, e.2.Distinct) : Distinct (.table origin es)
  | tables {items : List Item} (h : ∀ item ∈ items, item.Distinct) : Distinct (.tables items)

namespace Items

/-- No table in the items has a key twice. -/
structure Distinct (es : Items) : Prop where
  keys : (es.map Prod.fst).Nodup
  items : ∀ e ∈ es, e.2.Distinct

variable {es es' : Items} {key : String} {item : Item}

theorem distinct_nil : Distinct [] := ⟨List.nodup_nil, by simp⟩

theorem Distinct.toTable (h : es.Distinct) (origin : Origin) : (Item.table origin es).Distinct :=
  .table h.keys h.items

theorem distinct_of_table {origin : Origin} (h : (Item.table origin es).Distinct) :
    es.Distinct := by
  cases h with
  | table hkeys hitems => exact ⟨hkeys, hitems⟩

theorem mem_of_lookup (h : es.lookup key = some item) : (key, item) ∈ es := by
  induction es with
  | nil => cases h
  | cons e es ih =>
    obtain ⟨k, i⟩ := e
    rw [List.lookup_cons] at h
    split at h
    · next hk =>
      cases h
      rw [beq_iff_eq.mp hk]
      exact List.mem_cons_self
    · exact List.mem_cons_of_mem _ (ih h)

theorem Distinct.of_lookup (h : es.Distinct) (hitem : es.lookup key = some item) : item.Distinct :=
  h.items _ (mem_of_lookup hitem)

theorem mem_set {e : String × Item} (h : e ∈ es.set key item) : e = (key, item) ∨ e ∈ es := by
  induction es with
  | nil => exact .inl (List.mem_singleton.mp h)
  | cons e' es ih =>
    obtain ⟨k, old⟩ := e'
    rw [set] at h
    split at h
    · next hk =>
      rw [beq_iff_eq.mp hk] at h
      rcases List.mem_cons.mp h with rfl | h
      · exact .inl rfl
      · exact .inr (List.mem_cons_of_mem _ h)
    · rcases List.mem_cons.mp h with rfl | h
      · exact .inr List.mem_cons_self
      · exact (ih h).imp_right (List.mem_cons_of_mem _)

theorem nodup_set (h : (es.map Prod.fst).Nodup) : ((es.set key item).map Prod.fst).Nodup := by
  induction es with
  | nil => simp [set]
  | cons e es ih =>
    obtain ⟨k, old⟩ := e
    obtain ⟨hk, hes⟩ := List.nodup_cons.mp h
    rw [set]
    split
    · exact h
    · next hne =>
      refine List.nodup_cons.mpr ⟨fun hmem => ?_, ih hes⟩
      obtain ⟨e, he, rfl⟩ := List.mem_map.mp hmem
      rcases mem_set he with rfl | he
      · exact hne (beq_self_eq_true _)
      · exact hk (List.mem_map.mpr ⟨e, he, rfl⟩)

theorem Distinct.set (h : es.Distinct) (hitem : item.Distinct) : (es.set key item).Distinct := by
  refine ⟨nodup_set h.keys, fun e he => ?_⟩
  rcases mem_set he with rfl | he
  · exact hitem
  · exact h.items e he

theorem notMem_of_lookup (h : es.lookup key = none) : key ∉ es.map Prod.fst := by
  induction es with
  | nil => simp
  | cons e es ih =>
    obtain ⟨k, i⟩ := e
    rw [List.lookup_cons] at h
    split at h
    · cases h
    · next hk => simpa [ne_of_beq_false hk] using ih h

theorem Distinct.concat (h : es.Distinct) (hkey : es.lookup key = none) (hitem : item.Distinct) :
    Distinct (es ++ [(key, item)]) := by
  refine ⟨?_, fun e he => ?_⟩
  · rw [List.map_append, List.map_singleton]
    exact List.nodup_append.mpr ⟨h.keys, List.nodup_singleton _, by
      rintro k hk _ hother rfl
      rw [List.mem_singleton.mp hother] at hk
      exact notMem_of_lookup hkey hk⟩
  · rcases List.mem_append.mp he with he | he
    · exact h.items e he
    · cases List.mem_singleton.mp he
      exact hitem

/-- The change keeps the keys of a table apart. -/
def Keeps (change : Origin → Items → Option Items) : Prop :=
  ∀ {origin : Origin} {es es' : Items}, es.Distinct → change origin es = some es' → es'.Distinct

/-- **Nested keys.** A change of one table changes nothing else, so it keeps all keys apart. -/
theorem Keeps.update {change : Origin → Items → Option Items} (hchange : Keeps change)
    (dotted : Bool) (path : List String) : Keeps (update dotted change path) := by
  induction path with
  | nil =>
    intro origin es es' hes h
    exact hchange hes h
  | cons key path ih =>
    intro origin es es' hes h
    rw [Items.update] at h
    split at h
    · obtain ⟨inner, hinner, h⟩ := Option.bind_eq_some_iff.mp h
      cases h
      exact hes.set ((ih distinct_nil hinner).toTable _)
    · next origin' inner hitem =>
      split at h
      · cases h
      · obtain ⟨inner', hinner, h⟩ := Option.bind_eq_some_iff.mp h
        cases h
        exact hes.set ((ih (distinct_of_table (hes.of_lookup hitem)) hinner).toTable _)
    · next items hitem =>
      split at h
      · next origin' inner hlast =>
        obtain ⟨inner', hinner, h⟩ := Option.bind_eq_some_iff.mp h
        cases h
        cases hes.of_lookup hitem with
        | tables hitems =>
          have hmem := List.mem_of_getLast? hlast
          have hinner' := ih (distinct_of_table (hitems _ hmem)) hinner
          refine hes.set (.tables fun item hi => ?_)
          rcases List.mem_append.mp hi with hi | hi
          · exact hitems item (List.dropLast_subset _ hi)
          · cases List.mem_singleton.mp hi
            exact hinner'.toTable _
      · cases h
    · cases h

theorem keeps_insert? (path : List String) (key : String) {v : Value} (hv : Toml.Distinct v) :
    Keeps (insert? path key v) := by
  refine Keeps.update ?_ true path
  intro origin es es' hes h
  simp only at h
  split at h
  · cases h
  · split at h
    · cases h
    · next hkey =>
      cases h
      exact hes.concat (Option.not_isSome_iff_eq_none.mp hkey) (.value hv)

theorem Distinct.define? {path : List String} (hes : es.Distinct)
    (h : define? path key es = some es') : es'.Distinct := by
  refine Keeps.update ?_ false path hes h
  intro origin es es' hes h
  simp only at h
  split at h
  · next hkey =>
    cases h
    exact hes.concat hkey (distinct_nil.toTable _)
  · next hitem =>
    cases h
    exact hes.set ((distinct_of_table (hes.of_lookup hitem)).toTable _)
  · cases h

theorem Distinct.append? {path : List String} (hes : es.Distinct)
    (h : append? path key es = some es') : es'.Distinct := by
  refine Keeps.update ?_ false path hes h
  intro origin es es' hes h
  simp only at h
  split at h
  · next hkey =>
    cases h
    exact hes.concat hkey (.tables (List.forall_mem_singleton.mpr (distinct_nil.toTable _)))
  · next items hitem =>
    cases h
    cases hes.of_lookup hitem with
    | tables hitems =>
      refine hes.set (.tables fun item hi => ?_)
      rcases List.mem_append.mp hi with hi | hi
      · exact hitems item hi
      · cases List.mem_singleton.mp hi
        exact distinct_nil.toTable _
  · cases h

end Items

/-! ## Values -/

theorem entriesValue_eq_map (es : Items) :
    entriesValue es = es.map fun e => (e.1, e.2.toValue) := by
  induction es with
  | nil => rfl
  | cons e es ih => rw [entriesValue, ih, List.map_cons]

theorem itemsValue_eq_map (items : List Item) : itemsValue items = items.map Item.toValue := by
  induction items with
  | nil => rfl
  | cons item items ih => rw [itemsValue, ih, List.map_cons]

theorem keys_entriesValue (es : Items) : Entries.keys (entriesValue es) = es.map Prod.fst := by
  rw [entriesValue_eq_map, Entries.keys, List.map_map]
  rfl

theorem Item.Distinct.toValue {item : Item} (h : item.Distinct) : Toml.Distinct item.toValue := by
  induction h with
  | value h => exact h
  | @table origin es hkeys _ ih =>
    rw [Item.toValue]
    refine .table (by rwa [keys_entriesValue]) fun e he => ?_
    rw [entriesValue_eq_map] at he
    obtain ⟨e', he', rfl⟩ := List.mem_map.mp he
    exact ih e' he'
  | @tables items _ ih =>
    rw [Item.toValue]
    refine .list fun v hv => ?_
    rw [itemsValue_eq_map] at hv
    obtain ⟨item, hitem, rfl⟩ := List.mem_map.mp hv
    exact ih item hitem

theorem Items.Distinct.toValue {es : Items} (h : es.Distinct) :
    Toml.Distinct (.table (entriesValue es)) :=
  (h.toTable .defined).toValue

/-- A fold that may fail keeps what each of its steps keeps. -/
theorem foldlM_keeps {α β : Type} {P : β → Prop} {step : β → α → Option β} {as : List α}
    (hstep : ∀ a ∈ as, ∀ b b', P b → step b a = some b' → P b') {b b' : β} (hb : P b)
    (h : as.foldlM step b = some b') : P b' := by
  induction as generalizing b with
  | nil =>
    cases h
    exact hb
  | cons a as ih =>
    obtain ⟨hfirst, hrest⟩ := List.forall_mem_cons.mp hstep
    rw [List.foldlM_cons] at h
    obtain ⟨mid, hmid, h⟩ := Option.bind_eq_some_iff.mp h
    exact ih hrest (hfirst b mid hb hmid) h

theorem distinct_of_tableOf? {entries : List (List String × Value)} {v : Value}
    (hentries : ∀ e ∈ entries, Distinct e.2) (h : tableOf? entries = some v) : Distinct v := by
  obtain ⟨es, hes, h⟩ := Option.bind_eq_some_iff.mp h
  cases h
  refine Items.Distinct.toValue (foldlM_keeps ?_ Items.distinct_nil hes)
  intro e he es es' hes h
  split at h
  · cases h
  · exact Items.keeps_insert? _ _ (hentries e he) hes h

section

variable {item : List Char → Option (Value × List Char)}
  (hitem : ∀ {cs v rest}, item cs = some (v, rest) → Distinct v)
include hitem

theorem distinct_of_readItems? {rounds : Nat} {cs rest : List Char} {vs : List Value}
    (h : readItems? item rounds cs = some (vs, rest)) : ∀ v ∈ vs, Distinct v := by
  induction rounds generalizing cs vs with
  | zero => cases h
  | succ rounds ih =>
    rw [readItems?] at h
    split at h
    · cases h
      simp
    · obtain ⟨⟨v, behind⟩, hv, h⟩ := Option.bind_eq_some_iff.mp h
      simp only at h
      split at h
      · cases h
        simpa using hitem hv
      · obtain ⟨⟨vs', rest'⟩, hvs, h⟩ := Option.bind_eq_some_iff.mp h
        cases h
        exact List.forall_mem_cons.mpr ⟨hitem hv, ih hvs⟩
      · cases h

theorem distinct_of_entry_read {cs rest : List Char} {e : List String × Value}
    (h : readEntry? item cs = some (e, rest)) : Distinct e.2 := by
  obtain ⟨⟨key, behind⟩, -, h⟩ := Option.bind_eq_some_iff.mp h
  simp only at h
  split at h
  · obtain ⟨⟨v, rest'⟩, hv, h⟩ := Option.bind_eq_some_iff.mp h
    cases h
    exact hitem hv
  · cases h

theorem distinct_of_readEntries? {rounds : Nat} {cs rest : List Char}
    {es : List (List String × Value)} (h : readEntries? item rounds cs = some (es, rest)) :
    ∀ e ∈ es, Distinct e.2 := by
  induction rounds generalizing cs es with
  | zero => cases h
  | succ rounds ih =>
    obtain ⟨⟨e, behind⟩, he, h⟩ := Option.bind_eq_some_iff.mp h
    simp only at h
    split at h
    · cases h
      simpa using distinct_of_entry_read hitem he
    · obtain ⟨⟨es', rest'⟩, hes, h⟩ := Option.bind_eq_some_iff.mp h
      cases h
      exact List.forall_mem_cons.mpr ⟨distinct_of_entry_read hitem he, ih hes⟩
    · cases h

end

theorem distinct_of_readNumber? {cs rest : List Char} {v : Value}
    (h : readNumber? cs = some (v, rest)) : Distinct v := by
  rw [readNumber?] at h
  split at h
  · cases h
    exact .table List.nodup_nil (by simp)
  · split at h
    · cases h
      exact .scalar (by simp) (by simp)
    · obtain ⟨⟨n, rest'⟩, -, h⟩ := Option.map_eq_some_iff.mp h
      cases h
      exact .scalar (by simp) (by simp)

theorem distinct_of_readScalar? {cs rest : List Char} {v : Value}
    (h : readScalar? cs = some (v, rest)) : Distinct v := by
  rw [readScalar?.eq_def] at h
  split at h
  case h_5 => exact distinct_of_readNumber? h
  case h_3 | h_4 =>
    cases h
    exact .scalar (by simp) (by simp)
  all_goals
    obtain ⟨⟨text, rest'⟩, -, h⟩ := Option.map_eq_some_iff.mp h
    cases h
    exact .scalar (by simp) (by simp)

/-- **Values.** No value that is read has a key twice. The induction is on how deep lists and tables
may still be nested. -/
theorem distinct_of_readValue? {depth : Nat} {cs rest : List Char} {v : Value}
    (h : readValue? depth cs = some (v, rest)) : Distinct v := by
  induction depth generalizing cs v rest with
  | zero =>
    rw [readValue?.eq_def] at h
    split at h
    · cases h
    · cases h
    · next hdepth => cases hdepth
    · next hdepth => cases hdepth
    · exact distinct_of_readScalar? h
  | succ depth ih =>
    rw [readValue?.eq_def] at h
    split at h
    · next hdepth => cases hdepth
    · next hdepth => cases hdepth
    · next hdepth =>
      cases hdepth
      obtain ⟨⟨vs, rest'⟩, hvs, h⟩ := Option.bind_eq_some_iff.mp h
      cases h
      exact .list (distinct_of_readItems? (fun h => ih h) hvs)
    · next hdepth =>
      cases hdepth
      split at h
      · cases h
        exact .table List.nodup_nil (by simp)
      · obtain ⟨⟨es, rest'⟩, hes, h⟩ := Option.bind_eq_some_iff.mp h
        obtain ⟨v', hv', h⟩ := Option.bind_eq_some_iff.mp h
        cases h
        exact distinct_of_tableOf? (distinct_of_readEntries? (fun h => ih h) hes) hv'
    · exact distinct_of_readScalar? h

/-! ## Documents -/

/-- The value of an entry has no key twice. -/
def Statement.Distinct : Statement → Prop
  | .entry _ v => Toml.Distinct v
  | _ => True

theorem distinct_of_readStatement? {cs rest : List Char} {s : Statement}
    (h : readStatement? cs = some (s, rest)) : s.Distinct := by
  rw [readStatement?.eq_def] at h
  split at h
  · obtain ⟨⟨key, behind⟩, -, h⟩ := Option.bind_eq_some_iff.mp h
    simp only at h
    split at h
    · cases h
      trivial
    · cases h
  · obtain ⟨⟨key, behind⟩, -, h⟩ := Option.bind_eq_some_iff.mp h
    simp only at h
    split at h
    · cases h
      trivial
    · cases h
  · obtain ⟨⟨⟨key, v⟩, rest'⟩, hentry, h⟩ := Option.bind_eq_some_iff.mp h
    cases h
    exact distinct_of_entry_read (fun h => distinct_of_readValue? h) hentry

theorem distinct_of_readStatements? {rounds : Nat} {cs : List Char} {ss : List Statement}
    (h : readStatements? rounds cs = some ss) : ∀ s ∈ ss, s.Distinct := by
  induction rounds generalizing cs ss with
  | zero =>
    cases cs with
    | nil =>
      cases h
      simp
    | cons c cs => cases h
  | succ rounds ih =>
    rw [readStatements?.eq_def] at h
    split at h
    · cases h
      simp
    · next hrounds => cases hrounds
    · next hrounds _ =>
      cases hrounds
      simp only at h
      split at h
      · obtain ⟨rest, -, h⟩ := Option.bind_eq_some_iff.mp h
        exact ih h
      · obtain ⟨⟨s, behind⟩, hs, h⟩ := Option.bind_eq_some_iff.mp h
        obtain ⟨rest, -, h⟩ := Option.bind_eq_some_iff.mp h
        obtain ⟨ss', hss, h⟩ := Option.bind_eq_some_iff.mp h
        cases h
        exact List.forall_mem_cons.mpr ⟨distinct_of_readStatement? hs, ih hss⟩

/-- **One statement.** It keeps all keys apart. -/
theorem Draft.distinct_of_add? {d d' : Draft} {s : Statement} (hs : s.Distinct)
    (hd : d.items.Distinct) (h : d.add? s = some d') : d'.items.Distinct := by
  cases s with
  | entry key v =>
    obtain ⟨last, -, h⟩ := Option.bind_eq_some_iff.mp h
    obtain ⟨es, hes, h⟩ := Option.bind_eq_some_iff.mp h
    cases h
    exact Items.Keeps.update (Items.keeps_insert? _ _ hs) false _ hd hes
  | table key =>
    obtain ⟨last, -, h⟩ := Option.bind_eq_some_iff.mp h
    obtain ⟨es, hes, h⟩ := Option.bind_eq_some_iff.mp h
    cases h
    exact hd.define? hes
  | next key =>
    obtain ⟨last, -, h⟩ := Option.bind_eq_some_iff.mp h
    obtain ⟨es, hes, h⟩ := Option.bind_eq_some_iff.mp h
    cases h
    exact hd.append? hes

theorem distinct_of_parse? {text : String} {es : Entries} (h : parse? text = some es) :
    Distinct (.table es) := by
  obtain ⟨ss, hss, h⟩ := Option.bind_eq_some_iff.mp h
  obtain ⟨draft, hdraft, h⟩ := Option.bind_eq_some_iff.mp h
  cases h
  have hstatements := distinct_of_readStatements? hss
  have hitems : draft.items.Distinct := by
    refine foldlM_keeps (P := fun d : Draft => d.items.Distinct) ?_ Items.distinct_nil hdraft
    intro s hs d d' hd h
    exact Draft.distinct_of_add? (hstatements s hs) hd h
  exact hitems.toValue

end BehaviorIndex.Toml
