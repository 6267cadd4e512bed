import BehaviorIndex.Data.Value
import Mathlib.Data.List.Nodup

/-!
# One layer on top of another

`mergeEntries` goes through the upper layer and puts its entries into the lower one. If the upper
layer has no key twice, then the entries do not get into each other's way, and what becomes of a key
is told by the two values that it has (`overlay`).

**Theorem (`get?_mergeEntries`).** Merging acts on each key by itself.

**Theorems (`at?_put_self`, `at?_put_of_unrelated`).** Merging a value under nested keys sets what
these keys lead to, and nothing else.

Two tables under a key become a third one, and any other value replaces the lower one as a whole. So
for a reader who expects no table, the upper value counts if there is one, and else the lower one
(`alike_overlay`).
-/

namespace BehaviorIndex.Data

/-! ## Keys -/

namespace Entries

def keys (es : Entries) : List String := es.map Prod.fst

/-- The entries of a value that is a table. -/
def ofValue? : Option Value → Entries
  | some (.table es) => es
  | _ => []

/-- The table under a key, or an empty one. -/
def tableAt (es : Entries) (key : String) : Entries := ofValue? (es.get? key)

section

variable {es : Entries} {key other : String} {v : Value}

theorem get?_nil : Entries.get? [] key = none := rfl

theorem get?_cons_self : Entries.get? ((key, v) :: es) key = some v := by
  simp [get?]

theorem get?_cons_of_ne (h : key ≠ other) : Entries.get? ((other, v) :: es) key = es.get? key := by
  rw [get?, List.lookup_cons, beq_false_of_ne h, get?]

theorem get?_set_self : (es.set key v).get? key = some v := by
  induction es with
  | nil => exact get?_cons_self
  | cons e es ih =>
    obtain ⟨k, old⟩ := e
    rw [set]
    split
    · next hk =>
      rw [beq_iff_eq.mp hk]
      exact get?_cons_self
    · next hk =>
      have hne : key ≠ k := fun heq => hk (by simp [heq])
      rw [get?_cons_of_ne hne, ih]

theorem get?_set_of_ne (h : other ≠ key) : (es.set key v).get? other = es.get? other := by
  induction es with
  | nil => exact get?_cons_of_ne h
  | cons e es ih =>
    obtain ⟨k, old⟩ := e
    rw [set]
    split
    · next hk =>
      rw [beq_iff_eq.mp hk, get?_cons_of_ne h, get?_cons_of_ne h]
    · by_cases hother : other = k
      · rw [hother, get?_cons_self, get?_cons_self]
      · rw [get?_cons_of_ne hother, get?_cons_of_ne hother, ih]

theorem get?_eq_none_iff : es.get? key = none ↔ key ∉ es.keys := by
  induction es with
  | nil => simp [get?_nil, keys]
  | cons e es ih =>
    obtain ⟨k, old⟩ := e
    by_cases hk : key = k
    · simp [hk, get?_cons_self, keys]
    · rw [get?_cons_of_ne hk, ih]
      simp [keys, hk]

theorem mem_keys_set : other ∈ (es.set key v).keys ↔ other = key ∨ other ∈ es.keys := by
  rw [← not_iff_not, not_or, ← get?_eq_none_iff, ← get?_eq_none_iff]
  by_cases h : other = key
  · simp [h, get?_set_self]
  · simp [h, get?_set_of_ne]

theorem nodup_keys_set (h : es.keys.Nodup) : (es.set key v).keys.Nodup := by
  induction es with
  | nil => simp [set, keys]
  | cons e es ih =>
    obtain ⟨k, old⟩ := e
    obtain ⟨hk, hes⟩ := List.nodup_cons.mp h
    rw [set]
    split
    · exact h
    · next hne =>
      refine List.nodup_cons.mpr ⟨fun hmem => ?_, ih hes⟩
      rcases mem_keys_set.mp hmem with rfl | hmem
      · exact hne (beq_self_eq_true _)
      · exact hk hmem

theorem at?_singleton : es.at? [key] = es.get? key := by rw [at?]

/-- Nested keys lead through the table under the first one. -/
theorem at?_cons (path : List String) :
    es.at? (key :: other :: path) = (es.tableAt key).at? (other :: path) := by
  have hnil : Entries.at? [] (other :: path) = none := by
    cases path <;> rfl
  rw [at?, tableAt]
  · split
    · next h => rw [h, ofValue?]
    · next h =>
      rw [ofValue?]
      · exact hnil.symm
      · exact h
  · simp

end

end Entries

/-! ## Merging -/

/-- What a key has after a merge, by what it has in each layer. -/
def overlay (lower upper : Option Value) : Option Value :=
  match upper, lower with
  | none, lower => lower
  | some v, some old => some (old.merge v)
  | some v, none => some v

section

variable {lower upper : Entries} {key : String} {v : Value}

theorem overlay_none (lower : Option Value) : overlay lower none = lower := by
  cases lower <;> rfl

theorem overlay_of_none (upper : Option Value) : overlay none upper = upper := by
  cases upper <;> rfl

theorem nodup_keys_mergeEntries (h : lower.keys.Nodup) : (mergeEntries lower upper).keys.Nodup := by
  induction upper generalizing lower with
  | nil =>
    rw [mergeEntries]
    exact h
  | cons e upper ih =>
    obtain ⟨k, v⟩ := e
    rw [mergeEntries]
    exact ih (Entries.nodup_keys_set h)

/-- **Merging.** What a key has depends on its values in the two layers alone. -/
theorem get?_mergeEntries (h : upper.keys.Nodup) :
    (mergeEntries lower upper).get? key = overlay (lower.get? key) (upper.get? key) := by
  induction upper generalizing lower with
  | nil =>
    rw [mergeEntries, Entries.get?_nil, overlay_none]
  | cons e upper ih =>
    obtain ⟨k, v⟩ := e
    obtain ⟨hk, hupper⟩ := List.nodup_cons.mp h
    rw [mergeEntries, ih hupper]
    by_cases heq : key = k
    · subst heq
      rw [Entries.get?_eq_none_iff.mpr hk, overlay_none, Entries.get?_set_self,
        Entries.get?_cons_self]
      cases lower.get? key <;> rfl
    · rw [Entries.get?_set_of_ne heq, Entries.get?_cons_of_ne heq]

/-- A table on top of anything is a table, and it has the keys of the lower one if that is a table
too. -/
theorem overlay_table (lower : Option Value) (upper : Entries) :
    (∃ es, lower = some (.table es) ∧
      overlay lower (some (.table upper)) = some (.table (mergeEntries es upper))) ∨
    Entries.ofValue? lower = [] ∧ overlay lower (some (.table upper)) = some (.table upper) := by
  by_cases h : ∃ es, lower = some (.table es)
  · obtain ⟨es, rfl⟩ := h
    exact .inl ⟨es, rfl, by rw [overlay, Value.merge]⟩
  · refine .inr ⟨?_, ?_⟩
    · rw [Entries.ofValue?]
      exact fun es heq => h ⟨es, heq⟩
    · cases lower with
      | none => rfl
      | some old =>
        rw [overlay, Value.merge]
        exact fun es heq => h ⟨es, congrArg some heq⟩

theorem get?_overlay_table (lower : Option Value) (h : upper.keys.Nodup) :
    (Entries.ofValue? (overlay lower (some (.table upper)))).get? key =
      overlay ((Entries.ofValue? lower).get? key) (upper.get? key) := by
  obtain ⟨es, rfl, hmerge⟩ | ⟨hlower, hmerge⟩ := overlay_table lower upper
  · rw [hmerge]
    exact get?_mergeEntries h
  · rw [hmerge, hlower, Entries.get?_nil, overlay_of_none]
    rfl

/-- A value other than a table replaces the lower one. -/
theorem overlay_of_not_table (lower : Option Value) (h : ∀ es, v ≠ .table es) :
    overlay lower (some v) = some v := by
  cases lower with
  | none => rfl
  | some old =>
    rw [overlay, Value.merge]
    exact h

end

/-! ## Without tables -/

/-- The values are the same, unless both are tables. -/
def Alike (a b : Option Value) : Prop :=
  a = b ∨ (∃ es, a = some (.table es)) ∧ ∃ es, b = some (.table es)

namespace Alike

variable {a b c : Option Value}

theorem refl (a : Option Value) : Alike a a := .inl rfl

theorem trans (h : Alike a b) (h' : Alike b c) : Alike a c := by
  obtain rfl | ⟨ha, hb⟩ := h
  · exact h'
  · obtain rfl | ⟨-, hc⟩ := h'
    · exact .inr ⟨ha, hb⟩
    · exact .inr ⟨ha, hc⟩

theorem or_right (u : Option Value) (h : Alike a b) : Alike (u.or a) (u.or b) := by
  cases u with
  | none => simpa using h
  | some v => exact .inl rfl

/-- A table and a missing value do not count as alike, so what stands in for a missing value does
not matter. -/
theorem or_left (h : Alike a b) (u : Option Value) : Alike (a.or u) (b.or u) := by
  obtain rfl | ⟨⟨es, rfl⟩, ⟨es', rfl⟩⟩ := h
  · exact refl _
  · exact .inr ⟨⟨es, rfl⟩, ⟨es', rfl⟩⟩

end Alike

theorem alike_overlay (lower upper : Option Value) :
    Alike (overlay lower upper) (upper.or lower) := by
  cases upper with
  | none => exact .inl (overlay_none lower)
  | some v =>
    by_cases hv : ∃ es, v = .table es
    · obtain ⟨es, rfl⟩ := hv
      obtain ⟨_, _, hmerge⟩ | ⟨_, hmerge⟩ := overlay_table lower es
      · exact .inr ⟨⟨_, hmerge⟩, ⟨es, rfl⟩⟩
      · exact .inr ⟨⟨_, hmerge⟩, ⟨es, rfl⟩⟩
    · exact .inl (overlay_of_not_table lower fun es heq => hv ⟨es, heq⟩)

/-! ## Under nested keys -/

namespace Entries

/-- The entries with a value merged into them under nested keys. -/
def put (es : Entries) (keys : List String) (v : Value) : Entries :=
  match nest keys v with
  | .table inner => mergeEntries es inner
  | _ => es

section

variable {es : Entries} {key other : String} {keys path : List String} {v : Value}

theorem put_cons : es.put (key :: keys) v = mergeEntries es [(key, nest keys v)] := rfl

theorem nodup_keys_singleton : (Entries.keys [(key, v)]).Nodup := List.nodup_singleton key

theorem get?_put_self :
    (es.put (key :: keys) v).get? key = overlay (es.get? key) (some (nest keys v)) := by
  rw [put_cons, get?_mergeEntries nodup_keys_singleton, get?_cons_self]

theorem get?_put_of_ne (h : other ≠ key) : (es.put (key :: keys) v).get? other = es.get? other := by
  rw [put_cons, get?_mergeEntries nodup_keys_singleton, get?_cons_of_ne h, get?_nil, overlay_none]

theorem nodup_keys_put (h : es.keys.Nodup) : (es.put (key :: keys) v).keys.Nodup := by
  rw [put_cons]
  exact nodup_keys_mergeEntries h

/-- The table under the first of several keys is put into, or made. -/
theorem get?_put_cons :
    (es.put (key :: other :: keys) v).get? key =
      some (.table ((es.tableAt key).put (other :: keys) v)) := by
  have hnest : nest (other :: keys) v = .table [(other, nest keys v)] := rfl
  rw [get?_put_self, hnest, put_cons, tableAt]
  obtain ⟨inner, hinner, hmerge⟩ | ⟨hinner, hmerge⟩ :=
    overlay_table (es.get? key) [(other, nest keys v)]
  · rw [hmerge, hinner, ofValue?]
  · rw [hmerge, hinner]
    rfl

theorem tableAt_put_cons :
    (es.put (key :: other :: keys) v).tableAt key = (es.tableAt key).put (other :: keys) v := by
  rw [tableAt, get?_put_cons, ofValue?]

theorem tableAt_put_of_ne (h : other ≠ key) :
    (es.put (key :: keys) v).tableAt other = es.tableAt other := by
  rw [tableAt, get?_put_of_ne h, tableAt]

end

/-- What was put under nested keys where nothing was before. -/
theorem at?_put_self {es : Entries} {keys : List String} {v : Value} (hne : keys ≠ [])
    (h : es.at? keys = none) : (es.put keys v).at? keys = some v := by
  induction keys generalizing es with
  | nil => exact absurd rfl hne
  | cons key keys ih =>
    cases keys with
    | nil =>
      rw [at?_singleton] at h ⊢
      rw [get?_put_self, h, overlay_of_none]
      rfl
    | cons other keys =>
      rw [at?_cons] at h ⊢
      rw [tableAt_put_cons]
      exact ih (by simp) h

/-- Keys neither of which leads on to the other do not touch. -/
theorem at?_put_of_unrelated {es : Entries} {keys path : List String} {v : Value}
    (h : ¬ keys <+: path) (h' : ¬ path <+: keys) : (es.put keys v).at? path = es.at? path := by
  induction keys generalizing es path with
  | nil => exact absurd (List.nil_prefix) h
  | cons key keys ih =>
    cases path with
    | nil => exact absurd (List.nil_prefix) h'
    | cons first path =>
      by_cases hfirst : first = key
      · subst hfirst
        have hrest : ¬ keys <+: path := fun hkeys => h (List.cons_prefix_cons.mpr ⟨rfl, hkeys⟩)
        have hrest' : ¬ path <+: keys := fun hpath => h' (List.cons_prefix_cons.mpr ⟨rfl, hpath⟩)
        cases keys with
        | nil => exact absurd List.nil_prefix hrest
        | cons other keys =>
          cases path with
          | nil => exact absurd List.nil_prefix hrest'
          | cons second path => rw [at?_cons, at?_cons, tableAt_put_cons, ih hrest hrest']
      · cases path with
        | nil => rw [at?_singleton, at?_singleton, get?_put_of_ne hfirst]
        | cons second path => rw [at?_cons, at?_cons, tableAt_put_of_ne hfirst]

end Entries

end BehaviorIndex.Data
