import BehaviorIndex.Proofs.Data.Layers
import BehaviorIndex.Proofs.Files.Path
import BehaviorIndex.Settings.Decode

/-!
# The settings one by one

A *leaf* is a setting that has no settings inside it. Entries give a leaf a value under its nested
keys, or, if its section is written as a list, at its place in the list (`found?`).

**Theorem (`ofEntries_eq_ok_iff`).** Entries give settings exactly if the numbers are in range, the
root is a text, the sections are tables or lists, and each leaf has the value that is found for it,
or else its default.

So decoding looks at each leaf by itself, and at nothing else. Each decoder accepts exactly the
values that are written for what it gives (`Reads`). Integers come in two kinds, by where they are
read, and the decoders do not tell them apart (`plain`).
-/

namespace BehaviorIndex.Settings

open Data (Value Entries)

/-! ## Leaves -/

inductive Leaf where
  | version
  | workspaceRoot
  | debug
  | parallelThreads
  | treeExtensions
  | nodeExtensions
  | entityTag
  | idAttribute
  | referenceAttributes
  | declarationKeyword
  | enabled
  | debounceMs
  deriving DecidableEq, Repr

namespace Leaf

def key : Leaf → String
  | version => "version"
  | workspaceRoot => "workspace_root"
  | debug => "debug"
  | parallelThreads => "parallel_threads"
  | treeExtensions => "tree_extensions"
  | nodeExtensions => "node_extensions"
  | entityTag => "entity_tag"
  | idAttribute => "id_attribute"
  | referenceAttributes => "reference_attributes"
  | declarationKeyword => "declaration_keyword"
  | enabled => "enabled"
  | debounceMs => "debounce_ms"

/-- The section of a leaf, and its place among the leaves there. -/
def place? : Leaf → Option (String × Nat)
  | version | workspaceRoot | debug => none
  | parallelThreads => some ("indexing", 0)
  | treeExtensions => some ("indexing", 1)
  | nodeExtensions => some ("indexing", 2)
  | entityTag => some ("markup", 0)
  | idAttribute => some ("markup", 1)
  | referenceAttributes => some ("markup", 2)
  | declarationKeyword => some ("native", 0)
  | enabled => some ("file_watch", 0)
  | debounceMs => some ("file_watch", 1)

/-- The nested keys of a leaf. -/
def path (leaf : Leaf) : List String := (leaf.place?.map (·.1)).toList ++ [leaf.key]

theorem forall_iff {P : Leaf → Prop} :
    (∀ leaf, P leaf) ↔
      (P version ∧ P workspaceRoot ∧ P debug) ∧
      (P parallelThreads ∧ P treeExtensions ∧ P nodeExtensions) ∧
      (P entityTag ∧ P idAttribute ∧ P referenceAttributes) ∧ P declarationKeyword ∧
      P enabled ∧ P debounceMs := by
  constructor
  · intro h
    exact ⟨⟨h _, h _, h _⟩, ⟨h _, h _, h _⟩, ⟨h _, h _, h _⟩, h _, h _, h _⟩
  · rintro ⟨⟨_, _, _⟩, ⟨_, _, _⟩, ⟨_, _, _⟩, _, _, _⟩ leaf
    cases leaf <;> assumption

end Leaf

/-- The keys of the sections. -/
def parts : List String := ["indexing", "markup", "native", "file_watch"]

/-- The value of a leaf. -/
def value? (s : Settings) (leaf : Leaf) : Option Value := s.toEntries.at? leaf.path

/-- What a section has for a leaf: under its key, or at its place in a list. -/
def item? (key : String) (index : Nat) : Value → Option Value
  | .table es => Entries.get? es key
  | .list vs => vs[index]?
  | _ => none

/-- What entries have for a leaf. -/
def found? (es : Entries) (leaf : Leaf) : Option Value :=
  match leaf.place? with
  | none => es.get? leaf.key
  | some (part, index) => (es.get? part).bind (item? leaf.key index)

/-- The value can stand for a section. -/
def IsSection (v : Value) : Prop := (∃ es, v = .table es) ∨ ∃ vs, v = .list vs

/-- The numbers fit the types of the settings, and the root is a text. -/
structure InRange (s : Settings) : Prop where
  root : s.hasTextRoot = true
  version : s.version < UInt32.size
  parallelThreads : s.indexing.parallelThreads < UInt64.size
  debounceMs : s.fileWatch.debounceMs < UInt64.size

/-- The value, with an integer that is not negative written as one that may not be. -/
def plain : Value → Value
  | .int (.ofNat n) => .nat n
  | v => v

/-! ## Decoders -/

/-- What a decoder gives for a value that may be missing. -/
def Gives {α : Type} (decode : Value → Decoded α) (default : α) (o : Option Value) (a : α) : Prop :=
  match o with
  | some v => decode v = .ok a
  | none => a = default

section

variable {α β : Type} {decode : Value → Decoded α} {default a : α} {key : String}

theorem bind_eq_ok_iff {x : Decoded α} {f : α → Decoded β} {b : β} :
    (x >>= f) = .ok b ↔ ∃ a, x = .ok a ∧ f a = .ok b := by
  cases x <;> simp [bind, Except.bind]

theorem under_eq_ok_iff {x : Decoded α} : under key x = .ok a ↔ x = .ok a := by
  cases x <;> simp [under]

theorem decodeOr_eq_ok_iff {o : Option Value} :
    decodeOr decode default key o = .ok a ↔ Gives decode default o a := by
  cases o with
  | none => simp [decodeOr, Gives, eq_comm]
  | some v => rw [decodeOr, under_eq_ok_iff, Gives]

theorem decodeKey_eq_ok_iff {es : Entries} :
    decodeKey es decode default key = .ok a ↔ Gives decode default (es.get? key) a :=
  decodeOr_eq_ok_iff

theorem decodeIndex_eq_ok_iff {vs : List Value} {index : Nat} :
    decodeIndex vs decode default index = .ok a ↔ Gives decode default vs[index]? a :=
  decodeOr_eq_ok_iff

end

/-- The decoder accepts exactly the values that are written for what it gives, if that is in
range. -/
structure Reads {α : Type} (decode : Value → Decoded α) (write : α → Value) (Fits : α → Prop) :
    Prop where
  iff : ∀ v a, decode v = .ok a ↔ Fits a ∧ write a = plain v
  plain : ∀ a, Settings.plain (write a) = write a
  injective : ∀ a b, write a = write b → a = b

/-- A leaf has the value that is found for it, or its default. -/
theorem Reads.gives_iff {α : Type} {decode : Value → Decoded α} {write : α → Value}
    {Fits : α → Prop} (h : Reads decode write Fits) {default a : α} (hdefault : Fits default)
    {o : Option Value} :
    Gives decode default o a ↔
      Fits a ∧ some (write a) = (o.or (some (write default))).map Settings.plain := by
  cases o with
  | none =>
    rw [Gives, Option.none_or, Option.map_some, h.plain, Option.some.injEq]
    constructor
    · rintro rfl
      exact ⟨hdefault, rfl⟩
    · exact fun heq => h.injective _ _ heq.2
  | some v => rw [Gives, Option.some_or, Option.map_some, Option.some.injEq, h.iff]

theorem reads_decodeNat (bound : Nat) (expected : String) :
    Reads (decodeNat bound expected) .nat (· < bound) where
  iff v n := by
    cases v with
    | nat m =>
      rw [decodeNat]
      split
      · next hm =>
        simp only [Except.ok.injEq, plain, Value.nat.injEq]
        exact ⟨fun h => ⟨h ▸ hm, h.symm⟩, fun h => h.2.symm⟩
      · next hm =>
        simp only [misfit, plain, Value.nat.injEq, reduceCtorEq, false_iff, not_and]
        rintro hn rfl
        exact hm hn
    | int i =>
      cases i with
      | ofNat m =>
        rw [decodeNat]
        split
        · next hm =>
          have hbound : m < bound := Int.ofNat_lt.mp hm.2
          simp only [Except.ok.injEq, plain, Value.nat.injEq]
          exact ⟨fun h => ⟨h ▸ hbound, h.symm⟩, fun h => h.2.symm⟩
        · next hm =>
          simp only [misfit, plain, Value.nat.injEq, reduceCtorEq, false_iff, not_and]
          rintro hn rfl
          exact hm ⟨Int.natCast_nonneg n, Int.ofNat_lt.mpr hn⟩
      | negSucc m => simp [decodeNat, misfit, plain]
    | _ => simp [decodeNat, misfit, plain]
  plain n := rfl
  injective m n h := by simpa using h

theorem reads_decodeBool : Reads decodeBool .bool fun _ => True where
  iff v b := by
    cases v with
    | bool b' => simp [decodeBool, plain, eq_comm]
    | int i => cases i <;> simp [decodeBool, misfit, plain]
    | _ => simp [decodeBool, misfit, plain]
  plain b := rfl
  injective a b h := by simpa using h

theorem decodeText_eq_ok_iff {expected s : String} {v : Value} :
    decodeText expected v = .ok s ↔ v = .text s := by
  cases v <;> simp [decodeText, misfit]

theorem reads_decodeText (expected : String) : Reads (decodeText expected) .text fun _ => True where
  iff v s := by
    rw [decodeText_eq_ok_iff]
    cases v with
    | int i => cases i <;> simp [plain]
    | _ => simp [plain, eq_comm]
  plain s := rfl
  injective s t h := by simpa using h

theorem decodeItems_eq_ok_iff {index : Nat} {vs : List Value} {ss : List String} :
    decodeItems index vs = .ok ss ↔ ss.map .text = vs := by
  induction vs generalizing index ss with
  | nil => simp [decodeItems, eq_comm]
  | cons v vs ih =>
    simp only [decodeItems, bind_eq_ok_iff, under_eq_ok_iff, decodeText_eq_ok_iff, ih]
    constructor
    · rintro ⟨s, rfl, ss, rfl, h⟩
      cases h
      rfl
    · intro h
      cases ss with
      | nil => cases h
      | cons s ss =>
        cases h
        exact ⟨s, rfl, ss, rfl, rfl⟩

theorem reads_decodeTexts : Reads decodeTexts texts fun _ => True where
  iff v ss := by
    cases v with
    | list vs => simp [decodeTexts, decodeItems_eq_ok_iff, texts, plain]
    | int i => cases i <;> simp [decodeTexts, misfit, plain, texts]
    | _ => simp [decodeTexts, misfit, plain, texts]
  plain ss := rfl
  injective ss ts h := by
    have hmap : ss.map Value.text = ts.map .text := by simpa [texts] using h
    exact (List.map_inj_right fun s t h => by simpa using h).mp hmap

/-- The root of the workspace is a text that may be missing. -/
theorem gives_decodePath?_iff {o : Option Value} {root : Option SystemPath} :
    Gives decodePath? none o root ↔ root.all SystemPath.isText = true ∧
      (root.bind SystemPath.text?).map .text = o.map plain := by
  cases o with
  | none =>
    cases root with
    | none => simp [Gives]
    | some p => simp [Gives, SystemPath.isText, Option.isSome_iff_ne_none]
  | some v =>
    have hiff : decodePath? v = .ok root ↔
        ∃ p, decodeText "path string" v = .ok p ∧ root = some (.ofText p) := by
      rw [decodePath?]
      cases decodeText "path string" v <;> simp [Except.map, eq_comm]
    rw [Gives, hiff, Option.map_some, Option.map_eq_some_iff]
    simp only [(reads_decodeText _).iff, true_and, Option.bind_eq_some_iff,
      SystemPath.text?_eq_some_iff]
    constructor
    · rintro ⟨p, hp, rfl⟩
      have htext := SystemPath.text?_eq_some_iff.mpr (rfl : SystemPath.ofText p = _)
      exact ⟨by simp [SystemPath.isText, htext], p, ⟨_, rfl, rfl⟩, hp⟩
    · rintro ⟨-, p, ⟨_, hroot, rfl⟩, hp⟩
      exact ⟨p, hp, hroot⟩

/-! ## Sections -/

/-- The value, if there is one, can stand for a section. -/
def Shaped (o : Option Value) : Prop := ∀ v ∈ o, IsSection v

/-- A section is read through what it has for each of its leaves, however that is found. -/
theorem gives_decodeSection_iff {α : Type} {name : String} {byKey : Entries → Decoded α}
    {byIndex : List Value → Decoded α} {default a : α}
    (Fields : (String → Nat → Option Value) → Prop)
    (hkey : ∀ es : Entries, byKey es = .ok a ↔ Fields fun key _ => es.get? key)
    (hindex : ∀ vs : List Value, byIndex vs = .ok a ↔ Fields fun _ index => vs[index]?)
    (hnone : a = default ↔ Fields fun _ _ => none) {o : Option Value} :
    Gives (decodeSection name byKey byIndex) default o a ↔
      Shaped o ∧ Fields fun key index => o.bind (item? key index) := by
  match o with
  | none => simpa [Gives, Shaped] using hnone
  | some (.table es) => simpa [Gives, Shaped, IsSection, decodeSection, item?] using hkey es
  | some (.list vs) => simpa [Gives, Shaped, IsSection, decodeSection, item?] using hindex vs
  | some (.text _) | some (.int _) | some (.nat _) | some (.float _) | some (.bool _) =>
    simp [Gives, Shaped, IsSection, decodeSection, misfit]

theorem Indexing.gives_decode_iff {cpus : UInt64} {o : Option Value} {i : Indexing} :
    Gives (Indexing.decode cpus) (.defaults cpus) o i ↔ Shaped o ∧
      Gives decodeSize cpus.toNat (o.bind (item? "parallel_threads" 0)) i.parallelThreads ∧
      Gives decodeTexts ["xml"] (o.bind (item? "tree_extensions" 1)) i.treeExtensions ∧
      Gives decodeTexts ["cpp", "h", "hpp"] (o.bind (item? "node_extensions" 2))
        i.nodeExtensions := by
  obtain ⟨threads, trees, nodes⟩ := i
  refine gives_decodeSection_iff
    (fun get => Gives decodeSize cpus.toNat (get "parallel_threads" 0) threads ∧
      Gives decodeTexts ["xml"] (get "tree_extensions" 1) trees ∧
      Gives decodeTexts ["cpp", "h", "hpp"] (get "node_extensions" 2) nodes) ?_ ?_ ?_
  · intro es
    simp only [bind_eq_ok_iff, decodeKey_eq_ok_iff]
    constructor
    · rintro ⟨nodes, hnodes, threads, hthreads, trees, htrees, h⟩
      cases h
      exact ⟨hthreads, htrees, hnodes⟩
    · rintro ⟨hthreads, htrees, hnodes⟩
      exact ⟨nodes, hnodes, threads, hthreads, trees, htrees, rfl⟩
  · intro vs
    simp only [bind_eq_ok_iff, decodeIndex_eq_ok_iff]
    constructor
    · rintro ⟨threads, hthreads, trees, htrees, nodes, hnodes, h⟩
      cases h
      exact ⟨hthreads, htrees, hnodes⟩
    · rintro ⟨hthreads, htrees, hnodes⟩
      exact ⟨threads, hthreads, trees, htrees, nodes, hnodes, rfl⟩
  · simp [Gives, defaults]

theorem Markup.gives_decode_iff {o : Option Value} {m : Markup} :
    Gives Markup.decode {} o m ↔ Shaped o ∧
      Gives (decodeText "a string") "BehaviorTree" (o.bind (item? "entity_tag" 0)) m.entityTag ∧
      Gives (decodeText "a string") "ID" (o.bind (item? "id_attribute" 1)) m.idAttribute ∧
      Gives decodeTexts ["main_tree_to_execute"] (o.bind (item? "reference_attributes" 2))
        m.referenceAttributes := by
  obtain ⟨tag, name, references⟩ := m
  refine gives_decodeSection_iff
    (fun get => Gives (decodeText "a string") "BehaviorTree" (get "entity_tag" 0) tag ∧
      Gives (decodeText "a string") "ID" (get "id_attribute" 1) name ∧
      Gives decodeTexts ["main_tree_to_execute"] (get "reference_attributes" 2) references) ?_ ?_ ?_
  · intro es
    simp only [bind_eq_ok_iff, decodeKey_eq_ok_iff]
    constructor
    · rintro ⟨tag, htag, name, hname, references, hreferences, h⟩
      cases h
      exact ⟨htag, hname, hreferences⟩
    · rintro ⟨htag, hname, hreferences⟩
      exact ⟨tag, htag, name, hname, references, hreferences, rfl⟩
  · intro vs
    simp only [bind_eq_ok_iff, decodeIndex_eq_ok_iff]
    constructor
    · rintro ⟨tag, htag, name, hname, references, hreferences, h⟩
      cases h
      exact ⟨htag, hname, hreferences⟩
    · rintro ⟨htag, hname, hreferences⟩
      exact ⟨tag, htag, name, hname, references, hreferences, rfl⟩
  · simp [Gives]

theorem Native.gives_decode_iff {o : Option Value} {n : Native} :
    Gives Native.decode {} o n ↔ Shaped o ∧
      Gives (decodeText "a string") "class" (o.bind (item? "declaration_keyword" 0))
        n.declarationKeyword := by
  obtain ⟨keyword⟩ := n
  refine gives_decodeSection_iff
    (fun get => Gives (decodeText "a string") "class" (get "declaration_keyword" 0) keyword)
    ?_ ?_ ?_
  · intro es
    simp only [bind_eq_ok_iff, decodeKey_eq_ok_iff]
    constructor
    · rintro ⟨keyword, hkeyword, h⟩
      cases h
      exact hkeyword
    · exact fun hkeyword => ⟨keyword, hkeyword, rfl⟩
  · intro vs
    simp only [bind_eq_ok_iff, decodeIndex_eq_ok_iff]
    constructor
    · rintro ⟨keyword, hkeyword, h⟩
      cases h
      exact hkeyword
    · exact fun hkeyword => ⟨keyword, hkeyword, rfl⟩
  · simp [Gives]

theorem FileWatch.gives_decode_iff {o : Option Value} {w : FileWatch} :
    Gives FileWatch.decode {} o w ↔ Shaped o ∧
      Gives decodeBool true (o.bind (item? "enabled" 0)) w.enabled ∧
      Gives (decodeNat UInt64.size "u64") 200 (o.bind (item? "debounce_ms" 1)) w.debounceMs := by
  obtain ⟨enabled, debounce⟩ := w
  refine gives_decodeSection_iff
    (fun get => Gives decodeBool true (get "enabled" 0) enabled ∧
      Gives (decodeNat UInt64.size "u64") 200 (get "debounce_ms" 1) debounce) ?_ ?_ ?_
  · intro es
    simp only [bind_eq_ok_iff, decodeKey_eq_ok_iff]
    constructor
    · rintro ⟨debounce, hdebounce, enabled, henabled, h⟩
      cases h
      exact ⟨henabled, hdebounce⟩
    · rintro ⟨henabled, hdebounce⟩
      exact ⟨debounce, hdebounce, enabled, henabled, rfl⟩
  · intro vs
    simp only [bind_eq_ok_iff, decodeIndex_eq_ok_iff]
    constructor
    · rintro ⟨enabled, henabled, debounce, hdebounce, h⟩
      cases h
      exact ⟨henabled, hdebounce⟩
    · rintro ⟨henabled, hdebounce⟩
      exact ⟨enabled, henabled, debounce, hdebounce, rfl⟩
  · simp [Gives]

/-! ## All settings -/

theorem ofEntries_eq_ok_iff_gives {cpus : UInt64} {es : Entries} {s : Settings} :
    ofEntries cpus es = .ok s ↔
      Gives (decodeNat UInt32.size "u32") 1 (es.get? "version") s.version ∧
      Gives decodePath? none (es.get? "workspace_root") s.workspaceRoot ∧
      Gives decodeBool false (es.get? "debug") s.debug ∧
      Gives (Indexing.decode cpus) (.defaults cpus) (es.get? "indexing") s.indexing ∧
      Gives Markup.decode {} (es.get? "markup") s.markup ∧
      Gives Native.decode {} (es.get? "native") s.native ∧
      Gives FileWatch.decode {} (es.get? "file_watch") s.fileWatch := by
  obtain ⟨version, root, debug, indexing, markup, native, watch⟩ := s
  simp only [ofEntries, bind_eq_ok_iff, decodeKey_eq_ok_iff]
  constructor
  · rintro ⟨debug, hdebug, watch, hwatch, indexing, hindexing, markup, hmarkup, native, hnative,
      version, hversion, root, hroot, h⟩
    cases h
    exact ⟨hversion, hroot, hdebug, hindexing, hmarkup, hnative, hwatch⟩
  · rintro ⟨hversion, hroot, hdebug, hindexing, hmarkup, hnative, hwatch⟩
    exact ⟨debug, hdebug, watch, hwatch, indexing, hindexing, markup, hmarkup, native, hnative,
      version, hversion, root, hroot, rfl⟩

theorem value?_eq (s : Settings) (leaf : Leaf) :
    s.value? leaf = match leaf with
      | .version => some (.nat s.version)
      | .workspaceRoot => (s.workspaceRoot.bind SystemPath.text?).map .text
      | .debug => some (.bool s.debug)
      | .parallelThreads => some (.nat s.indexing.parallelThreads)
      | .treeExtensions => some (texts s.indexing.treeExtensions)
      | .nodeExtensions => some (texts s.indexing.nodeExtensions)
      | .entityTag => some (.text s.markup.entityTag)
      | .idAttribute => some (.text s.markup.idAttribute)
      | .referenceAttributes => some (texts s.markup.referenceAttributes)
      | .declarationKeyword => some (.text s.native.declarationKeyword)
      | .enabled => some (.bool s.fileWatch.enabled)
      | .debounceMs => some (.nat s.fileWatch.debounceMs) := by
  obtain ⟨version, root, debug, indexing, markup, native, watch⟩ := s
  simp only [value?, toEntries]
  cases root.bind SystemPath.text? <;> cases leaf <;> rfl

/-- **Decoding.** Each leaf has the value that is found for it, or its default. -/
theorem ofEntries_eq_ok_iff {cpus : UInt64} {es : Entries} {s : Settings} :
    ofEntries cpus es = .ok s ↔ s.InRange ∧ (∀ part ∈ parts, Shaped (es.get? part)) ∧
      ∀ leaf, s.value? leaf = ((found? es leaf).or (value? (defaults cpus) leaf)).map plain := by
  have hversion : ∀ {a : Nat} {o : Option Value}, Gives (decodeNat UInt32.size "u32") 1 o a ↔ _ :=
    fun {_ _} => (reads_decodeNat _ _).gives_iff (by decide)
  have hthreads : ∀ {a : Nat} {o : Option Value}, Gives decodeSize cpus.toNat o a ↔ _ :=
    fun {_ _} => (reads_decodeNat _ _).gives_iff cpus.toNat_lt_size
  have hdebounce : ∀ {a : Nat} {o : Option Value},
      Gives (decodeNat UInt64.size "u64") 200 o a ↔ _ :=
    fun {_ _} => (reads_decodeNat _ _).gives_iff (by decide)
  have hflag : ∀ {default a : Bool} {o : Option Value}, Gives decodeBool default o a ↔ _ :=
    fun {_ _ _} => reads_decodeBool.gives_iff trivial
  have htext : ∀ {default a : String} {o : Option Value},
      Gives (decodeText "a string") default o a ↔ _ :=
    fun {_ _ _} => (reads_decodeText _).gives_iff trivial
  have htexts : ∀ {default a : List String} {o : Option Value}, Gives decodeTexts default o a ↔ _ :=
    fun {_ _ _} => reads_decodeTexts.gives_iff trivial
  have hparts : (∀ part ∈ parts, Shaped (es.get? part)) ↔
      Shaped (es.get? "indexing") ∧ Shaped (es.get? "markup") ∧ Shaped (es.get? "native") ∧
        Shaped (es.get? "file_watch") := by
    simp [parts]
  rw [ofEntries_eq_ok_iff_gives, Leaf.forall_iff, hparts]
  simp only [value?_eq, found?, Leaf.place?, Leaf.key]
  rw [Indexing.gives_decode_iff, Markup.gives_decode_iff, Native.gives_decode_iff,
    FileWatch.gives_decode_iff, gives_decodePath?_iff, hversion, hthreads, hdebounce]
  have hroot : (defaults cpus).workspaceRoot = none := rfl
  simp only [hflag, htext, htexts, true_and, hroot, Option.bind_none, Option.map_none,
    Option.or_none]
  constructor
  · rintro ⟨⟨hv, version⟩, ⟨hr, root⟩, debug, ⟨hindexing, ⟨ht, threads⟩, trees, nodes⟩,
      ⟨hmarkup, tag, name, references⟩, ⟨hnative, keyword⟩, hwatch, enabled, hd, debounce⟩
    exact ⟨⟨hr, hv, ht, hd⟩, ⟨hindexing, hmarkup, hnative, hwatch⟩, ⟨version, root, debug⟩,
      ⟨threads, trees, nodes⟩, ⟨tag, name, references⟩, keyword, enabled, debounce⟩
  · rintro ⟨⟨hr, hv, ht, hd⟩, ⟨hindexing, hmarkup, hnative, hwatch⟩, ⟨version, root, debug⟩,
      ⟨threads, trees, nodes⟩, ⟨tag, name, references⟩, keyword, enabled, debounce⟩
    exact ⟨⟨hv, version⟩, ⟨hr, root⟩, debug, ⟨hindexing, ⟨ht, threads⟩, trees, nodes⟩,
      ⟨hmarkup, tag, name, references⟩, ⟨hnative, keyword⟩, hwatch, enabled, hd, debounce⟩

end BehaviorIndex.Settings
