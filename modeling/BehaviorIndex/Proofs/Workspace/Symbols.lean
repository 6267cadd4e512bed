import BehaviorIndex.Proofs.Markup.Grouping
import BehaviorIndex.Proofs.Markup.Sources
import BehaviorIndex.Proofs.Text.Offsets
import BehaviorIndex.Workspace.Query

/-!
# The entities of a file, and where they stand

A query for the entities of a file compares two things: the tree, which knows the entities but not
their places, and the raw text, which is searched for the way an entity's start tag usually begins.
The search knows nothing of comments or nesting, so it may find another place than that of the
entity. It never finds a later one: if the start tag of the entity is written in the usual way, the
search ends there or before, and the tags of the entity's children are still to come.

**Theorem (`entities_reports`).** For every file that can be read and every workspace,

* a text that is no document gives its error and changes nothing;
* otherwise the symbols describe, in the order of the tree, the entities whose usual beginning
  occurs in the text (`Reports`). The range of a symbol is within the text and goes from the first
  such place to the end of the first end tag behind it, and its children are those of the entity
  whose tag begins somewhere behind the start of the range (`Describes`).
-/

namespace BehaviorIndex.Markup

open BehaviorIndex.Text

/-! ## Ranges -/

/-- The range goes from the first `opening` in the text to the end of the first `closing` at or
after it, and is empty if there is none. -/
structure Spans (opening closing text : List Char) (r : TextRange) : Prop where
  start : IsLeast (offsetsFrom opening text 0) r.start
  stop : (∃ offset, IsLeast (offsetsFrom closing text r.start) offset ∧
      r.stop = offset + byteSize closing) ∨
    offsetsFrom closing text r.start = ∅ ∧ r.stop = r.start
  start_le_stop : r.start ≤ r.stop
  stop_le : r.stop ≤ byteSize text
  length : r.start + r.length = r.stop

theorem rangeOf?_spans {opening closing text : String} {r : TextRange}
    (h : rangeOf? opening closing text = some r) :
    Spans opening.toList closing.toList text.toList r := by
  obtain ⟨⟨before, rest⟩, hbreak, h⟩ := Option.map_eq_some_iff.mp h
  have htext := breakOn_eq_append hbreak
  have hstart : IsLeast (offsetsFrom opening.toList text.toList 0) (byteSize before) := by
    simpa [byteSize] using isLeast_of_breakOn hbreak []
  have hbefore := byteSize_le_byteSize (htext ▸ List.prefix_append before rest)
  simp only at h
  split at h
  · next inner behind hclose =>
    subst h
    have hleast := isLeast_of_breakOn hclose before
    rw [← htext] at hleast
    refine ⟨hstart, .inl ⟨_, hleast, rfl⟩, ?_, add_byteSize_le_of_mem_offsetsFrom hleast.1, ?_⟩
    · simp only
      omega
    · simp only [TextRange.length]
      omega
  · next hclose =>
    subst h
    have hnone := offsetsFrom_eq_empty hclose before
    rw [← htext] at hnone
    exact ⟨hstart, .inr ⟨hnone, rfl⟩, Nat.le_refl _, hbefore, by simp [TextRange.length]⟩

theorem isSome_rangeOf?_iff {opening text : String} (closing : String) :
    (rangeOf? opening closing text).isSome ↔ opening.toList <:+: text.toList := by
  rw [rangeOf?, Option.isSome_map, ← contains_iff]
  rfl

/-- The places of a tag are looked for behind a beginning of the text. -/
theorem tagOffset?_eq_some {tag text : String} {front rest : List Char} {offset : Nat}
    (htext : text.toList = front ++ rest) (h : tagOffset? tag text (byteSize front) = some offset) :
    IsLeast (offsetsFrom ('<' :: tag.toList) text.toList (byteSize front)) offset := by
  rw [tagOffset?, htext, dropBytes_byteSize, offsetOf?, Option.map_map] at h
  obtain ⟨⟨before, behind⟩, hbreak, rfl⟩ := Option.map_eq_some_iff.mp h
  rw [htext]
  exact isLeast_of_breakOn hbreak front

theorem isSome_tagOffset?_iff {tag text : String} {front rest : List Char}
    (htext : text.toList = front ++ rest) :
    (tagOffset? tag text (byteSize front)).isSome ↔
      (offsetsFrom ('<' :: tag.toList) text.toList (byteSize front)).Nonempty := by
  constructor
  · intro h
    obtain ⟨offset, h⟩ := Option.isSome_iff_exists.mp h
    exact ⟨offset, (tagOffset?_eq_some htext h).1⟩
  · intro h
    rw [tagOffset?, htext, dropBytes_byteSize, offsetOf?, Option.map_map, Option.isSome_map]
    rw [htext] at h
    cases hbreak : breakOn ('<' :: tag.toList) rest with
    | none =>
      rw [offsetsFrom_eq_empty hbreak front] at h
      exact absurd h Set.not_nonempty_empty
    | some found => rfl

/-! ## Children of one tag -/

/-- The item is an element of this tag. -/
def Item.hasTag (tag : String) : Item → Bool
  | .text _ => false
  | .element e => e.tag == tag

theorem length_filter_nodesOfItems (tag : String) (items : List Item) :
    ((nodesOfItems items).filter fun n => n.tag = tag).length =
      items.countP (Item.hasTag tag) := by
  induction items with
  | nil => rfl
  | cons item items ih =>
    cases item with
    | text s => simpa [nodesOfItems, Item.hasTag] using ih
    | element e =>
      rw [nodesOfItems, List.filter_cons, List.countP_cons, Element.tag_toNode]
      by_cases h : e.tag = tag
      · simp [h, ih, Item.hasTag]
      · simp [h, ih, Item.hasTag]

/-- A slot keeps a list exactly if the element has two elements of its tag. -/
theorem Element.exists_list_iff (e : Element) {s : Slot} (hs : s ∈ e.toNode.slots) :
    (∃ ns, s.child = .list ns) ↔ 2 ≤ e.items.countP (Item.hasTag s.tag) := by
  rw [e.groups_toNode.child s hs, Child.exists_list_iff (e.groups_toNode.ne_nil hs),
    length_filter_nodesOfItems]

end BehaviorIndex.Markup

namespace BehaviorIndex.Workspace

open BehaviorIndex.Markup
open BehaviorIndex.Text

/-! ## Symbols -/

/-- How the start tag of an entity of this name usually begins. -/
def opening (markup : Settings.Markup) (name : String) : List Char :=
  (openPattern markup.entityTag markup.idAttribute name).toList

/-- What a symbol says of an entity in the document with this root. -/
structure Describes (markup : Settings.Markup) (file : FileId) (text : String) (root : Element)
    (o : Occurrence) (s : EntitySymbol) : Prop where
  name : o.element.attributes.lookup markup.idAttribute = some s.name
  file : s.file = file
  range : Spans (opening markup s.name) (closePattern markup.entityTag).toList text.toList s.range
  order : (s.children.map ChildSymbol.tag).Sublist (o.element.toNode.slots.map Slot.tag)
  mem_children : ∀ tag ∈ o.element.toNode.slots.map Slot.tag,
    tag ∈ s.children.map ChildSymbol.tag ↔
      (offsetsFrom ('<' :: tag.toList) text.toList s.range.start).Nonempty
  child : ∀ c ∈ s.children,
    IsLeast (offsetsFrom ('<' :: c.tag.toList) text.toList s.range.start) c.offset ∧
      (c.repeated = true ↔ 2 ≤ o.element.items.countP (Item.hasTag c.tag))
  whole : ∀ own, WrittenAt text.toList root o own → opening markup s.name <+: own →
    s.children.map ChildSymbol.tag = o.element.toNode.slots.map Slot.tag

/-- The symbols of a file: those of the entities `listed` among all that are found in its tree. -/
structure Reports (markup : Settings.Markup) (file : FileId) (text : String) (root : Element)
    (found listed : List Occurrence) (symbols : List EntitySymbol) : Prop where
  sublist : listed.Sublist found
  mem_listed : ∀ o ∈ found, o ∈ listed ↔ ∃ name,
    o.element.attributes.lookup markup.idAttribute = some name ∧
      opening markup name <:+: text.toList
  described : List.Forall₂ (Describes markup file text root) listed symbols
  own : ∀ o ∈ found, ∀ name own, o.element.attributes.lookup markup.idAttribute = some name →
    WrittenAt text.toList root o own → opening markup name <+: own → o ∈ listed

section

variable {markup : Settings.Markup} {file : FileId} {text : String} {root : Element}
  {o : Occurrence} {s : EntitySymbol} {n : Node} {front rest : List Char}

theorem childSymbol?_eq_some {slot : Slot} {c : ChildSymbol} (htext : text.toList = front ++ rest)
    (h : childSymbol? text (byteSize front) slot = some c) :
    c.tag = slot.tag ∧
      IsLeast (offsetsFrom ('<' :: slot.tag.toList) text.toList (byteSize front)) c.offset ∧
      (c.repeated = true ↔ ∃ ns, slot.child = .list ns) := by
  obtain ⟨offset, hoffset, rfl⟩ := Option.map_eq_some_iff.mp h
  refine ⟨rfl, tagOffset?_eq_some htext hoffset, ?_⟩
  cases slot.child <;> simp

theorem isSome_childSymbol?_iff {slot : Slot} (htext : text.toList = front ++ rest) :
    (childSymbol? text (byteSize front) slot).isSome ↔
      (offsetsFrom ('<' :: slot.tag.toList) text.toList (byteSize front)).Nonempty := by
  rw [childSymbol?, Option.isSome_map]
  exact isSome_tagOffset?_iff htext

/-- The tags of the children that are listed. -/
theorem map_tag_filterMap (text : String) (start : Nat) (slots : List Slot) :
    (slots.filterMap (childSymbol? text start)).map ChildSymbol.tag =
      (slots.filter fun slot => (childSymbol? text start slot).isSome).map Slot.tag := by
  induction slots with
  | nil => rfl
  | cons slot slots ih =>
    cases h : childSymbol? text start slot with
    | none => simp [h, ih]
    | some c =>
      have htag : c.tag = slot.tag := by
        obtain ⟨offset, -, rfl⟩ := Option.map_eq_some_iff.mp h
        rfl
      simp [h, ih, htag]

theorem entitySymbol?_eq_some (h : entitySymbol? markup file text n = some s) :
    n.attribute? markup.idAttribute = some s.name ∧ s.file = file ∧
      entityRange? markup.entityTag markup.idAttribute s.name text = some s.range ∧
      s.children = n.slots.filterMap (childSymbol? text s.range.start) := by
  simp only [entitySymbol?, Option.bind_eq_bind, Option.bind_eq_some_iff, Option.pure_def,
    Option.some.injEq] at h
  obtain ⟨name, hname, range, hrange, rfl⟩ := h
  exact ⟨hname, rfl, hrange, rfl⟩

theorem isSome_entitySymbol?_iff :
    (entitySymbol? markup file text n).isSome ↔ ∃ name,
      n.attribute? markup.idAttribute = some name ∧ opening markup name <:+: text.toList := by
  constructor
  · intro h
    obtain ⟨s, hs⟩ := Option.isSome_iff_exists.mp h
    obtain ⟨hname, -, hrange, -⟩ := entitySymbol?_eq_some hs
    exact ⟨s.name, hname, (isSome_rangeOf?_iff _).mp (Option.isSome_of_eq_some hrange)⟩
  · rintro ⟨name, hname, hopening⟩
    obtain ⟨range, hrange⟩ := Option.isSome_iff_exists.mp
      ((isSome_rangeOf?_iff (closePattern markup.entityTag)).mpr hopening)
    simp [entitySymbol?, hname, entityRange?, hrange]

/-- The tags of an entity's children begin behind the first place where an entity like it begins, if
its own start tag is such a place. -/
theorem nonempty_offsetsFrom (hsources : Sources text.toList root) {own : List Char}
    (hwritten : WrittenAt text.toList root o own) {pat : List Char} (hown : pat <+: own)
    {start : Nat} (hstart : IsLeast (offsetsFrom pat text.toList 0) start) {tag : String}
    (htag : tag ∈ o.element.toNode.slots.map Slot.tag) :
    (offsetsFrom ('<' :: tag.toList) text.toList start).Nonempty := by
  obtain ⟨inner, hinner, rfl⟩ := o.element.exists_inner_of_mem_tags htag
  obtain ⟨later, ⟨between, hbetween⟩, hlater⟩ := hsources.exists_text_of_mem_items hwritten hinner
  obtain ⟨before, hbefore⟩ := hsources.suffix_of_writtenAt hwritten
  have hle : start ≤ byteSize before :=
    hstart.2 (hbefore ▸ mem_offsetsFrom hown (Nat.zero_le _))
  refine ⟨byteSize (before ++ between), ?_⟩
  rw [← hbefore, ← hbetween, ← List.append_assoc]
  refine mem_offsetsFrom hlater ?_
  rw [byteSize_append]
  omega

theorem describes_of_entitySymbol? (hsources : Sources text.toList root)
    (h : entitySymbol? markup file text o.element.toNode = some s) :
    Describes markup file text root o s := by
  obtain ⟨hname, hfile, hrange, hchildren⟩ := entitySymbol?_eq_some h
  have hspans := rangeOf?_spans hrange
  obtain ⟨-, front, rest, htext, -, hfront⟩ := hspans.start.1
  rw [← hfront] at hchildren
  have htags := hchildren ▸ map_tag_filterMap text (byteSize front) o.element.toNode.slots
  refine ⟨?_, hfile, hspans, ?_, ?_, ?_, ?_⟩
  · rwa [Node.attribute?, Element.attributes_toNode] at hname
  · rw [htags]
    exact List.filter_sublist.map _
  · intro tag htag
    rw [htags, List.mem_map, ← hfront]
    constructor
    · rintro ⟨slot, hslot, rfl⟩
      exact (isSome_childSymbol?_iff htext).mp (List.mem_filter.mp hslot).2
    · intro hnonempty
      obtain ⟨slot, hslot, rfl⟩ := List.mem_map.mp htag
      have hsome := (isSome_childSymbol?_iff htext).mpr hnonempty
      exact ⟨slot, List.mem_filter.mpr ⟨hslot, hsome⟩, rfl⟩
  · intro c hc
    rw [hchildren] at hc
    obtain ⟨slot, hslot, hc⟩ := List.mem_filterMap.mp hc
    obtain ⟨htag, hleast, hrepeated⟩ := childSymbol?_eq_some htext hc
    rw [htag, ← hfront]
    exact ⟨hleast, hrepeated.trans (o.element.exists_list_iff hslot)⟩
  · intro own hwritten hown
    rw [htags, List.filter_eq_self.mpr]
    intro slot hslot
    rw [isSome_childSymbol?_iff htext, hfront]
    exact nonempty_offsetsFrom hsources hwritten hown hspans.start (List.mem_map_of_mem hslot)

theorem forall₂_filterMap {α β : Type} (f : α → Option β) (as : List α) :
    List.Forall₂ (fun a b => f a = some b) (as.filter fun a => (f a).isSome)
      (as.filterMap f) := by
  induction as with
  | nil => exact .nil
  | cons a as ih =>
    cases h : f a with
    | none => simpa [h] using ih
    | some b => simpa [h] using ih

/-- **The symbols of a file**, from what is found in its tree. -/
theorem reports_of_sources (hsources : Sources text.toList root) (markup : Settings.Markup)
    (file : FileId) (found : List Occurrence) :
    Reports markup file text root found
      (found.filter fun o => (entitySymbol? markup file text o.element.toNode).isSome)
      (found.filterMap fun o => entitySymbol? markup file text o.element.toNode) := by
  have hmem : ∀ o ∈ found,
      (o ∈ found.filter fun o => (entitySymbol? markup file text o.element.toNode).isSome) ↔
        ∃ name, o.element.attributes.lookup markup.idAttribute = some name ∧
          opening markup name <:+: text.toList := by
    intro o ho
    rw [List.mem_filter, isSome_entitySymbol?_iff, Node.attribute?, Element.attributes_toNode]
    exact and_iff_right ho
  refine ⟨List.filter_sublist, hmem, ?_, ?_⟩
  · refine List.Forall₂.imp ?_
      (forall₂_filterMap (fun o => entitySymbol? markup file text o.element.toNode) found)
    intro o s h
    exact describes_of_entitySymbol? hsources h
  · intro o ho name own hname hwritten hown
    have hsuffix := hsources.suffix_of_writtenAt hwritten
    exact (hmem o ho).mpr ⟨name, hname, hown.isInfix.trans hsuffix.isInfix⟩

end

/-! ## Queries -/

/-- **The entities of a file.** A text that is no document gives its error and changes nothing. For
a document, the file gets a number and the symbols report the entities of its tree; if there is no
number left, that is the error. -/
theorem entities_reports (w : Workspace) {d : Disk} {p : Path} {text : String}
    (hread : d.read p = .ok text) :
    let markup := w.settings.markup
    let registered := w.registry.register (d.canonical p)
    (∀ e, parse text = .error e → w.entities d p = (w, .error (.parse p e))) ∧
    ∀ node, parse text = .ok node →
      (registered.2 = none →
        w.entities d p = ({ w with registry := registered.1 }, .error .idsExhausted)) ∧
      ∀ file, registered.2 = some file → ∃ root found listed symbols,
        w.entities d p = ({ w with registry := registered.1 }, .ok symbols) ∧
        readRoot? text.toList = some root ∧ Sources text.toList root ∧
        Gathers markup.entityTag markup.idAttribute root
          (node.entities markup.entityTag markup.idAttribute) found ∧
        Reports markup file text root found listed symbols := by
  intro markup registered
  have hroot : ∀ node, parse text = .ok node → rootOf d p = .ok (some (text, node)) := by
    intro node hnode
    rw [rootOf, hread]
    simp only [hnode]
  refine ⟨fun e herror => ?_, fun node hnode => ⟨fun hnone => ?_, fun file hfile => ?_⟩⟩
  · have hfails : rootOf d p = .error (.parse p e) := by
      rw [rootOf, hread]
      simp only [herror]
    rw [entities, hfails]
  · have hregister : w.registry.register (d.canonical p) = (registered.1, none) := by
      rw [← hnone]
    simp only [entities, hroot node hnode, hregister]
  · have hregister : w.registry.register (d.canonical p) = (registered.1, some file) := by
      rw [← hfile]
    obtain ⟨root, hread, hsound, rfl⟩ := exists_root_of_parse hnode
    obtain ⟨found, hgathers⟩ := hsound.exists_gathers markup.entityTag markup.idAttribute
    have hsources := sources_of_readRoot? hread
    refine ⟨root, found, _, _, ?_, hread, hsources, hgathers,
      reports_of_sources hsources markup file found⟩
    simp only [entities, hroot _ hnode, hregister]
    rw [Node.entities, ← hgathers.nodes, List.filterMap_map]
    rfl

/-- A document with an entity whose usual beginning first occurs in a comment, and two that are
written in other ways, one of them inside the first. -/
def canopy : String :=
  "<r><!-- <T ID=\"A\" --><T ID=\"A\"><S/><T ID='B'><S/></T><L>é</L><S/></T><T  ID=\"C\"/></r>"

def canopyDisk : Disk := ⟨.ofList [("/t.xml", Disk.Entry.file canopy.toUTF8)], "/"⟩

def canopySpace : Workspace :=
  { settings := { indexing := .defaults 1, markup := { entityTag := "T" } }, root := "/" }

theorem entities_reports_canopy : canopyDisk.read "/t.xml" = .ok canopy ∧
    ∃ node root found listed symbols, parse canopy = .ok node ∧
      (canopySpace.entities canopyDisk "/t.xml").2 = .ok symbols ∧
      symbols.map EntitySymbol.text = ["A [8..53]\n  S[] @31\n  T @8\n  L @53"] ∧
      Reports canopySpace.settings.markup ⟨1⟩ canopy root found listed symbols := by
  have hread : canopyDisk.read "/t.xml" = .ok canopy := by decide +kernel
  have hfile : (canopySpace.registry.register (canopyDisk.canonical "/t.xml")).2 = some ⟨1⟩ := by
    decide +kernel
  have hrun : (canopySpace.entities canopyDisk "/t.xml").2.toOption.map
      (List.map EntitySymbol.text) = some ["A [8..53]\n  S[] @31\n  T @8\n  L @53"] := by
    decide +kernel
  obtain ⟨herror, hok⟩ := entities_reports canopySpace hread
  cases hparse : parse canopy with
  | error e =>
    rw [herror e hparse] at hrun
    cases hrun
  | ok node =>
    obtain ⟨root, found, listed, symbols, hentities, -, -, -, hreports⟩ :=
      (hok node hparse).2 ⟨1⟩ hfile
    rw [hentities] at hrun
    refine ⟨hread, node, root, found, listed, symbols, rfl, by rw [hentities], ?_, hreports⟩
    exact Option.some.inj hrun

end BehaviorIndex.Workspace
