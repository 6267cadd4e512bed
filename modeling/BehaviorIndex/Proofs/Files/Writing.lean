import BehaviorIndex.Proofs.Files.Canonical
import Mathlib.Data.List.Infix

/-!
# Writing files

A path is *writable* if no file is where it needs a directory, and no directory where it needs the
file (`Disk.Writable`).

**Theorem (`Writable.exists_writeText`).** At a writable path, the directories can be made and any
text can be written. The text is then read back under every path to the same place.

Making directories changes nothing but the places on the way, and these are directories afterwards
(`Made`); so the way leads to where the file is written.
-/

namespace BehaviorIndex

open Std

namespace Disk

/-! ## Where names lead -/

/-- Where a name leads from a directory, both given by their own names with the last one first. -/
def step (here : List String) (name : String) : List String :=
  if name = ".." then here.tail else name :: here

/-- Where names lead from a directory, if there is one wherever they need it. -/
def reach (here names : List String) : List String := names.foldl step here

/-- The canonical path of the place where names lead. -/
def place (names : List String) : Path := pathOf (reach [] names).reverse

section

variable {d d' : Disk} {here there names more : List String} {name : String}

theorem ite_eq_step (here : List String) (name : String) :
    (if name = ".." then here.tail else name :: here) = step here name := rfl

theorem step_up : step here ".." = here.tail := if_pos rfl

theorem step_of_ne (h : name ≠ "..") : step here name = name :: here := if_neg h

theorem follow_step (h : d.at? (pathOf (step here name).reverse) = some .directory) :
    d.follow here (name :: names) = d.follow (step here name) names := by
  by_cases hup : name = ".."
  · rw [hup, follow, step_up]
  · rw [step_of_ne hup] at h ⊢
    rw [follow, h]
    exact hup

/-- A way to a directory leads there on every disk that has the directories of the first, and goes
on from there. -/
theorem follow_append (hmono : ∀ q, d.at? q = some .directory → d'.at? q = some .directory)
    (h : d.follow here names = .ok there)
    (hthere : d.at? (pathOf there.reverse) = some .directory) :
    d'.follow here (names ++ more) = d'.follow there more := by
  fun_induction follow d here names with
  | case1 here =>
    cases h
    rfl
  | case2 here names ih =>
    rw [List.cons_append, follow]
    exact ih h
  | case3 | case6 => cases h
  | case4 here name names hup hentry ih =>
    rw [← step_of_ne hup] at hentry h ih
    rw [List.cons_append, follow_step (hmono _ hentry)]
    exact ih h
  | case5 here name names hup content hentry hlast =>
    cases h
    rw [hentry] at hthere
    cases hthere

end

/-! ## Making directories -/

/-- A directory and those above it are there. -/
def Rooted (d : Disk) (here : List String) : Prop :=
  ∀ there, there <:+ here → d.at? (pathOf there.reverse) = some .directory

/-- The disk `d'` is `d` with a directory at `p`. -/
structure Adds (d d' : Disk) (p : Path) : Prop where
  current : d'.current = d.current
  entry : ∀ q, d'.at? q = if p = q then some .directory else d.at? q

/-- What making directories along names from `here` leaves behind. -/
structure Made (d d' : Disk) (here names : List String) : Prop where
  current : d'.current = d.current
  directories : ∀ q, d.at? q = some .directory → d'.at? q = some .directory
  others : ∀ q, (∀ front, front <+: names → pathOf (reach here front).reverse ≠ q) →
    d'.at? q = d.at? q
  follow : d'.follow here names = .ok (reach here names)
  directory : d'.at? (pathOf (reach here names).reverse) = some .directory

section

variable {d d₁ d' : Disk} {here names : List String} {name : String} {p : Path}

theorem adds_self (h : d.at? p = some .directory) : Adds d d p := by
  refine ⟨rfl, fun q => ?_⟩
  split
  · next heq => rw [← heq, h]
  · rfl

theorem adds_insert (d : Disk) (p : Path) :
    Adds d { d with entries := d.entries.insert p .directory } p := by
  refine ⟨rfl, fun q => ?_⟩
  split
  · next heq => simp [at?, heq]
  · next hne => rw [at?_insert_of_ne (Ne.symm hne)]

/-- The first name makes a directory, unless there is one. -/
theorem exists_adds (hhere : d.Rooted here)
    (hfile : ∀ content, d.at? (pathOf (step here name).reverse) ≠ some (.file content)) :
    ∃ d₁, Adds d d₁ (pathOf (step here name).reverse) ∧
      ∀ names, d.makeDirectoriesFrom here (name :: names) =
        d₁.makeDirectoriesFrom (step here name) names := by
  by_cases hup : name = ".."
  · subst hup
    have htail := hhere here.tail (List.tail_suffix here)
    exact ⟨d, adds_self htail, fun names => by rw [makeDirectoriesFrom, step_up]⟩
  rw [step_of_ne hup] at hfile ⊢
  cases hentry : d.at? (pathOf (name :: here).reverse) with
  | none =>
    refine ⟨_, adds_insert d _, fun names => ?_⟩
    rw [makeDirectoriesFrom, hentry]
    exact hup
  | some entry =>
    cases entry with
    | directory =>
      refine ⟨d, adds_self hentry, fun names => ?_⟩
      rw [makeDirectoriesFrom, hentry]
      exact hup
    | file content => exact absurd hentry (hfile content)

theorem Rooted.step (h : d.Rooted here) (hadds : Adds d d₁ (pathOf (step here name).reverse)) :
    d₁.Rooted (step here name) := by
  intro there hthere
  rw [hadds.entry]
  split
  · rfl
  · next hne =>
    by_cases hup : name = ".."
    · rw [hup, step_up] at hthere
      exact h there (hthere.trans (List.tail_suffix here))
    · rw [step_of_ne hup] at hthere hne
      rcases List.suffix_cons_iff.mp hthere with rfl | hthere
      · exact absurd rfl hne
      · exact h there hthere

theorem Made.cons (hadds : Adds d d₁ (pathOf (step here name).reverse))
    (h : Made d₁ d' (step here name) names) : Made d d' here (name :: names) where
  current := h.current.trans hadds.current
  directories q hq := h.directories q (by rw [hadds.entry, hq, ite_self])
  others q hq := by
    have hlater : ∀ front, front <+: names → pathOf (reach (step here name) front).reverse ≠ q :=
      fun front hfront => hq (name :: front) (List.cons_prefix_cons.mpr ⟨rfl, hfront⟩)
    have hplace : pathOf (step here name).reverse ≠ q := hlater [] List.nil_prefix
    rw [h.others q hlater, hadds.entry, if_neg hplace]
  follow := by
    rw [follow_step (h.directories _ (by rw [hadds.entry, if_pos rfl]))]
    exact h.follow
  directory := h.directory

/-- Directories are made where no file is in the way. -/
theorem exists_made (hhere : d.Rooted here)
    (hway : ∀ front, front <+: names → ∀ content,
      d.at? (pathOf (reach here front).reverse) ≠ some (.file content)) :
    ∃ d', d.makeDirectoriesFrom here names = .ok d' ∧ Made d d' here names := by
  induction names generalizing d here with
  | nil => exact ⟨d, rfl, rfl, fun q hq => hq, fun q _ => rfl, rfl, hhere here List.suffix_rfl⟩
  | cons name names ih =>
    obtain ⟨d₁, hadds, hstep⟩ := exists_adds hhere (hway [name] (by simp))
    have hfree : ∀ front, front <+: names → ∀ content,
        d₁.at? (pathOf (reach (step here name) front).reverse) ≠ some (.file content) := by
      intro front hfront content
      have hfile := hway (name :: front) (List.cons_prefix_cons.mpr ⟨rfl, hfront⟩) content
      rw [hadds.entry]
      split
      · simp
      · exact hfile
    obtain ⟨d', hmake, hmade⟩ := ih (hhere.step hadds) hfree
    exact ⟨d', (hstep names).trans hmake, hmade.cons hadds⟩

end

/-! ## Writing a text -/

/-- A file can be written at the path: no file is where a directory is needed, and no directory is
where the file belongs, now or when those above it are made. -/
structure Writable (d : Disk) (p : Path) : Prop where
  asks : asksForDirectory p = false
  way : ∀ front, front <+: (d.current.join p).names.dropLast → ∀ content,
    d.at? (place front) ≠ some (.file content)
  target : d.at? (place (d.current.join p).names) ≠ some .directory
  /-- The way does not pass through the place of the file, as that of `a/../a` does. -/
  aside : ∀ front, front <+: (d.current.join p).names.dropLast →
    place front ≠ place (d.current.join p).names

instance (o : Option Entry) : Decidable (∀ content, o ≠ some (.file content)) :=
  match o with
  | none => isTrue (by simp)
  | some .directory => isTrue (by simp)
  | some (.file content) => isFalse fun h => h content rfl

instance (o : Option Entry) : Decidable (o ≠ some .directory) :=
  match o with
  | none => isTrue (by simp)
  | some .directory => isFalse fun h => h rfl
  | some (.file _) => isTrue (by simp)

instance (d : Disk) (p : Path) : Decidable (d.Writable p) :=
  decidable_of_iff
    (asksForDirectory p = false ∧
      (∀ front ∈ (d.current.join p).names.dropLast.inits, ∀ content,
        d.at? (place front) ≠ some (.file content)) ∧
      d.at? (place (d.current.join p).names) ≠ some .directory ∧
      ∀ front ∈ (d.current.join p).names.dropLast.inits,
        place front ≠ place (d.current.join p).names)
    ⟨fun h => ⟨h.1, fun front hfront => h.2.1 front ((List.mem_inits _ _).mpr hfront), h.2.2.1,
        fun front hfront => h.2.2.2 front ((List.mem_inits _ _).mpr hfront)⟩,
      fun h => ⟨h.asks, fun front hfront => h.way front ((List.mem_inits _ _).mp hfront), h.target,
        fun front hfront => h.aside front ((List.mem_inits _ _).mp hfront)⟩⟩

section

variable {d d' : Disk} {p q : Path} {content : ByteArray}

theorem names_ne_nil_of_asks (h : asksForDirectory p = false) : p.names ≠ [] := by
  obtain ⟨parts, last, hsplit⟩ :=
    (List.eq_nil_or_concat _).resolve_left (Path.splitSlashes_ne_nil p.toList)
  rw [List.concat_eq_append] at hsplit
  rw [asksForDirectory, hsplit, List.getLast?_concat] at h
  simp only [Bool.or_eq_false_iff, beq_eq_false_iff_ne] at h
  change Path.namesOf (Path.splitSlashes p.toList) ≠ []
  rw [hsplit, Path.namesOf_append]
  simp [Path.namesOf, h]

theorem exists_names_join (h : asksForDirectory p = false) (here : Path) :
    ∃ front name, (here.join p).names = front ++ [name] := by
  have hne : (here.join p).names ≠ [] := by
    cases habs : p.isAbsolute with
    | true =>
      rw [Path.join, if_pos habs]
      exact names_ne_nil_of_asks h
    | false =>
      rw [Path.names_join habs]
      exact List.append_ne_nil_of_right_ne_nil _ (names_ne_nil_of_asks h)
  exact ⟨_, _, (List.dropLast_append_getLast hne).symm⟩

theorem rooted_nil (d : Disk) : d.Rooted [] := by
  intro there hthere
  rw [List.suffix_nil.mp hthere]
  rfl

theorem reach_concat (names : List String) (name : String) :
    reach [] (names ++ [name]) = step (reach [] names) name := by
  rw [reach, List.foldl_append]
  rfl

namespace Writable

theorem exists_makeDirectories (h : d.Writable p) :
    ∃ parent d', p.parent? = some parent ∧ d.makeDirectories parent = .ok d' ∧
      Made d d' [] (d.current.join p).names.dropLast := by
  obtain ⟨parent, hparent, hnames⟩ := Path.exists_names_join_parent (names_ne_nil_of_asks h.asks)
  obtain ⟨d', hmake, hmade⟩ := exists_made d.rooted_nil h.way
  exact ⟨parent, d', hparent, by rw [makeDirectories, hnames, hmake], hmade⟩

/-- The file does not take the place of a directory. -/
theorem at?_target_ne (h : d.Writable p) (hmade : Made d d' [] (d.current.join p).names.dropLast) :
    d'.at? (place (d.current.join p).names) ≠ some .directory := by
  rw [hmade.others _ h.aside]
  exact h.target

theorem exists_write (h : d.Writable p) (hmade : Made d d' [] (d.current.join p).names.dropLast)
    (content : ByteArray) :
    ∃ d₂, d'.write p content = .ok d₂ ∧ d₂.current = d'.current ∧
      (∀ q, d'.at? q = some .directory → d₂.at? q = some .directory) ∧
      d₂.at? (place (d.current.join p).names) = some (.file content) := by
  have htarget := h.at?_target_ne hmade
  refine ⟨{ d' with
    entries := d'.entries.insert (place (d.current.join p).names) (.file content) },
    ?_, rfl, fun q => (at?_insert_file_iff htarget).mpr, d'.at?_insert_file htarget content⟩
  obtain ⟨front, last, hnames⟩ := exists_names_join h.asks d.current
  rw [hnames, List.dropLast_concat] at hmade
  rw [hnames, place, reach_concat] at htarget ⊢
  rw [write, hmade.current, hnames, List.reverse_append, List.reverse_singleton,
    List.singleton_append]
  simp only [List.reverse_reverse, hmade.follow, hmade.directory, beq_iff_eq, ite_eq_step]
  split
  · next hdirectory => exact absurd hdirectory htarget
  · simp [h.asks]
  · simp [h.asks]

end Writable

/-- A last name that leads to a file. -/
theorem follow_last {here : List String} {name : String}
    (h : d.at? (pathOf (step here name).reverse) = some (.file content)) :
    d.follow here [name] = .ok (step here name) := by
  by_cases hup : name = ".."
  · rw [hup, follow, follow, step_up]
  · rw [step_of_ne hup] at h ⊢
    rw [follow, h]
    · rfl
    · exact hup

theorem isEmpty_eq_false_of_asks (h : asksForDirectory p = false) : p.isEmpty = false := by
  rw [Bool.eq_false_iff]
  intro hempty
  rw [String.isEmpty_iff.mp hempty] at h
  exact absurd h (by decide)

/-- A path that is put behind another one asks for what it asked for. -/
theorem asksForDirectory_join (hp : p ≠ "") (hq : q.isAbsolute = false) :
    asksForDirectory (p.join q) = asksForDirectory q := by
  obtain ⟨cs, hjoin, -⟩ := Path.exists_toList_join hp hq
  rw [asksForDirectory, asksForDirectory, hjoin, Path.splitSlashes_append,
    List.getLast?_append_of_ne_nil _ (Path.splitSlashes_ne_nil _)]

/-- Where the directories on the way have been made, every path to a file behind them finds it. -/
theorem Made.resolve_eq {d₂ : Disk} {front : List String} {name : String}
    (hmade : Made d d' [] front) (hcurrent : d₂.current = d'.current)
    (hmono : ∀ q, d'.at? q = some .directory → d₂.at? q = some .directory)
    (hfile : d₂.at? (place (front ++ [name])) = some (.file content))
    (hq : asksForDirectory q = false) (hnames : (d.current.join q).names = front ++ [name]) :
    d₂.resolve q = .ok (place (front ++ [name])) := by
  rw [place, reach_concat] at hfile ⊢
  have hfollow : d₂.follow [] (d₂.current.join q).names = .ok (step (reach [] front) name) := by
    rw [hcurrent, hmade.current, hnames, follow_append hmono hmade.follow hmade.directory,
      follow_last hfile]
  rw [resolve, isEmpty_eq_false_of_asks hq, if_neg Bool.false_ne_true, hfollow]
  simp [hfile, hq]

theorem isFile_of_resolve (hresolve : d.resolve q = .ok p)
    (hfile : d.at? p = some (.file content)) : d.isFile q = true := by
  simp [isFile, entry?, hresolve, Except.toOption, hfile]

/-- **Writing.** At a writable path any text can be written, and is then found there. -/
theorem Writable.exists_writeText (h : d.Writable p) (text : String) :
    ∃ parent d₁ d₂, p.parent? = some parent ∧ d.makeDirectories parent = .ok d₁ ∧
      d₁.writeText p text = .ok d₂ ∧ d₂.current = d.current ∧
      ∀ q, asksForDirectory q = false → (d.current.join q).names = (d.current.join p).names →
        d₂.isFile q = true ∧ d₂.read q = .ok text := by
  obtain ⟨parent, d₁, hparent, hmake, hmade⟩ := h.exists_makeDirectories
  obtain ⟨d₂, hwrite, hcurrent, hmono, hfile⟩ := h.exists_write hmade text.toUTF8
  refine ⟨parent, d₁, d₂, hparent, hmake, hwrite, hcurrent.trans hmade.current,
    fun q hq hnames => ?_⟩
  obtain ⟨front, last, hlast⟩ := exists_names_join h.asks d.current
  rw [hlast, List.dropLast_concat] at hmade
  rw [hlast] at hfile hnames
  have hresolve := hmade.resolve_eq hcurrent hmono hfile hq hnames
  exact ⟨isFile_of_resolve hresolve hfile, read_of_resolve hresolve hfile⟩

end

end Disk

end BehaviorIndex
