import BehaviorIndex.Settings.Basic
import Mathlib.Data.List.Basic

/-!
# Paths and their normal forms

Paths with the same components are the same path, and files are registered and timed under the
normal form of their path. The normal form has the components of the path (`components_normal`), so
paths with one normal form have the same components, and with them the same kind of definitions.
-/

namespace BehaviorIndex.Path

/-- A name that can stand between two slashes of a normal form. -/
def IsName (s : String) : Prop := s.toList ≠ [] ∧ s.toList ≠ ['.'] ∧ '/' ∉ s.toList

/-! ## Splitting at slashes -/

theorem splitSlashes_eq_splitOn (cs : List Char) : splitSlashes cs = cs.splitOn '/' := by
  fun_induction splitSlashes cs with
  | case1 => rfl
  | case2 cs ih => rw [List.splitOn_cons_eq_if_modifyHead, if_pos (by rfl), ih]
  | case3 c cs hc part parts hsplit ih =>
    rw [List.splitOn_cons_eq_if_modifyHead, if_neg (by simpa using hc), ← ih, hsplit]
    rfl
  | case4 c cs hc hsplit ih => exact absurd (ih.symm.trans hsplit) (List.splitOn_ne_nil _ _)

theorem slash_notMem_of_mem_splitSlashes {cs part : List Char} (h : part ∈ splitSlashes cs) :
    '/' ∉ part := by
  fun_induction splitSlashes cs generalizing part with
  | case1 => simp_all
  | case2 cs ih =>
    rcases List.mem_cons.mp h with rfl | h
    · simp
    · exact ih h
  | case3 c cs hc first rest hsplit ih =>
    rw [hsplit] at ih
    rcases List.mem_cons.mp h with rfl | h
    · rw [List.mem_cons, not_or]
      exact ⟨Ne.symm hc, ih List.mem_cons_self⟩
    · exact ih (List.mem_cons_of_mem _ h)
  | case4 c cs hc hsplit ih =>
    rw [List.mem_singleton.mp h, List.mem_singleton]
    exact Ne.symm hc

theorem isName_of_mem_names {p : Path} {s : String} (h : s ∈ p.names) : IsName s := by
  obtain ⟨part, hpart, rfl⟩ := List.mem_map.mp h
  obtain ⟨hmem, hname⟩ := List.mem_filter.mp hpart
  simp only [bne_iff_ne, Bool.and_eq_true] at hname
  rw [IsName, String.toList_ofList]
  exact ⟨hname.1, hname.2, slash_notMem_of_mem_splitSlashes hmem⟩

/-- Joining parts with slashes and splitting the result gives the parts back. -/
theorem splitSlashes_intercalate {parts : List String} (h : ∀ s ∈ parts, '/' ∉ s.toList)
    (hne : parts ≠ []) :
    splitSlashes ("/".intercalate parts).toList = parts.map String.toList := by
  rw [splitSlashes_eq_splitOn, String.toList_intercalate]
  refine List.splitOn_intercalate '/' (fun part hpart => ?_) (by simpa using hne)
  obtain ⟨s, hs, rfl⟩ := List.mem_map.mp hpart
  exact h s hs

/-- The names among the parts of a path. -/
def namesOf (parts : List (List Char)) : List String :=
  (parts.filter fun part => part != [] && part != ['.']).map String.ofList

theorem namesOf_map_toList {names : List String} (h : ∀ s ∈ names, IsName s) :
    namesOf (names.map String.toList) = names := by
  rw [namesOf, List.filter_eq_self.mpr, List.map_map]
  · simp [Function.comp_def]
  · intro part hpart
    obtain ⟨s, hs, rfl⟩ := List.mem_map.mp hpart
    simp [(h s hs).1, (h s hs).2.1]

theorem head?_splitSlashes_of_isAbsolute {p : Path} (h : p.isAbsolute = true) :
    (splitSlashes p.toList).head? = some [] := by
  unfold isAbsolute at h
  cases hp : p.toList with
  | nil => simp [hp] at h
  | cons c cs =>
    rw [hp, List.head?_cons, beq_iff_eq, Option.some_inj] at h
    rw [h, splitSlashes, List.head?_cons]

theorem not_isAbsolute_of_head? {p : Path} {part : List Char}
    (h : (splitSlashes p.toList).head? = some part) (hne : part ≠ []) : p.isAbsolute = false := by
  by_contra habs
  rw [Bool.not_eq_false] at habs
  rw [head?_splitSlashes_of_isAbsolute habs, Option.some_inj] at h
  exact hne h.symm

/-! ## The components of a joined path -/

theorem components_slash {names : List String} (h : ∀ s ∈ names, IsName s) :
    components ("/" ++ "/".intercalate names) = "/" :: names := by
  have hlist : ("/" ++ "/".intercalate names).toList = '/' :: ("/".intercalate names).toList := by
    rw [String.toList_append]
    rfl
  have habs : isAbsolute ("/" ++ "/".intercalate names) = true := by
    rw [isAbsolute, hlist]
    rfl
  rw [components, if_pos habs, Path.names, hlist, splitSlashes]
  congr 1
  by_cases hn : names = []
  · subst hn
    rfl
  · rw [splitSlashes_intercalate (fun s hs => (h s hs).2.2) hn]
    exact namesOf_map_toList h

theorem components_dot {names : List String} (h : ∀ s ∈ names, IsName s) :
    components ("/".intercalate ("." :: names)) = "." :: names := by
  have hsplit : splitSlashes ("/".intercalate ("." :: names)).toList =
      ['.'] :: names.map String.toList := by
    rw [splitSlashes_intercalate _ (by simp)]
    · rfl
    · intro s hs
      rcases List.mem_cons.mp hs with rfl | hs
      · decide
      · exact (h s hs).2.2
  have habs := not_isAbsolute_of_head? (by rw [hsplit]; rfl) (show ['.'] ≠ [] by simp)
  have hdot : startsWithDot ("/".intercalate ("." :: names)) = true := by
    rw [startsWithDot, hsplit]
    rfl
  rw [components, if_neg (by simp [habs]), if_pos hdot, Path.names, hsplit]
  congr 1
  exact namesOf_map_toList h

theorem components_intercalate {names : List String} (h : ∀ s ∈ names, IsName s) :
    components ("/".intercalate names) = names := by
  cases names with
  | nil => decide
  | cons name names =>
    have hsplit := splitSlashes_intercalate (fun s hs => (h s hs).2.2) (List.cons_ne_nil name names)
    obtain ⟨hnil, hdot, -⟩ := h name List.mem_cons_self
    have habs := not_isAbsolute_of_head? (by rw [hsplit]; rfl) hnil
    have hstart : startsWithDot ("/".intercalate (name :: names)) = false := by
      rw [startsWithDot, hsplit]
      simpa using hdot
    rw [components, if_neg (by simp [habs]), if_neg (by simp [hstart]), Path.names, hsplit]
    exact namesOf_map_toList h

/-- What the components of a path may have in front of its names. -/
def IsFront (front : List String) : Prop := front = ["/"] ∨ front = ["."] ∨ front = []

section

variable {front front' names names' : List String}

theorem filter_front_append (hfront : IsFront front) (hnames : ∀ s ∈ names, IsName s) :
    (front ++ names).filter (fun s => s != "/" && s != ".") = names := by
  have hself : names.filter (fun s => s != "/" && s != ".") = names := by
    rw [List.filter_eq_self]
    intro s hs
    have hslash : s ≠ "/" := by
      rintro rfl
      exact (hnames "/" hs).2.2 (by decide)
    have hdot : s ≠ "." := by
      rintro rfl
      exact (hnames "." hs).2.1 rfl
    simp [hslash, hdot]
  rcases hfront with rfl | rfl | rfl <;> simpa using hself

/-- What is in front of the names is told apart from them. -/
theorem front_append_inj (hfront : IsFront front) (hfront' : IsFront front')
    (hnames : ∀ s ∈ names, IsName s) (hnames' : ∀ s ∈ names', IsName s)
    (h : front ++ names = front' ++ names') : front = front' ∧ names = names' := by
  have heq : names = names' := by
    rw [← filter_front_append hfront hnames, h, filter_front_append hfront' hnames']
  subst heq
  exact ⟨List.append_cancel_right h, rfl⟩

theorem exists_components (p : Path) :
    ∃ front, IsFront front ∧ p.components = front ++ p.names ∧
      (p.isAbsolute = true ↔ front = ["/"]) := by
  rw [components]
  split
  · next habs => exact ⟨["/"], .inl rfl, rfl, by simp [habs]⟩
  · next habs =>
    split
    · exact ⟨["."], .inr (.inl rfl), rfl, by simp [habs]⟩
    · exact ⟨[], .inr (.inr rfl), rfl, by simp [habs]⟩

theorem components_ofComponents (hfront : IsFront front) (h : ∀ s ∈ names, IsName s) :
    (ofComponents (front ++ names)).components = front ++ names := by
  rcases hfront with rfl | rfl | rfl
  · exact components_slash h
  · exact components_dot h
  · rw [List.nil_append, ofComponents]
    · exact components_intercalate h
    · rintro names rfl
      exact (h "/" List.mem_cons_self).2.2 (by decide)

theorem names_ofComponents (hfront : IsFront front) (h : ∀ s ∈ names, IsName s) :
    (ofComponents (front ++ names)).names = names ∧
      ((ofComponents (front ++ names)).isAbsolute = true ↔ front = ["/"]) := by
  obtain ⟨front', hfront', hcomponents, habs⟩ := exists_components (ofComponents (front ++ names))
  rw [components_ofComponents hfront h] at hcomponents
  obtain ⟨rfl, hnames⟩ :=
    front_append_inj hfront hfront' h (fun s => isName_of_mem_names) hcomponents
  exact ⟨hnames.symm, habs⟩

end

/-- **Normal forms.** The normal form of a path has the path's components. -/
theorem components_normal (p : Path) : p.normal.components = p.components := by
  obtain ⟨front, hfront, hcomponents, -⟩ := p.exists_components
  rw [normal, hcomponents]
  exact components_ofComponents hfront fun s => isName_of_mem_names

theorem names_normal (p : Path) :
    p.normal.names = p.names ∧ p.normal.isAbsolute = p.isAbsolute := by
  obtain ⟨front, hfront, hcomponents, habs⟩ := p.exists_components
  obtain ⟨hnames, habs'⟩ := names_ofComponents hfront fun s => isName_of_mem_names (p := p)
  rw [normal, hcomponents]
  exact ⟨hnames, Bool.eq_iff_iff.mpr (habs'.trans habs.symm)⟩

theorem components_eq_of_normal_eq {p q : Path} (h : p.normal = q.normal) :
    p.components = q.components := by
  rw [← components_normal p, h, components_normal]

/-- A path with names has a parent, with the names but the last one. -/
theorem exists_parent {p : Path} (h : p.names ≠ []) :
    ∃ parent, p.parent? = some parent ∧ parent.names = p.names.dropLast ∧
      parent.isAbsolute = p.isAbsolute := by
  obtain ⟨front, hfront, hcomponents, habs⟩ := p.exists_components
  have hparent : p.parent? = some (ofComponents (front ++ p.names.dropLast)) := by
    have hslash : p.components ≠ ["/"] := fun hroot =>
      h (front_append_inj hfront (.inl rfl) (fun s => isName_of_mem_names) (by simp)
        (hcomponents.symm.trans hroot)).2
    rw [parent?]
    split
    · next hnil => simp [hcomponents, h] at hnil
    · next hroot => exact absurd hroot hslash
    · rw [hcomponents, List.dropLast_append_of_ne_nil h]
  have hdrop : ∀ s ∈ p.names.dropLast, IsName s :=
    fun s hs => isName_of_mem_names (List.dropLast_subset _ hs)
  obtain ⟨hnames, habs'⟩ := names_ofComponents hfront hdrop
  exact ⟨_, hparent, hnames, Bool.eq_iff_iff.mpr (habs'.trans habs.symm)⟩

/-! ## The names of a joined path -/

theorem splitSlashes_ne_nil (cs : List Char) : splitSlashes cs ≠ [] := by
  rw [splitSlashes_eq_splitOn]
  exact List.splitOn_ne_nil _ _

theorem splitSlashes_append (cs ds : List Char) :
    splitSlashes (cs ++ '/' :: ds) = splitSlashes cs ++ splitSlashes ds := by
  fun_induction splitSlashes cs with
  | case1 => rfl
  | case2 cs ih => rw [List.cons_append, splitSlashes, ih, List.cons_append]
  | case3 c cs hc part parts hsplit ih =>
    rw [List.cons_append, splitSlashes, ih, hsplit]
    · rfl
    · exact hc
  | case4 c cs hc hsplit ih => exact absurd hsplit (splitSlashes_ne_nil cs)

theorem namesOf_append (parts parts' : List (List Char)) :
    namesOf (parts ++ parts') = namesOf parts ++ namesOf parts' := by
  rw [namesOf, namesOf, namesOf, List.filter_append, List.map_append]

/-- A relative path is put behind a slash. -/
theorem exists_toList_join {p q : Path} (hp : p ≠ "") (hq : q.isAbsolute = false) :
    ∃ cs, (p.join q).toList = cs ++ '/' :: q.toList ∧ namesOf (splitSlashes cs) = p.names := by
  rw [join, if_neg (by simp [hq])]
  by_cases hslash : p.toList.getLast? = some '/'
  · obtain ⟨cs, hcs⟩ := List.getLast?_eq_some_iff.mp hslash
    refine ⟨cs, by simp [hcs], ?_⟩
    have hsplit : splitSlashes p.toList = splitSlashes cs ++ [[]] := by
      rw [hcs, splitSlashes_append]
      rfl
    change _ = namesOf (splitSlashes p.toList)
    rw [hsplit, namesOf_append]
    exact (List.append_nil _).symm
  · exact ⟨p.toList, by simp [hslash, hp], rfl⟩

theorem names_join {p q : Path} (hq : q.isAbsolute = false) :
    (p.join q).names = p.names ++ q.names := by
  by_cases hp : p = ""
  · subst hp
    simp [join, hq, Path.names, splitSlashes]
  · obtain ⟨cs, hjoin, hcs⟩ := exists_toList_join hp hq
    change namesOf (splitSlashes (p.join q).toList) = _
    rw [hjoin, splitSlashes_append, namesOf_append, hcs]
    rfl

theorem exists_names_join_parent {p q : Path} (h : q.names ≠ []) :
    ∃ parent, q.parent? = some parent ∧ (p.join parent).names = (p.join q).names.dropLast := by
  obtain ⟨parent, hparent, hnames, habs⟩ := exists_parent h
  refine ⟨parent, hparent, ?_⟩
  cases hq : q.isAbsolute with
  | true => rw [join, if_pos (habs.trans hq), hnames, join, if_pos hq]
  | false =>
    rw [names_join (habs.trans hq), hnames, names_join hq, List.dropLast_append_of_ne_nil h]

theorem isAbsolute_join {p : Path} (h : p.isAbsolute = true) (q : Path) :
    (p.join q).isAbsolute = true := by
  rw [join]
  split
  · assumption
  · have hp : p.toList.head? = some '/' := beq_iff_eq.mp h
    obtain ⟨cs, hcs⟩ := List.head?_eq_some_iff.mp hp
    split <;> simp [isAbsolute, hcs]

/-- The nearest path above a path is the path itself, in its normal form. -/
theorem head?_ancestors {p : Path} (h : p.components ≠ []) : p.ancestors.head? = some p.normal := by
  obtain ⟨n, hn⟩ : ∃ n, p.components.length = n + 1 :=
    Nat.exists_eq_succ_of_ne_zero (by simpa using h)
  rw [ancestors, hn, List.range_succ, List.reverse_append, List.reverse_singleton,
    List.singleton_append, List.map_cons, List.head?_cons, ← hn, List.take_length]
  rfl

end BehaviorIndex.Path

namespace BehaviorIndex

theorem fromUTF8?_toUTF8 (text : String) : String.fromUTF8? text.toUTF8 = some text :=
  dif_pos text.isValidUTF8

namespace SystemPath

theorem text?_eq_some_iff {p : SystemPath} {text : Path} :
    p.text? = some text ↔ p = ofText text := by
  constructor
  · intro h
    rw [text?, String.fromUTF8?] at h
    split at h
    · cases h
      rfl
    · cases h
  · rintro rfl
    exact fromUTF8?_toUTF8 text

end SystemPath

end BehaviorIndex

namespace BehaviorIndex.Settings.Indexing

theorem kindOf?_eq_of_normal_eq (i : Indexing) {p q : Path} (h : p.normal = q.normal) :
    i.kindOf? p = i.kindOf? q := by
  unfold kindOf? Path.extension? Path.fileName?
  rw [Path.components_eq_of_normal_eq h]

end BehaviorIndex.Settings.Indexing
