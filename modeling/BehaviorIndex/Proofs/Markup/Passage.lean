import BehaviorIndex.Markup.Document
import BehaviorIndex.Proofs.Markup.Tag
import BehaviorIndex.Proofs.Text.Search

/-!
# Passages without an angle bracket

`Passes cs rest` says that `rest` is what is left of `cs` behind a passage without `<`. What the
readers of names, space, attributes, tags, references and runs of character data take is such a
passage, so between the `<` of one tag and the `<` of the next there is no other.
-/

namespace BehaviorIndex.Markup

/-- What is left of `cs` behind a passage without `<`. -/
def Passes (cs rest : List Char) : Prop := ∃ passage, cs = passage ++ rest ∧ '<' ∉ passage

section

variable {c : Char} {cs mid rest : List Char}

theorem Passes.refl (cs : List Char) : Passes cs cs := ⟨[], rfl, by simp⟩

theorem Passes.trans (h : Passes cs mid) (h' : Passes mid rest) : Passes cs rest := by
  obtain ⟨first, rfl, hfirst⟩ := h
  obtain ⟨second, rfl, hsecond⟩ := h'
  exact ⟨first ++ second, by simp, by simp [hfirst, hsecond]⟩

theorem Passes.cons (hc : c ≠ '<') (h : Passes cs rest) : Passes (c :: cs) rest := by
  obtain ⟨passage, rfl, hpassage⟩ := h
  exact ⟨c :: passage, rfl, by simp [hc.symm, hpassage]⟩

theorem passes_append {p : Char → Bool} (hp : p '<' = false) {passage : List Char}
    (h : ∀ c ∈ passage, p c = true) (rest : List Char) : Passes (passage ++ rest) rest := by
  refine ⟨passage, rfl, fun hmem => ?_⟩
  exact absurd (h _ hmem) (by simp [hp])

theorem Passes.suffix (h : Passes cs rest) : rest <:+ cs := by
  obtain ⟨passage, rfl, -⟩ := h
  exact ⟨passage, rfl⟩

/-- A run of a class is passed over, if `<` is not of the class. -/
theorem passes_dropWhile {p : Char → Bool} (hp : p '<' = false) (cs : List Char) :
    Passes cs (cs.dropWhile p) := by
  induction cs with
  | nil => exact .refl []
  | cons c cs ih =>
    by_cases hc : p c = true
    · rw [List.dropWhile_cons_of_pos hc]
      refine .cons ?_ ih
      rintro rfl
      exact absurd hc (by simp [hp])
    · rw [List.dropWhile_cons_of_neg hc]
      exact .refl _

/-- A character of one class and the run of another class behind it are passed over. -/
theorem passes_cons_dropWhile {first p : Char → Bool} (hfirst : first '<' = false)
    (hp : p '<' = false) (hc : first c = true) (cs : List Char) :
    Passes (c :: cs) (cs.dropWhile p) := by
  refine .cons ?_ (passes_dropWhile hp cs)
  rintro rfl
  exact absurd hc (by simp [hfirst])

theorem passes_skipSpace (cs : List Char) : Passes cs (skipSpace cs) :=
  passes_dropWhile (by decide) cs

theorem passes_of_literal? {word : String} (hword : '<' ∉ word.toList)
    (h : literal? word cs = some rest) : Passes cs rest :=
  ⟨word.toList, Text.afterPrefix?_eq_some_iff.mp h, hword⟩

theorem passes_of_space? (h : space? cs = some rest) : Passes cs rest := by
  cases cs with
  | nil => cases h
  | cons c cs =>
    rw [space?] at h
    split at h
    · next hc =>
      cases h
      exact passes_cons_dropWhile (by decide) (by decide) hc cs
    · cases h

/-! ## Names and tags -/

theorem passes_of_name? {name : List Char} (h : name? cs = some (name, rest)) : Passes cs rest := by
  cases cs with
  | nil => cases h
  | cons c cs =>
    rw [name?] at h
    split at h
    · next hc =>
      cases h
      exact passes_cons_dropWhile (by decide) (by decide) hc cs
    · cases h

theorem passes_of_tagName? {name : List Char} (h : tagName? cs = some (name, rest)) :
    Passes cs rest := by
  cases cs with
  | nil => cases h
  | cons c cs =>
    rw [tagName?] at h
    split at h
    · next hc =>
      cases h
      exact passes_cons_dropWhile (by decide) (by decide) hc cs
    · cases h

theorem passes_of_quoted? {forbidden : Char → Bool} {raw : List Char} (hf : forbidden '<' = true)
    (h : quoted? forbidden cs = some (raw, rest)) : Passes cs rest := by
  obtain ⟨q, hq, rfl, -, hraw⟩ := quoted?_eq_some h
  have hne : q ≠ '<' := by
    rcases hq with rfl | rfl <;> decide
  refine .cons hne ⟨raw ++ [q], by simp, ?_⟩
  intro hmem
  rcases List.mem_append.mp hmem with hmem | hmem
  · exact absurd (hraw _ hmem) (by simp [hf])
  · exact hne (List.mem_singleton.mp hmem).symm

theorem passes_of_attribute? {a : String × String} (h : attribute? cs = some (a, rest)) :
    Passes cs rest := by
  obtain ⟨name, behind, value, raw, hname, hvalue, hraw, -⟩ := attribute?_eq_some h
  have hequals : Passes ('=' :: value) value := .cons (by decide) (.refl value)
  exact (passes_of_name? hname).trans ((hvalue ▸ passes_skipSpace behind).trans
    (hequals.trans ((passes_skipSpace value).trans (passes_of_quoted? (by decide) hraw))))

theorem passes_attributes (cs : List Char) : Passes cs (attributes cs).2 := by
  fun_induction attributes cs with
  | case1 cs => exact .refl cs
  | case2 cs => exact .refl cs
  | case3 cs r hs a behind ha as rest hrest ih =>
    rw [hrest] at ih
    exact (passes_of_space? hs).trans ((passes_of_attribute? ha).trans ih)

theorem passes_of_startTag? {t : StartTag} (h : startTag? cs = some (t, rest)) :
    Passes cs rest := by
  obtain ⟨behind, htag, -, hend⟩ := startTag?_eq_some h
  refine (passes_of_tagName? htag).trans ((passes_attributes behind).trans
    ((passes_skipSpace _).trans ?_))
  rcases hend with hend | hend <;> rw [hend]
  · exact .cons (by decide) (.cons (by decide) (.refl rest))
  · exact .cons (by decide) (.refl rest)

theorem passes_of_endTag? {name : List Char} (h : endTag? cs = some (name, rest)) :
    Passes cs rest := by
  rw [endTag?] at h
  split at h
  · cases h
  · next behind hname =>
    split at h
    · next hend =>
      cases h
      refine (passes_of_tagName? hname).trans ((hend ▸ passes_skipSpace behind).trans ?_)
      exact .cons (by decide) (.refl rest)
    · cases h

/-! ## References and character data -/

theorem passes_of_closedRun? {p : Char → Bool} (hp : p '<' = false) {run : List Char}
    (h : closedRun? p cs = some (run, rest)) : Passes cs rest := by
  rw [closedRun?] at h
  split at h
  · cases h
  · next hdrop _ =>
    cases h
    exact (hdrop ▸ passes_dropWhile hp cs).trans (.cons (by decide) (.refl rest))
  · cases h

theorem passes_of_reference? {body : List Char} (h : reference? cs = some (body, rest)) :
    Passes cs rest := by
  unfold reference? at h
  split at h
  · obtain ⟨⟨run, rest'⟩, hrun, h⟩ := Option.map_eq_some_iff.mp h
    cases h
    exact .cons (by decide) (.cons (by decide) (passes_of_closedRun? (by decide) hrun))
  · obtain ⟨⟨run, rest'⟩, hrun, h⟩ := Option.map_eq_some_iff.mp h
    cases h
    exact .cons (by decide) (passes_of_closedRun? (by decide) hrun)
  · split at h
    · next hname =>
      cases h
      exact (passes_of_name? hname).trans (.cons (by decide) (.refl rest))
    · cases h

/-! ## The declaration of the version -/

theorem passes_of_quotedRun? {p : Char → Char → Bool} {run : List Char}
    (h : quotedRun? p cs = some (run, rest)) (hrun : '<' ∉ run) : Passes cs rest := by
  cases cs with
  | nil => cases h
  | cons q cs =>
    rw [quotedRun?] at h
    split at h
    · next hq =>
      have hne : q ≠ '<' := by
        rintro rfl
        exact absurd hq (by decide)
      split at h
      · next d rest' hdrop =>
        split at h
        · next hd =>
          cases h
          have hsplit := List.takeWhile_append_dropWhile (p := fun c => c != q && p q c) (l := cs)
          obtain rfl : d = q := by simpa using hd
          refine .cons hne ⟨cs.takeWhile (fun c => c != d && p d c) ++ [d], ?_, ?_⟩
          · rw [List.append_assoc, List.singleton_append, ← hdrop, hsplit]
          · simp [hrun, hne.symm]
        · cases h
      · cases h
    · cases h

theorem passes_of_setting? {key : String} {valid : List Char → Bool} (hkey : '<' ∉ key.toList)
    (hvalid : ∀ value, valid value = true → '<' ∉ value) (h : setting? key valid cs = some rest) :
    Passes cs rest := by
  simp only [setting?, Option.bind_eq_bind, Option.bind_eq_some_iff, Prod.exists] at h
  obtain ⟨a, hspace, b, hliteral, c, hequals, value, d, hvalue, h⟩ := h
  split at h
  · next hv =>
    cases h
    exact (passes_of_space? hspace).trans ((passes_of_literal? hkey hliteral).trans
      ((passes_skipSpace b).trans ((passes_of_literal? (by decide) hequals).trans
        ((passes_skipSpace c).trans (passes_of_quotedRun? hvalue (hvalid value hv))))))
  · cases h

theorem notMem_of_all {p : Char → Bool} (hp : p '<' = false) (h : cs.all p = true) : '<' ∉ cs := by
  intro hmem
  exact absurd (List.all_eq_true.mp h _ hmem) (by simp [hp])

theorem notMem_of_isVersion {value : List Char} (h : isVersion value = true) : '<' ∉ value := by
  unfold isVersion at h
  split at h
  · have := notMem_of_all (by decide) (Bool.and_eq_true_iff.mp h).2
    simpa using this
  · cases h

theorem notMem_of_isEncoding {value : List Char} (h : isEncoding value = true) : '<' ∉ value := by
  cases value with
  | nil => cases h
  | cons c value =>
    rw [isEncoding, Bool.and_eq_true] at h
    have hc : '<' ≠ c := by
      rintro rfl
      exact absurd h.1 (by decide)
    have := notMem_of_all (by decide) h.2
    simp [hc, this]

theorem notMem_of_isStandalone {value : List Char} (h : isStandalone value = true) :
    '<' ∉ value := by
  simp only [isStandalone, Bool.or_eq_true, beq_iff_eq] at h
  rcases h with rfl | rfl <;> decide

theorem passes_getD_setting? {key : String} {valid : List Char → Bool} (hkey : '<' ∉ key.toList)
    (hvalid : ∀ value, valid value = true → '<' ∉ value) (cs : List Char) :
    Passes cs ((setting? key valid cs).getD cs) := by
  cases h : setting? key valid cs with
  | none => exact .refl cs
  | some rest => exact passes_of_setting? hkey hvalid h

/-- The only `<` of the declaration is its first character. -/
theorem passes_of_declaration? (h : declaration? cs = some rest) :
    ∃ behind, cs = '<' :: '?' :: behind ∧ Passes behind rest := by
  simp only [declaration?, Option.bind_eq_bind, Option.bind_eq_some_iff] at h
  obtain ⟨a, hopen, b, hversion, hclose⟩ := h
  obtain rfl : cs = '<' :: '?' :: 'x' :: 'm' :: 'l' :: a := Text.afterPrefix?_eq_some_iff.mp hopen
  refine ⟨_, rfl, .cons (by decide) (.cons (by decide) (.cons (by decide) ?_))⟩
  exact (passes_of_setting? (by decide) (fun _ => notMem_of_isVersion) hversion).trans
    ((passes_getD_setting? (by decide) (fun _ => notMem_of_isEncoding) b).trans
      ((passes_getD_setting? (by decide) (fun _ => notMem_of_isStandalone) _).trans
        ((passes_skipSpace _).trans (passes_of_literal? (by decide) hclose))))

end

end BehaviorIndex.Markup
