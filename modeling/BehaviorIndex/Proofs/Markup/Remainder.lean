import BehaviorIndex.Proofs.Markup.Passage
import Mathlib.Data.List.Infix

/-!
# What a reader leaves

Every reader takes its part from the start of a text, so what it leaves is an end of that text. For
the readers whose part holds no `<` this is a fact about passages; here are those of comments,
sections, instructions and document types, and with them all of the text before the root element
and of the tokens inside it.

**Theorems (`suffix_of_token?`, `suffix_skipProlog`).** What follows a token is an end of the text
from the token on, and what follows all that may stand before the root element is an end of the
document.
-/

namespace BehaviorIndex.Markup

variable {cs rest : List Char}

theorem suffix_of_literal? {word : String} (h : literal? word cs = some rest) : rest <:+ cs :=
  ⟨word.toList, (Text.afterPrefix?_eq_some_iff.mp h).symm⟩

theorem suffix_skipSpace (cs : List Char) : skipSpace cs <:+ cs := (passes_skipSpace cs).suffix

theorem suffix_of_space? (h : space? cs = some rest) : rest <:+ cs := (passes_of_space? h).suffix

/-- What an optional part leaves, if the part itself leaves an end of the text. -/
theorem suffix_getD {part : Option (List Char)} (h : ∀ rest, part = some rest → rest <:+ cs) :
    part.getD cs <:+ cs := by
  cases part with
  | none => exact List.suffix_rfl
  | some rest => exact h rest rfl

/-! ## Comments and character data -/

theorem suffix_of_commentRest? (h : commentRest? cs = some rest) : rest <:+ cs := by
  fun_induction commentRest? cs with
  | case1 => cases h
  | case2 rest' =>
    cases h
    exact ⟨['-', '-', '>'], rfl⟩
  | case3 => cases h
  | case4 c cs _ _ ih => exact (ih h).trans (List.suffix_cons c cs)

theorem suffix_of_comment? (h : comment? cs = some rest) : rest <:+ cs := by
  obtain ⟨body, hopen, h⟩ := Option.bind_eq_some_iff.mp h
  exact (suffix_of_commentRest? h).trans (suffix_of_literal? hopen)

theorem suffix_passOne (cs : List Char) : passOne cs <:+ cs := by
  cases cs with
  | nil => exact List.suffix_rfl
  | cons c cs =>
    rw [passOne]
    split
    · exact List.suffix_rfl
    · exact List.suffix_cons c cs

theorem suffix_of_strayClose? {begun : Bool} (h : strayClose? begun cs = some rest) :
    rest <:+ cs := by
  have hcons : ∀ (c : Char) {xs ys : List Char}, xs <:+ ys → xs <:+ c :: ys :=
    fun c _ _ hxs => hxs.trans (List.suffix_cons c _)
  fun_induction strayClose? begun cs with
  | case1 => cases h
  | case2 cs =>
    cases h
    exact hcons _ (hcons _ (List.suffix_cons _ _))
  | case3 _ cs _ ih => exact hcons _ (hcons _ (hcons _ ((ih h).trans (suffix_passOne cs))))
  | case4 _ cs _ ih => exact hcons _ (hcons _ ((ih h).trans (suffix_passOne cs)))
  | case5 _ cs _ _ ih => exact hcons _ ((ih h).trans (suffix_passOne cs))
  | case6 => cases h
  | case7 _ _ _ _ _ _ _ ih => exact hcons _ (ih h)

theorem suffix_of_characterData? {token : Token} (h : characterData? cs = some (token, rest)) :
    rest <:+ cs := by
  rw [characterData?] at h
  split at h
  · next behind hstray =>
    obtain ⟨rest', hcomment, h⟩ := Option.map_eq_some_iff.mp h
    cases h
    exact (suffix_of_comment? hcomment).trans (suffix_of_strayClose? hstray)
  · cases h
    exact List.dropWhile_suffix _

/-! ## Sections -/

theorem suffix_of_sectionScan? {begun : Bool} {text : List Char}
    (h : sectionScan? begun cs = some (text, rest)) : rest <:+ cs := by
  fun_induction sectionScan? begun cs generalizing text with
  | case1 => cases h
  | case2 _ c cs =>
    cases h
    exact ⟨[']', ']', c], rfl⟩
  | case3 _ c cs _ ih =>
    obtain ⟨⟨t, r⟩, hscan, h⟩ := Option.map_eq_some_iff.mp h
    cases h
    exact (ih hscan).trans ⟨[']', ']', c], rfl⟩
  | case4 _ c cs _ ih =>
    obtain ⟨⟨t, r⟩, hscan, h⟩ := Option.map_eq_some_iff.mp h
    cases h
    exact (ih hscan).trans ⟨[']', c], rfl⟩
  | case5 _ c cs _ _ ih =>
    obtain ⟨⟨t, r⟩, hscan, h⟩ := Option.map_eq_some_iff.mp h
    cases h
    exact (ih hscan).trans (List.suffix_cons c cs)

theorem suffix_of_sectionBody? {text : List Char} (h : sectionBody? cs = some (text, rest)) :
    rest <:+ cs := by
  rw [sectionBody?] at h
  split at h
  · next found hscan =>
    cases h
    exact suffix_of_sectionScan? hscan
  · obtain ⟨rest', hclose, h⟩ := Option.map_eq_some_iff.mp h
    cases h
    exact suffix_of_literal? hclose

/-! ## Instructions -/

theorem suffix_matchWord (word cs : List Char) : (matchWord word cs).2 <:+ cs := by
  fun_induction matchWord word cs with
  | case1 cs => exact List.suffix_rfl
  | case2 => exact List.suffix_rfl
  | case3 w ws c cs _ ih => exact ih.trans (List.suffix_cons c cs)
  | case4 => exact List.suffix_rfl

theorem suffix_of_reservedTarget? {outside : Bool} (h : reservedTarget? outside cs = some rest) :
    rest <:+ cs := by
  unfold reservedTarget? at h
  split at h
  · next l cs' =>
    refine List.IsSuffix.trans ?_ (List.suffix_cons l cs')
    split at h
    · split at h
      · next c cs =>
        refine List.IsSuffix.trans ?_ (List.suffix_cons c cs)
        split at h
        · cases h
        · split at h
          · simp only at h
            split at h
            · cases h
            · cases h
              calc List.drop 1 _ <:+ _ := List.drop_suffix 1 _
                _ <:+ _ := suffix_matchWord _ _
                _ <:+ cs := suffix_matchWord _ cs
          · cases h
            exact List.drop_suffix 1 cs
      · cases h
    · cases h
      exact List.suffix_rfl
  · cases h
    exact List.suffix_rfl

theorem suffix_of_target? {outside : Bool} (h : target? outside cs = some rest) : rest <:+ cs := by
  cases cs with
  | nil => cases h
  | cons c cs =>
    simp only [target?] at h
    split at h
    · cases h
    · obtain ⟨scanned, hscanned, rfl⟩ := Option.map_eq_some_iff.mp h
      have hsuffix : scanned <:+ cs := by
        split at hscanned
        · next m cs' =>
          split at hscanned
          · exact (suffix_of_reservedTarget? hscanned).trans (List.suffix_cons m cs')
          · cases hscanned
            exact List.suffix_rfl
        · cases hscanned
          exact List.suffix_rfl
      calc scanned.dropWhile isNameChar <:+ scanned := List.dropWhile_suffix _
        _ <:+ cs := hsuffix
        _ <:+ c :: cs := List.suffix_cons c cs

theorem suffix_of_instructionContent? (h : instructionContent? cs = some rest) : rest <:+ cs := by
  rw [instructionContent?] at h
  split at h
  · next rest' hdrop =>
    split at h
    · cases h
      calc rest <:+ '?' :: '>' :: rest := ⟨['?', '>'], rfl⟩
        _ <:+ cs := hdrop ▸ List.dropWhile_suffix _
    · cases h
  · cases h

theorem suffix_of_attributed? (h : attributed? cs = some rest) : rest <:+ cs :=
  calc rest <:+ skipSpace (attributes cs).2 := suffix_of_literal? h
    _ <:+ (attributes cs).2 := suffix_skipSpace _
    _ <:+ cs := (passes_attributes cs).suffix

theorem suffix_of_instruction? {outside : Bool} (h : instruction? outside cs = some rest) :
    rest <:+ cs := by
  rw [instruction?] at h
  split at h
  · next behind hreserved =>
    refine (suffix_of_attributed? h).trans ?_
    split at hreserved
    · rw [Option.orElse_eq_orElse, Option.orElse_eq_or, Option.or_eq_some_iff] at hreserved
      rcases hreserved with hword | ⟨-, hword⟩
      · exact suffix_of_literal? hword
      · exact suffix_of_literal? hword
    · cases hreserved
  · obtain ⟨behind, htarget, h⟩ := Option.bind_eq_some_iff.mp h
    refine List.IsSuffix.trans ?_ (suffix_of_target? htarget)
    split at h
    · next hclose =>
      cases h
      exact suffix_of_literal? hclose
    · obtain ⟨content, hspace, h⟩ := Option.bind_eq_some_iff.mp h
      exact (suffix_of_instructionContent? h).trans (suffix_of_space? hspace)

/-! ## Tokens -/

theorem suffix_of_token? {token : Token} (h : token? cs = some (token, rest)) : rest <:+ cs := by
  unfold token? at h
  split at h
  · cases h
  · next behind =>
    obtain ⟨⟨name, rest'⟩, hend, h⟩ := Option.map_eq_some_iff.mp h
    cases h
    exact (passes_of_endTag? hend).suffix.trans ⟨['<', '/'], rfl⟩
  · next behind =>
    refine List.IsSuffix.trans ?_ ⟨['<', '!'], rfl⟩
    split at h
    · next body hopen =>
      obtain ⟨rest', hbody, h⟩ := Option.map_eq_some_iff.mp h
      cases h
      exact (suffix_of_commentRest? hbody).trans (suffix_of_literal? hopen)
    · obtain ⟨⟨text, rest'⟩, hsection, h⟩ := Option.map_eq_some_iff.mp h
      cases h
      obtain ⟨body, hopen, hbody⟩ := Option.bind_eq_some_iff.mp hsection
      exact (suffix_of_sectionBody? hbody).trans (suffix_of_literal? hopen)
  · next behind =>
    obtain ⟨rest', hinstruction, h⟩ := Option.map_eq_some_iff.mp h
    cases h
    exact (suffix_of_instruction? hinstruction).trans ⟨['<', '?'], rfl⟩
  · next behind _ _ _ =>
    obtain ⟨⟨t, rest'⟩, hstart, h⟩ := Option.map_eq_some_iff.mp h
    cases h
    exact (passes_of_startTag? hstart).suffix.trans (List.suffix_cons _ _)
  · next behind =>
    obtain ⟨⟨body, rest'⟩, hbody, h⟩ := Option.map_eq_some_iff.mp h
    cases h
    exact (passes_of_reference? hbody).suffix.trans (List.suffix_cons _ _)
  · exact suffix_of_characterData? h

/-! ## Before the root element -/

theorem suffix_of_quotedRun? {p : Char → Char → Bool} {run : List Char}
    (h : quotedRun? p cs = some (run, rest)) : rest <:+ cs := by
  cases cs with
  | nil => cases h
  | cons q cs =>
    rw [quotedRun?] at h
    split at h
    · split at h
      · next c behind hdrop =>
        split at h
        · cases h
          calc rest <:+ c :: rest := List.suffix_cons c rest
            _ <:+ cs := hdrop ▸ List.dropWhile_suffix _
            _ <:+ q :: cs := List.suffix_cons q cs
        · cases h
      · cases h
    · cases h

theorem suffix_of_systemLiteral? (h : systemLiteral? cs = some rest) : rest <:+ cs := by
  obtain ⟨⟨run, rest'⟩, hrun, rfl⟩ := Option.map_eq_some_iff.mp h
  exact suffix_of_quotedRun? hrun

theorem suffix_of_publicLiteral? (h : publicLiteral? cs = some rest) : rest <:+ cs := by
  obtain ⟨⟨run, rest'⟩, hrun, rfl⟩ := Option.map_eq_some_iff.mp h
  exact suffix_of_quotedRun? hrun

theorem suffix_of_externalId? (h : externalId? cs = some rest) : rest <:+ cs := by
  rw [externalId?] at h
  split at h
  · next a hopen =>
    obtain ⟨b, hspace, h⟩ := Option.bind_eq_some_iff.mp h
    calc rest <:+ b := suffix_of_systemLiteral? h
      _ <:+ a := suffix_of_space? hspace
      _ <:+ cs := suffix_of_literal? hopen
  · simp only [Option.bind_eq_bind, Option.bind_eq_some_iff] at h
    obtain ⟨a, hopen, b, hb, c, hc, d, hd, h⟩ := h
    calc rest <:+ d := suffix_of_systemLiteral? h
      _ <:+ c := suffix_of_space? hd
      _ <:+ b := suffix_of_publicLiteral? hc
      _ <:+ a := suffix_of_space? hb
      _ <:+ cs := suffix_of_literal? hopen

theorem suffix_of_spacedName? (h : spacedName? cs = some rest) : rest <:+ cs := by
  simp only [spacedName?, Option.bind_eq_bind, Option.bind_eq_some_iff, Prod.exists,
    Option.some.injEq] at h
  obtain ⟨a, ha, name, _, hname, rfl⟩ := h
  exact (passes_of_name? hname).suffix.trans (suffix_of_space? ha)

theorem suffix_of_spacedWord? {words : List String} (h : spacedWord? words cs = some rest) :
    rest <:+ cs := by
  simp only [spacedWord?, Option.bind_eq_bind, Option.bind_eq_some_iff] at h
  obtain ⟨a, ha, h⟩ := h
  obtain ⟨word, -, hword⟩ := List.exists_of_findSome?_eq_some h
  exact (suffix_of_literal? hword).trans (suffix_of_space? ha)

theorem suffix_of_contentModel? (h : contentModel? cs = some rest) : rest <:+ cs := by
  simp only [contentModel?, Option.orElse_eq_orElse, Option.orElse_eq_or, Option.or_eq_some_iff,
    Option.bind_eq_bind, Option.bind_eq_some_iff] at h
  rcases h with h | ⟨-, h | ⟨-, a, ha, b, hb, h⟩⟩
  · exact suffix_of_literal? h
  · exact suffix_of_literal? h
  · calc rest <:+ skipSpace b := suffix_of_literal? h
      _ <:+ b := suffix_skipSpace b
      _ <:+ skipSpace a := suffix_of_literal? hb
      _ <:+ a := suffix_skipSpace a
      _ <:+ cs := suffix_of_literal? ha

theorem suffix_of_elementDecl? (h : elementDecl? cs = some rest) : rest <:+ cs := by
  simp only [elementDecl?, Option.bind_eq_bind, Option.bind_eq_some_iff] at h
  obtain ⟨a, ha, b, hb, c, hc, d, hd, h⟩ := h
  calc rest <:+ skipSpace d := suffix_of_literal? h
    _ <:+ d := suffix_skipSpace d
    _ <:+ c := suffix_of_contentModel? hd
    _ <:+ b := suffix_of_space? hc
    _ <:+ a := suffix_of_spacedName? hb
    _ <:+ cs := suffix_of_literal? ha

theorem suffix_of_entityDecl? (h : entityDecl? cs = some rest) : rest <:+ cs := by
  simp only [entityDecl?, Option.bind_eq_bind, Option.bind_eq_some_iff, Prod.exists] at h
  obtain ⟨a, ha, b, hb, c, hc, _, d, hd, h⟩ := h
  calc rest <:+ skipSpace d := suffix_of_literal? h
    _ <:+ d := suffix_skipSpace d
    _ <:+ c := (passes_of_quoted? (by decide) hd).suffix
    _ <:+ b := suffix_of_space? hc
    _ <:+ a := suffix_of_spacedName? hb
    _ <:+ cs := suffix_of_literal? ha

theorem suffix_of_attributeDecl? (h : attributeDecl? cs = some rest) : rest <:+ cs := by
  simp only [attributeDecl?, Option.bind_eq_bind, Option.bind_eq_some_iff] at h
  obtain ⟨a, ha, b, hb, c, hc, d, hd, e, he, h⟩ := h
  calc rest <:+ skipSpace e := suffix_of_literal? h
    _ <:+ e := suffix_skipSpace e
    _ <:+ d := suffix_of_spacedWord? he
    _ <:+ c := suffix_of_spacedWord? hd
    _ <:+ b := suffix_of_spacedName? hc
    _ <:+ a := suffix_of_spacedName? hb
    _ <:+ cs := suffix_of_literal? ha

theorem suffix_of_innerItem? (h : innerItem? cs = some rest) : rest <:+ cs := by
  simp only [innerItem?, Option.orElse_eq_orElse, Option.orElse_eq_or, Option.or_eq_some_iff,
    Option.bind_eq_some_iff] at h
  rcases h with h | ⟨-, ⟨a, ha, h⟩ | ⟨-, h | ⟨-, h | ⟨-, h⟩⟩⟩⟩
  · exact suffix_of_comment? h
  · exact (suffix_of_instruction? h).trans (suffix_of_literal? ha)
  · exact suffix_of_elementDecl? h
  · exact suffix_of_entityDecl? h
  · exact suffix_of_attributeDecl? h

theorem suffix_of_separator? (h : separator? cs = some rest) : rest <:+ cs := by
  simp only [separator?, Option.orElse_eq_orElse, Option.orElse_eq_or, Option.or_eq_some_iff,
    Option.bind_eq_bind, Option.bind_eq_some_iff, Prod.exists] at h
  rcases h with h | ⟨-, a, ha, name, b, hname, h⟩
  · exact suffix_of_space? h
  · calc rest <:+ b := suffix_of_literal? h
      _ <:+ a := (passes_of_name? hname).suffix
      _ <:+ cs := suffix_of_literal? ha

theorem suffix_innerItems (cs : List Char) : innerItems cs <:+ cs := by
  fun_induction innerItems cs with
  | case1 cs => exact List.suffix_rfl
  | case2 cs => exact List.suffix_rfl
  | case3 cs behind hitem rest hseparator ih =>
    calc innerItems (skipSpace rest) <:+ skipSpace rest := ih
      _ <:+ rest := suffix_skipSpace rest
      _ <:+ behind := suffix_of_separator? hseparator
      _ <:+ cs := suffix_of_innerItem? hitem

theorem suffix_of_innerList? (h : innerList? cs = some rest) : rest <:+ cs := by
  simp only [innerList?, Option.bind_eq_bind, Option.bind_eq_some_iff] at h
  obtain ⟨a, ha, h⟩ := h
  calc rest <:+ innerItems (skipSpace a) := suffix_of_literal? h
    _ <:+ skipSpace a := suffix_innerItems _
    _ <:+ a := suffix_skipSpace a
    _ <:+ cs := suffix_of_literal? ha

theorem suffix_of_doctype? (h : doctype? cs = some rest) : rest <:+ cs := by
  simp only [doctype?, Option.bind_eq_bind, Option.bind_eq_some_iff] at h
  obtain ⟨a, ha, b, hb, h⟩ := h
  have hexternal : ((space? b).bind externalId?).getD b <:+ b := by
    refine suffix_getD fun r hr => ?_
    obtain ⟨c, hc, hr⟩ := Option.bind_eq_some_iff.mp hr
    exact (suffix_of_externalId? hr).trans (suffix_of_space? hc)
  have hlist : ∀ cs, ((innerList? cs).map skipSpace).getD cs <:+ cs := by
    refine fun cs => suffix_getD fun r hr => ?_
    obtain ⟨c, hc, rfl⟩ := Option.map_eq_some_iff.mp hr
    exact (suffix_skipSpace c).trans (suffix_of_innerList? hc)
  calc rest <:+ _ := suffix_of_literal? h
    _ <:+ _ := hlist _
    _ <:+ _ := suffix_skipSpace _
    _ <:+ b := hexternal
    _ <:+ a := suffix_of_spacedName? hb
    _ <:+ cs := suffix_of_literal? ha

theorem suffix_of_declaration? (h : declaration? cs = some rest) : rest <:+ cs := by
  obtain ⟨behind, rfl, hpasses⟩ := passes_of_declaration? h
  exact hpasses.suffix.trans ⟨['<', '?'], rfl⟩

theorem suffix_of_aside? (h : aside? cs = some rest) : rest <:+ cs := by
  rw [aside?, Option.orElse_eq_orElse, Option.orElse_eq_or, Option.or_eq_some_iff] at h
  rcases h with h | ⟨-, h⟩
  · exact suffix_of_comment? h
  · obtain ⟨a, ha, h⟩ := Option.bind_eq_some_iff.mp h
    exact (suffix_of_instruction? h).trans (suffix_of_literal? ha)

theorem suffix_skipAsides (cs : List Char) : skipAsides cs <:+ cs := by
  fun_induction skipAsides cs with
  | case1 cs rest haside ih =>
    calc skipAsides rest <:+ rest := ih
      _ <:+ skipSpace cs := suffix_of_aside? haside
      _ <:+ cs := suffix_skipSpace cs
  | case2 cs => exact suffix_skipSpace cs

theorem suffix_skipProlog (cs : List Char) : skipProlog cs <:+ cs := by
  have hstart : skipAsides ((declaration? (skipSpace cs)).getD (skipSpace cs)) <:+ cs :=
    calc skipAsides _ <:+ _ := suffix_skipAsides _
      _ <:+ skipSpace cs := suffix_getD fun _ h => suffix_of_declaration? h
      _ <:+ cs := suffix_skipSpace cs
  simp only [skipProlog]
  split
  · next rest hdoctype =>
    calc skipAsides rest <:+ rest := suffix_skipAsides rest
      _ <:+ _ := suffix_of_doctype? hdoctype
      _ <:+ cs := hstart
  · exact hstart

end BehaviorIndex.Markup
