import BehaviorIndex.Proofs.Markup.Matching

/-!
# Comments are not seen

A *gap* of a document is a place inside the root element where a token begins: right behind a start
tag, between two items of an element, or right before an end tag. A comment may be put into any of
them.

**Theorem (`parse_insert_comment`).** If a document without instructions and document type has a
tree, then it has the same tree with a comment in one of its gaps. The comment must not hold a
bracket, because a bracket in it can end a section that the reader otherwise takes for an empty one.

The two texts are read side by side (`Inserted`). Every token in front of the gap is the same in
both (`token?_insert`), at the gap the comment is read alone, and behind it the texts are equal.
What changes is the count of line ends, but that is noted only for stray end tags, and the elements
of a tree have none (`Element.Exact`).
-/

namespace BehaviorIndex.Markup

/-! ## Gaps -/

/-- How many elements inside the root are open behind a token, if the root is. -/
def openBehind? (depth : Nat) : Token → Option Nat
  | .text _ | .silent => some depth
  | .start t => some (if t.selfClosing then depth else depth + 1)
  | .close _ => match depth with
    | 0 => none
    | depth + 1 => some depth

/-- The text from each gap on, in what is left of the content of an element, when `depth` elements
inside it are open. -/
def gapsFrom (depth : Nat) (cs : List Char) : List (List Char) :=
  match _h : token? cs with
  | none => []
  | some (token, rest) =>
    cs :: match openBehind? depth token with
      | none => []
      | some depth => gapsFrom depth rest
termination_by cs.length
decreasing_by exact length_of_token? _h

/-- The text from each gap on, of the element at the start of a text. -/
def elementGaps : List Char → List (List Char)
  | '<' :: cs =>
    match startTag? cs with
    | none => []
    | some (t, rest) => if t.selfClosing then [] else gapsFrom 0 rest
  | _ => []

/-- The text from each gap of a document on. -/
def gaps (cs : List Char) : List (List Char) := elementGaps (skipProlog (skipMark cs))

section

variable {depth depth' : Nat} {cs gap rest : List Char} {token : Token}

theorem gapsFrom_eq_nil (h : token? cs = none) : gapsFrom depth cs = [] := by
  rw [gapsFrom]
  split
  · rfl
  · next h' => cases h.symm.trans h'

theorem mem_gapsFrom_iff (h : token? cs = some (token, rest)) :
    gap ∈ gapsFrom depth cs ↔
      gap = cs ∨ ∃ depth', openBehind? depth token = some depth' ∧ gap ∈ gapsFrom depth' rest := by
  rw [gapsFrom]
  split
  · next hnone => cases h.symm.trans hnone
  · next token' rest' h' =>
    cases h.symm.trans h'
    rw [List.mem_cons]
    cases openBehind? depth token <;> simp

end

theorem suffix_of_mem_gapsFrom {depth : Nat} {cs gap : List Char} (h : gap ∈ gapsFrom depth cs) :
    gap <:+ cs := by
  cases htoken : token? cs with
  | none =>
    rw [gapsFrom_eq_nil htoken] at h
    cases h
  | some read =>
    obtain ⟨token, rest⟩ := read
    have hshorter := length_of_token? htoken
    obtain rfl | ⟨depth', -, hrest⟩ := (mem_gapsFrom_iff htoken).mp h
    · exact List.suffix_rfl
    · exact (suffix_of_mem_gapsFrom hrest).trans (suffix_of_token? htoken)
termination_by cs.length

/-- No gap stands behind a bracket within character data. -/
theorem apart_of_mem_gapsFrom {depth : Nat} {front after : List Char}
    (hplain : ∀ gap ∈ gapsFrom depth (front ++ after), ¬ ['<', '?'] <+: gap)
    (h : after ∈ gapsFrom depth (front ++ after)) : Apart front after := by
  cases htoken : token? (front ++ after) with
  | none =>
    rw [gapsFrom_eq_nil htoken] at h
    cases h
  | some read =>
    obtain ⟨token, rest⟩ := read
    have hhere := hplain _ ((mem_gapsFrom_iff htoken).mpr (.inl rfl))
    obtain hafter | ⟨depth', hopen, hrest⟩ := (mem_gapsFrom_iff htoken).mp h
    · obtain rfl : front = [] := by simpa using hafter.symm
      exact fun hlast => nomatch hlast
    · obtain ⟨behind, rfl⟩ := suffix_of_mem_gapsFrom hrest
      have hshorter : behind.length < front.length := by simpa using length_of_token? htoken
      obtain ⟨passage, hpassage⟩ := suffix_of_token? htoken
      have hfront : front = passage ++ behind :=
        List.append_cancel_right (hpassage.symm.trans (List.append_assoc ..).symm)
      have hplain' : ∀ gap ∈ gapsFrom depth' (behind ++ after), ¬ ['<', '?'] <+: gap :=
        fun gap hgap => hplain gap ((mem_gapsFrom_iff htoken).mpr (.inr ⟨depth', hopen, hgap⟩))
      have hbehind := apart_of_mem_gapsFrom hplain' hrest
      cases behind with
      | nil => exact apart_of_token? hhere htoken
      | cons c behind =>
        intro hlast
        rw [hfront, List.getLast?_append_of_ne_nil _ (by simp)] at hlast
        exact hbehind hlast
termination_by front.length

/-! ## Comments -/

/-- The text of a comment. -/
def comment (body : List Char) : List Char := '<' :: '!' :: '-' :: '-' :: (body ++ ['-', '-', '>'])

/-- What a comment may hold without changing how the text around it is read. -/
structure IsCommentBody (body : List Char) : Prop where
  dashes : ¬ ['-', '-'] <:+: body
  last : body.getLast? ≠ some '-'
  bracket : ']' ∉ body

theorem commentRest?_append {body : List Char} (hdashes : ¬ ['-', '-'] <:+: body)
    (hlast : body.getLast? ≠ some '-') (rest : List Char) :
    commentRest? (body ++ '-' :: '-' :: '>' :: rest) = some rest := by
  induction body with
  | nil => rfl
  | cons c body ih =>
    have hnext : ∀ tail, c = '-' → body ++ '-' :: '-' :: '>' :: rest = '-' :: tail → False := by
      rintro tail rfl htail
      cases body with
      | nil => exact hlast rfl
      | cons d body =>
        cases htail
        exact hdashes ⟨[], body, rfl⟩
    rw [List.cons_append, commentRest?]
    · refine ih (fun h => hdashes (h.trans (List.suffix_cons c body).isInfix)) fun h => hlast ?_
      cases body with
      | nil => cases h
      | cons d body => simpa using h
    · exact fun tail hc htail => hnext _ hc htail
    · exact hnext

theorem IsCommentBody.token?_comment_append {body : List Char} (h : IsCommentBody body)
    (rest : List Char) : token? (comment body ++ rest) = some (.silent, rest) := by
  have hread := token?_comment (commentRest?_append h.dashes h.last rest)
  simpa [comment] using hread

theorem IsCommentBody.notMem_comment {body : List Char} (h : IsCommentBody body) :
    ']' ∉ comment body := by
  simp [comment, h.bracket]

/-! ## Elements without stray end tags -/

/-- Neither the element nor one inside it has a stray end tag. -/
inductive Element.Exact : Element → Prop
  | mk {tag : String} {as : Attributes} {items : List Item}
      (inner : ∀ e, .element e ∈ items → e.Exact) : Exact (.mk tag as items none)

theorem Element.sizeOf_lt_of_mem_items {e inner : Element} (h : .element inner ∈ e.items) :
    sizeOf inner < sizeOf e := by
  obtain ⟨tag, as, items, stray⟩ := e
  have hlt := List.sizeOf_lt_of_mem (show Item.element inner ∈ items from h)
  simp only [Item.element.sizeOf_spec] at hlt
  simp only [Element.mk.sizeOf_spec]
  omega

theorem Element.exact_of_fault? {depth : Nat} {e : Element} (h : e.fault? depth = none) :
    e.Exact := by
  cases hmk : e with
  | mk tag as items stray =>
    rw [hmk] at h
    obtain ⟨hitems, rfl⟩ := fault?_mk_eq_none h
    refine .mk fun inner hinner => ?_
    have hsmaller : sizeOf inner < sizeOf e := sizeOf_lt_of_mem_items (by rw [hmk]; exact hinner)
    exact exact_of_fault? (fault?_of_mem_items hitems hinner)
termination_by sizeOf e

/-- What was read of an open element has no stray end tag. -/
def Frame.Exact (f : Frame) : Prop := ∀ e, .element e ∈ f.items → e.Exact

theorem Frame.Exact.of_add {f : Frame} {item : Item} (h : (f.add item).Exact) : f.Exact :=
  fun e he => h e (List.mem_cons_of_mem _ he)

theorem Frame.exact_of_toElement {f : Frame} {stray : Option StrayEnd}
    (h : (f.toElement stray).Exact) : f.Exact ∧ stray = none := by
  cases h with
  | mk inner => exact ⟨fun e he => inner e (List.mem_reverse.mpr he), rfl⟩

/-- **Reading content.** If the element that is read has no stray end tag, then the open elements
have none. -/
theorem exact_of_readContent? {lineEnds : Nat} {top : Frame} {outer : List Frame}
    {cs rest : List Char} {root : Element} (hroot : root.Exact)
    (h : readContent? lineEnds top outer cs = some (root, rest)) :
    ∀ f ∈ top :: outer, f.Exact := by
  cases htoken : token? cs with
  | none =>
    rw [readContent?_eq_none htoken] at h
    cases h
  | some read =>
    obtain ⟨token, mid⟩ := read
    have hshorter := length_of_token? htoken
    have hadd : ∀ item, (∀ f ∈ top.add item :: outer, f.Exact) → ∀ f ∈ top :: outer, f.Exact := by
      intro item hall
      obtain ⟨htop, houter⟩ := List.forall_mem_cons.mp hall
      exact List.forall_mem_cons.mpr ⟨htop.of_add, houter⟩
    cases token with
    | text t =>
      rw [readContent?_text htoken] at h
      exact hadd _ (exact_of_readContent? hroot h)
    | silent =>
      rw [readContent?_silent htoken] at h
      exact exact_of_readContent? hroot h
    | start t =>
      rw [readContent?_start htoken] at h
      split at h
      · exact hadd _ (exact_of_readContent? hroot h)
      · exact (List.forall_mem_cons.mp (exact_of_readContent? hroot h)).2
    | close name =>
      rw [readContent?_close htoken] at h
      split at h
      · cases outer with
        | nil =>
          cases h
          exact List.forall_mem_singleton.mpr (Frame.exact_of_toElement hroot).1
        | cons f outer =>
          obtain ⟨hf, houter⟩ := List.forall_mem_cons.mp (exact_of_readContent? hroot h)
          have htop := (Frame.exact_of_toElement (hf _ List.mem_cons_self)).1
          exact List.forall_mem_cons.mpr ⟨htop, List.forall_mem_cons.mpr ⟨hf.of_add, houter⟩⟩
      · cases h
termination_by cs.length

/-! ## Reading side by side -/

/-- The second text is the first one, perhaps with something in one of its gaps, and no instruction
begins in the gaps. -/
def Inserted (more : List Char) (depth : Nat) (cs cs' : List Char) : Prop :=
  cs' = cs ∨ ∃ front after, cs = front ++ after ∧ cs' = front ++ (more ++ after) ∧
    after ∈ gapsFrom depth cs ∧ ∀ gap ∈ gapsFrom depth cs, ¬ ['<', '?'] <+: gap

/-- **One token.** Either the comment is next, or both texts begin with the same token and differ no
more behind it. -/
theorem Inserted.step {body cs cs' rest : List Char} {depth : Nat} {token : Token}
    (hbody : IsCommentBody body) (h : Inserted (comment body) depth cs cs')
    (htoken : token? cs = some (token, rest)) :
    cs' = comment body ++ cs ∨ ∃ rest', token? cs' = some (token, rest') ∧
      (openBehind? depth token = none → rest' = rest) ∧
      ∀ depth', openBehind? depth token = some depth' →
        Inserted (comment body) depth' rest rest' := by
  obtain rfl | ⟨front, after, rfl, rfl, hgap, hplain⟩ := h
  · exact .inr ⟨rest, htoken, fun _ => rfl, fun _ _ => .inl rfl⟩
  · obtain hafter | ⟨depth', hopen, hrest⟩ := (mem_gapsFrom_iff htoken).mp hgap
    · obtain rfl : front = [] := by simpa using hafter.symm
      exact .inl rfl
    · obtain ⟨behind, rfl⟩ := suffix_of_mem_gapsFrom hrest
      have hhere := hplain _ ((mem_gapsFrom_iff htoken).mpr (.inl rfl))
      have hapart := apart_of_mem_gapsFrom hplain hgap
      refine .inr ⟨_, token?_insert hhere hbody.notMem_comment hapart htoken, ?_, ?_⟩
      · intro hnone
        rw [hopen] at hnone
        cases hnone
      · intro depth'' hopen'
        cases hopen.symm.trans hopen'
        refine .inr ⟨behind, after, rfl, rfl, hrest, fun gap hgap => hplain gap ?_⟩
        exact (mem_gapsFrom_iff htoken).mpr (.inr ⟨depth', hopen, hgap⟩)

theorem strayEnd?_eq_none {lineEnds lineEnds' : Nat} {tag name cs cs' : List Char}
    (h : strayEnd? lineEnds tag name cs = none) : strayEnd? lineEnds' tag name cs' = none := by
  rw [strayEnd?] at h ⊢
  split at h
  · next heq => rw [if_pos heq]
  · cases h

/-- **Reading content.** The comment changes nothing, and neither does the number of line ends. -/
theorem readContent?_of_inserted {lineEnds lineEnds' : Nat} {top : Frame} {outer : List Frame}
    {body cs cs' rest : List Char} {root : Element} (hbody : IsCommentBody body)
    (hinserted : Inserted (comment body) outer.length cs cs') (hroot : root.Exact)
    (h : readContent? lineEnds top outer cs = some (root, rest)) :
    readContent? lineEnds' top outer cs' = some (root, rest) := by
  cases htoken : token? cs with
  | none =>
    rw [readContent?_eq_none htoken] at h
    cases h
  | some read =>
    obtain ⟨token, mid⟩ := read
    obtain rfl | ⟨mid', htoken', hclosed, hopen⟩ := hinserted.step hbody htoken
    · have hcomment := hbody.token?_comment_append cs
      have hshorter := length_of_token? hcomment
      rw [readContent?_silent hcomment]
      exact readContent?_of_inserted hbody (.inl rfl) hroot h
    · have hshorter := length_of_token? htoken'
      cases token with
      | text t =>
        rw [readContent?_text htoken] at h
        rw [readContent?_text htoken']
        exact readContent?_of_inserted hbody (hopen _ rfl) hroot h
      | silent =>
        rw [readContent?_silent htoken] at h
        rw [readContent?_silent htoken']
        exact readContent?_of_inserted hbody (hopen _ rfl) hroot h
      | start t =>
        rw [readContent?_start htoken] at h
        rw [readContent?_start htoken']
        have hmid := hopen _ rfl
        split at h
        · next hself =>
          rw [if_pos hself] at hmid ⊢
          exact readContent?_of_inserted hbody hmid hroot h
        · next hself =>
          rw [if_neg hself] at hmid ⊢
          exact readContent?_of_inserted hbody hmid hroot h
      | close name =>
        rw [readContent?_close htoken] at h
        rw [readContent?_close htoken']
        split at h
        · next hname =>
          rw [if_pos hname]
          cases outer with
          | nil =>
            cases h
            have hstray := (Frame.exact_of_toElement hroot).2
            simp only [hstray, strayEnd?_eq_none hstray, hclosed rfl]
          | cons f outer =>
            obtain ⟨hf, -⟩ := List.forall_mem_cons.mp (exact_of_readContent? hroot h)
            have hstray := (Frame.exact_of_toElement (hf _ List.mem_cons_self)).2
            simp only [hstray] at h
            simp only [strayEnd?_eq_none hstray]
            exact readContent?_of_inserted hbody (hopen _ rfl) hroot h
        · cases h
termination_by cs'.length

/-! ## The root element -/

theorem exists_content_of_mem_elementGaps {cs gap : List Char} (h : gap ∈ elementGaps cs) :
    ∃ behind t content, cs = '<' :: behind ∧ startTag? behind = some (t, content) ∧
      t.selfClosing = false ∧ elementGaps cs = gapsFrom 0 content := by
  unfold elementGaps at h ⊢
  split at h
  · next behind =>
    split at h
    · cases h
    · next t content hstart =>
      split at h
      · cases h
      · next hself =>
        refine ⟨behind, t, content, rfl, hstart, by simpa using hself, ?_⟩
        simp only [if_neg hself]
  · cases h

theorem suffix_of_mem_elementGaps {cs gap : List Char} (h : gap ∈ elementGaps cs) : gap <:+ cs := by
  obtain ⟨behind, t, content, rfl, hstart, -, hgaps⟩ := exists_content_of_mem_elementGaps h
  rw [hgaps] at h
  calc gap <:+ content := suffix_of_mem_gapsFrom h
    _ <:+ behind := (passes_of_startTag? hstart).suffix
    _ <:+ '<' :: behind := List.suffix_cons _ _

theorem element?_insert {lineEnds lineEnds' : Nat} {body front after rest : List Char}
    {root : Element} (hbody : IsCommentBody body) (hgap : after ∈ elementGaps (front ++ after))
    (hplain : ∀ gap ∈ elementGaps (front ++ after), ¬ ['<', '?'] <+: gap) (hroot : root.Exact)
    (h : element? lineEnds (front ++ after) = some (root, rest)) :
    element? lineEnds' (front ++ (comment body ++ after)) = some (root, rest) := by
  obtain ⟨behind, t, content, hcs, hstart, hself, hgaps⟩ := exists_content_of_mem_elementGaps hgap
  rw [hgaps] at hgap hplain
  obtain ⟨tag, last, -, rfl, htake⟩ := takes_of_startTag? hstart
  obtain ⟨inner, rfl⟩ := suffix_of_mem_gapsFrom hgap
  obtain rfl : front = '<' :: tag ++ last :: inner :=
    List.append_cancel_right (hcs.trans (by simp))
  have hself' : ¬ t.selfClosing = true := by simp [hself]
  simp only [List.cons_append, List.append_assoc, element?, htake, if_neg hself'] at h ⊢
  exact readContent?_of_inserted hbody (.inr ⟨inner, after, rfl, rfl, hgap, hplain⟩) hroot h

/-! ## Before the root element -/

/-- The text begins with a tag. -/
def AtTag (cs : List Char) : Prop := ∃ c tail, cs = '<' :: c :: tail ∧ c ≠ '!' ∧ c ≠ '?'

theorem atTag_of_element? {lineEnds : Nat} {cs rest : List Char} {root : Element}
    (h : element? lineEnds cs = some (root, rest)) : AtTag cs := by
  unfold element? at h
  split at h
  · next behind =>
    split at h
    · cases h
    · next t content hstart =>
      obtain ⟨_, htag, -⟩ := startTag?_eq_some hstart
      cases behind with
      | nil => cases htag
      | cons c tail =>
        rw [tagName?] at htag
        split at htag
        · next hc =>
          refine ⟨c, tail, rfl, ?_, ?_⟩
          · rintro rfl
            exact absurd hc (by decide)
          · rintro rfl
            exact absurd hc (by decide)
        · cases htag
  · cases h

theorem AtTag.stops {cs : List Char} (h : AtTag cs) : Stops isSpace cs := by
  obtain ⟨c, tail, rfl, -⟩ := h
  exact stops_cons (by decide)

theorem skipSpace_append_left (front : List Char) {rest : List Char} (hrest : Stops isSpace rest) :
    skipSpace (front ++ rest) = skipSpace front ++ rest := by
  rw [skipSpace, List.dropWhile_append, skipSpace]
  split
  · next hnil =>
    rw [List.isEmpty_iff.mp hnil, List.nil_append]
    exact skipSpace_of_stops hrest
  · rfl

/-- The reader does not see what follows a `<`. -/
def Blind (f : List Char → Option (List Char)) : Prop :=
  ∀ front, ∃ found : Option (List Char), ∀ rest,
    f (front ++ '<' :: rest) = found.map (· ++ '<' :: rest)

section

variable {f g : List Char → Option (List Char)}

theorem Blind.bind (hf : Blind f) (hg : Blind g) : Blind fun cs => (f cs).bind g := by
  intro front
  obtain ⟨found, hfound⟩ := hf front
  cases found with
  | none => exact ⟨none, fun rest => by simp [hfound]⟩
  | some behind =>
    obtain ⟨found', hfound'⟩ := hg behind
    exact ⟨found', fun rest => by simp [hfound, hfound']⟩

/-- A part that may be missing. -/
theorem Blind.getD (hf : Blind f) (hg : Blind g) : Blind fun cs => g ((f cs).getD cs) := by
  intro front
  obtain ⟨found, hfound⟩ := hf front
  obtain ⟨found', hfound'⟩ := hg (found.getD front)
  refine ⟨found', fun rest => ?_⟩
  cases found <;> simpa [hfound] using hfound' rest

theorem Blind.comp_skipSpace (hg : Blind g) : Blind fun cs => g (skipSpace cs) := by
  intro front
  obtain ⟨found, hfound⟩ := hg (skipSpace front)
  refine ⟨found, fun rest => ?_⟩
  simp only [skipSpace_append_left _ (stops_cons (by decide : isSpace '<' = false)), hfound]

theorem blind_space? : Blind space? := by
  intro front
  cases front with
  | nil => exact ⟨none, fun rest => rfl⟩
  | cons c front =>
    refine ⟨if isSpace c then some (skipSpace front) else none, fun rest => ?_⟩
    rw [List.cons_append, space?, skipSpace_append_left _ (stops_cons (by decide))]
    split <;> rfl

theorem blind_literal? {word : String} (hword : '<' ∉ word.toList) : Blind (literal? word) := by
  refine fun front => ⟨literal? word front, fun rest => ?_⟩
  cases hfront : literal? word front with
  | some behind =>
    have hcs : front = word.toList ++ behind := Text.afterPrefix?_eq_some_iff.mp hfront
    exact Text.afterPrefix?_eq_some_iff.mpr (by rw [hcs, List.append_assoc])
  | none =>
    have hnot : ∀ tail, front ≠ word.toList ++ tail := by
      intro tail htail
      rw [literal?, Text.afterPrefix?_eq_some_iff.mpr htail] at hfront
      cases hfront
    -- If the word were there, it would go on behind `front` and hold the `<`.
    refine Text.afterPrefix?_eq_none fun hpresent => ?_
    obtain ⟨behind, hbehind⟩ := hpresent
    obtain ⟨tail, htail, -⟩ | ⟨tail, htail, hrest⟩ := List.append_eq_append_iff.mp hbehind
    · exact hnot tail htail
    · cases tail with
      | nil => exact hnot [] (by simpa using htail.symm)
      | cons c tail =>
        cases hrest
        exact hword (by simp [htail])

/-- A value with a `<` is not valid. -/
theorem blind_value? {valid : List Char → Bool}
    (hvalid : ∀ value, valid value = true → '<' ∉ value) :
    Blind fun cs => (quotedRun? (fun _ _ => true) cs).bind fun (value, rest) =>
      if valid value then some rest else none := by
  intro front
  cases front with
  | nil => exact ⟨none, fun rest => rfl⟩
  | cons q front =>
    by_cases hquote : (q == '"' || q == '\'') = true
    · have hrun : ∀ {value : List Char}, q ∉ value → ∀ c ∈ value, (c != q && true) = true := by
        intro value hvalue c hc
        simp only [Bool.and_true, bne_iff_ne]
        rintro rfl
        exact hvalue hc
      by_cases hq : q ∈ front
      · obtain ⟨value, behind, rfl, hvalue⟩ := List.eq_append_cons_of_mem hq
        refine ⟨if valid value then some behind else none, fun rest => ?_⟩
        have hstop : Stops (fun c => c != q && true) (q :: (behind ++ '<' :: rest)) :=
          stops_cons (by simp)
        simp only [List.cons_append, List.append_assoc, quotedRun?, if_pos hquote,
          dropWhile_append_of_stops (hrun hvalue) hstop,
          takeWhile_append_of_stops (hrun hvalue) hstop, beq_self_eq_true, if_true,
          Option.bind_some]
        split <;> rfl
      · refine ⟨none, fun rest => ?_⟩
        have hlt : ('<' != q && true) = true := by
          simp only [Bool.and_true, bne_iff_ne]
          rintro rfl
          exact absurd hquote (by decide)
        have hbad : ¬ valid ((front ++ '<' :: rest).takeWhile fun c => c != q && true) = true := by
          intro hgood
          refine hvalid _ hgood ?_
          rw [List.takeWhile_append_of_pos (hrun hq), List.takeWhile_cons, if_pos hlt]
          simp
        simp only [List.cons_append, quotedRun?, if_pos hquote]
        split
        · split
          · simp only [Option.bind_some, if_neg hbad, Option.map_none]
          · rfl
        · rfl
    · refine ⟨none, fun rest => ?_⟩
      simp only [List.cons_append, quotedRun?, if_neg hquote, Option.bind_none, Option.map_none]

theorem blind_setting? {key : String} {valid : List Char → Bool} (hkey : '<' ∉ key.toList)
    (hvalid : ∀ value, valid value = true → '<' ∉ value) : Blind (setting? key valid) := by
  have hequals : Blind (literal? "=") := blind_literal? (by decide)
  exact blind_space?.bind ((blind_literal? hkey).bind
    (hequals.comp_skipSpace.bind (blind_value? hvalid).comp_skipSpace))

/-- What follows the declaration does not depend on the tag that follows. -/
theorem exists_of_declaration? (lead : List Char) :
    ∃ found : Option (List Char), ∀ rest, AtTag rest →
      declaration? (lead ++ rest) = found.map (· ++ rest) := by
  cases lead with
  | nil =>
    refine ⟨none, ?_⟩
    rintro _ ⟨c, tail, rfl, -, hquestion⟩
    exact declaration?_eq_none hquestion
  | cons c lead =>
    by_cases hc : c = '<'
    · subst hc
      have hversion : Blind (setting? "version" isVersion) :=
        blind_setting? (by decide) fun _ => notMem_of_isVersion
      have hencoding : Blind (setting? "encoding" isEncoding) :=
        blind_setting? (by decide) fun _ => notMem_of_isEncoding
      have hstandalone : Blind (setting? "standalone" isStandalone) :=
        blind_setting? (by decide) fun _ => notMem_of_isStandalone
      have hopen : Blind (literal? "?xml") := blind_literal? (by decide)
      have hclose : Blind (literal? "?>") := blind_literal? (by decide)
      obtain ⟨found, hfound⟩ := hopen.bind (hversion.bind
        (hencoding.getD (hstandalone.getD hclose.comp_skipSpace))) lead
      refine ⟨found, ?_⟩
      rintro _ ⟨c, tail, rfl, -⟩
      exact hfound (c :: tail)
    · refine ⟨none, fun rest _ => ?_⟩
      simp [declaration?, literal?, Text.afterPrefix?, Ne.symm hc]

end

/-- What follows all space and comments. -/
def skipComments (cs : List Char) : List Char :=
  match _h : comment? (skipSpace cs) with
  | some rest => skipComments rest
  | none => skipSpace cs
termination_by cs.length
decreasing_by
  have h₁ := length_of_comment? _h
  have h₂ := length_skipSpace_le cs
  omega

theorem suffix_skipComments (cs : List Char) : skipComments cs <:+ cs := by
  fun_induction skipComments cs with
  | case1 cs rest hcomment ih =>
    calc skipComments rest <:+ rest := ih
      _ <:+ skipSpace cs := suffix_of_comment? hcomment
      _ <:+ cs := suffix_skipSpace cs
  | case2 cs => exact suffix_skipSpace cs

theorem skipAsides_of_comment? {cs rest : List Char} (h : comment? (skipSpace cs) = some rest) :
    skipAsides cs = skipAsides rest := by
  have haside : aside? (skipSpace cs) = some rest := by
    rw [aside?, h]
    rfl
  rw [skipAsides]
  split
  · next hsome =>
    cases haside.symm.trans hsome
    rfl
  · next hnone => cases haside.symm.trans hnone

theorem AtTag.aside?_eq_none {cs : List Char} (h : AtTag cs) : aside? cs = none := by
  obtain ⟨c, tail, rfl, hbang, hquestion⟩ := h
  exact Markup.aside?_eq_none hbang hquestion

theorem AtTag.doctype?_eq_none {cs : List Char} (h : AtTag cs) : doctype? cs = none := by
  obtain ⟨c, tail, rfl, hbang, -⟩ := h
  exact Markup.doctype?_eq_none hbang

/-- Space and comments before a tag are passed over, whatever the tag is. -/
theorem skipAsides_of_skipComments {lead rest rest' : List Char} (hrest : AtTag rest)
    (hrest' : AtTag rest') (h : skipComments (lead ++ rest) = rest) :
    skipAsides (lead ++ rest') = rest' := by
  have hspace := skipSpace_append_left lead hrest.stops
  have hspace' := skipSpace_append_left lead hrest'.stops
  rw [skipComments] at h
  split at h
  · next behind hcomment =>
    obtain ⟨lead', rfl⟩ : rest <:+ behind := h ▸ suffix_skipComments behind
    rw [hspace] at hcomment
    obtain ⟨front, hfront, hread⟩ := exists_front_of_comment? hcomment
    have hlead : skipSpace lead = '<' :: '!' :: '-' :: '-' :: front ++ '>' :: lead' :=
      List.append_cancel_right (hfront.trans (by simp))
    have hshorter : lead'.length < lead.length := by
      have := length_skipSpace_le lead
      rw [hlead] at this
      simp only [List.length_append, List.length_cons] at this
      omega
    have hcomment' : comment? (skipSpace (lead ++ rest')) = some (lead' ++ rest') := by
      rw [hspace', hlead, List.append_assoc]
      exact hread _
    rw [skipAsides_of_comment? hcomment']
    exact skipAsides_of_skipComments hrest hrest' h
  · rw [hspace] at h
    have hlead : skipSpace lead = [] := by simpa using h
    rw [hlead, List.nil_append] at hspace'
    rw [skipAsides_of_aside?_eq_none (by rw [hspace', hrest'.aside?_eq_none]), hspace']
termination_by lead.length

theorem skipMark_append_left {lead rest : List Char} (hrest : AtTag rest) :
    skipMark (lead ++ rest) = skipMark lead ++ rest := by
  cases lead with
  | nil =>
    obtain ⟨c, tail, rfl, -⟩ := hrest
    rfl
  | cons c lead =>
    simp only [List.cons_append, skipMark]
    split <;> rfl

theorem exists_of_afterDeclaration (lead : List Char) :
    ∃ lead', ∀ rest, AtTag rest → afterDeclaration (lead ++ rest) = lead' ++ rest := by
  obtain ⟨found, hfound⟩ := exists_of_declaration? (skipSpace (skipMark lead))
  refine ⟨found.getD (skipSpace (skipMark lead)), fun rest hrest => ?_⟩
  simp only [afterDeclaration, skipMark_append_left hrest, skipSpace_append_left _ hrest.stops,
    hfound rest hrest]
  cases found <;> rfl

/-- Only a declaration, space and comments stand before the root element, and no instruction stands
inside it. -/
structure Bare (cs : List Char) : Prop where
  before : skipProlog (skipMark cs) = skipComments (afterDeclaration cs)
  inside : ∀ gap ∈ gaps cs, ¬ ['<', '?'] <+: gap

/-- Without `<?` there are no instructions, and space and comments are all that is passed over. -/
theorem skipAsides_eq_skipComments {cs : List Char} (h : ¬ ['<', '?'] <:+: cs) :
    skipAsides cs = skipComments cs := by
  have haside : ∀ {rest : List Char}, rest <:+ cs → aside? rest = comment? rest := by
    intro rest hrest
    have hquestion : literal? "<?" rest = none :=
      Text.afterPrefix?_eq_none fun hq => h (hq.isInfix.trans hrest.isInfix)
    rw [aside?, hquestion]
    cases comment? rest <;> rfl
  fun_induction skipComments cs with
  | case1 cs rest hcomment ih =>
    have hsuffix := (suffix_of_comment? hcomment).trans (suffix_skipSpace cs)
    rw [skipAsides_of_comment? hcomment]
    exact ih (fun hq => h (hq.trans hsuffix.isInfix)) fun hrest => haside (hrest.trans hsuffix)
  | case2 cs hcomment =>
    exact skipAsides_of_aside?_eq_none ((haside (suffix_skipSpace cs)).trans hcomment)

theorem bare_of_notInfix {cs : List Char} (hquestion : ¬ ['<', '?'] <:+: afterDeclaration cs)
    (hdoctype : ¬ "<!DOCTYPE".toList <:+: afterDeclaration cs) : Bare cs := by
  have hcomments := skipAsides_eq_skipComments hquestion
  have hnone : doctype? (skipAsides (afterDeclaration cs)) = none := by
    cases hd : doctype? (skipAsides (afterDeclaration cs)) with
    | none => rfl
    | some behind =>
      simp only [doctype?, Option.bind_eq_bind, Option.bind_eq_some_iff] at hd
      obtain ⟨_, hopen, -⟩ := hd
      exact absurd ((isPrefix_of_literal? hopen).isInfix.trans (suffix_skipAsides _).isInfix)
        hdoctype
  have hprolog : skipProlog (skipMark cs) = skipAsides (afterDeclaration cs) := by
    rw [afterDeclaration] at hnone
    simp only [skipProlog, hnone, afterDeclaration]
  refine ⟨hprolog.trans hcomments, fun gap hgap hq => hquestion ?_⟩
  have hsuffix : gap <:+ afterDeclaration cs :=
    calc gap <:+ skipProlog (skipMark cs) := suffix_of_mem_elementGaps hgap
      _ <:+ afterDeclaration cs := hprolog ▸ suffix_skipAsides _
  exact hq.isInfix.trans hsuffix.isInfix

/-- What stands before the root element does not depend on the root element. -/
theorem Bare.skipProlog_eq {lead rest rest' : List Char} (hbare : Bare (lead ++ rest))
    (hrest : AtTag rest) (hrest' : AtTag rest') (h : skipProlog (skipMark (lead ++ rest)) = rest) :
    skipProlog (skipMark (lead ++ rest')) = rest' := by
  obtain ⟨lead', hlead'⟩ := exists_of_afterDeclaration lead
  have hcomments : skipComments (lead' ++ rest) = rest := by
    rw [← hlead' rest hrest, ← hbare.before, h]
  have hasides : skipAsides (afterDeclaration (lead ++ rest')) = rest' := by
    rw [hlead' rest' hrest']
    exact skipAsides_of_skipComments hrest hrest' hcomments
  rw [afterDeclaration] at hasides
  simp only [skipProlog, hasides, hrest'.doctype?_eq_none]

/-! ## Documents -/

theorem parse_ofList {cs : List Char} {root : Element} (h : readRoot? cs = some root)
    (hfault : root.fault? 1 = none) : parse (String.ofList cs) = .ok root.toNode := by
  rw [parse, String.toList_ofList, h]
  simp only [hfault]

/-- **Comments.** A comment in a gap does not change the tree of a document. -/
theorem parse_insert_comment {before after body : List Char} {tree : Node}
    (hbody : IsCommentBody body) (hbare : Bare (before ++ after))
    (hgap : after ∈ gaps (before ++ after))
    (h : parse (String.ofList (before ++ after)) = .ok tree) :
    parse (String.ofList (before ++ comment body ++ after)) = .ok tree := by
  obtain ⟨root, hroot, hsound, rfl⟩ := exists_root_of_parse h
  rw [String.toList_ofList] at hroot
  obtain ⟨rest, hread, hrest⟩ := element?_of_readRoot? hroot
  obtain ⟨front, hfront⟩ := suffix_of_mem_elementGaps hgap
  obtain ⟨lead, hlead⟩ : front ++ after <:+ before ++ after := by
    rw [hfront]
    exact (suffix_skipProlog _).trans (passes_skipMark _).suffix
  obtain rfl : before = lead ++ front :=
    List.append_cancel_right (hlead.symm.trans (List.append_assoc ..).symm)
  have hinside := hbare.inside
  rw [gaps, ← hfront] at hgap hinside
  rw [← hfront] at hread
  have hread' : ∀ lineEnds, element? lineEnds (front ++ (comment body ++ after)) =
      some (root, rest) :=
    fun _ => element?_insert hbody hgap hinside (Element.exact_of_fault? hsound.fault) hread
  rw [List.append_assoc] at hbare hfront
  have hprolog := hbare.skipProlog_eq (atTag_of_element? hread) (atTag_of_element? (hread' 0))
    hfront.symm
  have hroot' : readRoot? (lead ++ front ++ comment body ++ after) = some root := by
    rw [readRoot?]
    simp only [List.append_assoc, hprolog, hread', hrest, List.isEmpty_nil, if_true]
  exact parse_ofList hroot' hsound.fault

/-- A document up to a gap, and from there on. The gap stands behind an empty section and behind
character data that ends in a bracket. -/
def remarked : List Char × List Char :=
  ("<?xml version='1.0'?><!-- a --><t><![CDATA[]]>x]".toList, "<u/></t>\n".toList)

theorem parse_insert_comment_remarked :
    let tree := .mk "t" [] [.mk "u" (.element (.mk "u" [] [] none))] (some "x]")
    parse (String.ofList (remarked.1 ++ remarked.2)) = .ok tree ∧
      parse (String.ofList (remarked.1 ++ comment "- <u>\n".toList ++ remarked.2)) = .ok tree := by
  intro tree
  have hbody : IsCommentBody "- <u>\n".toList := by constructor <;> decide
  have hbare : Bare (remarked.1 ++ remarked.2) :=
    bare_of_notInfix (by decide +kernel) (by decide +kernel)
  have hgap : remarked.2 ∈ gaps (remarked.1 ++ remarked.2) := by decide +kernel
  have hroot : readRoot? (remarked.1 ++ remarked.2) =
      some (.mk "t" [] [.text "", .text "x]", .element (.mk "u" [] [] none)] none) := by
    decide +kernel
  have hparse : parse (String.ofList (remarked.1 ++ remarked.2)) = .ok tree :=
    parse_ofList hroot (by decide +kernel)
  exact ⟨hparse, parse_insert_comment hbody hbare hgap hparse⟩

end BehaviorIndex.Markup
