import BehaviorIndex.Proofs.Markup.Escape
import BehaviorIndex.Proofs.Text.Numeral

/-!
# Decoding, reference by reference

A text is read as *fragments*: characters other than the ampersand, and references, which go from an
ampersand to the next semicolon.

**Theorem (`decodeText_fragments`).** Decoding replaces each fragment by what it decodes to, and
nothing is decoded twice. A character decodes to itself. A reference decodes to the character that
it denotes, by one of five names or by its code in decimal or hexadecimal digits, and to itself if
it denotes none. So a text comes back from any way to write its characters: as they are, by name, or
by code with zeros in front.

What a body denotes is said without the reader of numbers (`Denotes`), and the reader is shown to
agree (`denoted?_eq_some_iff`). Decoding is then a matter of one fragment (`Decodes.decode_append`),
because a body ends at the first semicolon, and a fragment behind it cannot change that.
-/

namespace BehaviorIndex.Markup

open Text

/-! ## Fragments -/

/-- The names of characters. -/
def entityNames : List (String × Char) :=
  [("lt", '<'), ("gt", '>'), ("amp", '&'), ("quot", '"'), ("apos", '\'')]

/-- The body of a reference is a number. -/
inductive Codes : List Char → Nat → Prop
  | decimal {digits : List Char} {n : Nat} (h : WritesSigned 10 digits n) : Codes ('#' :: digits) n
  | hexadecimal {x : Char} {digits : List Char} {n : Nat} (hx : x = 'x' ∨ x = 'X')
      (h : WritesSigned 16 digits n) : Codes ('#' :: x :: digits) n

/-- The body of a reference denotes a character, by its name or by its code. -/
inductive Denotes : List Char → Char → Prop
  | named {name : String} {c : Char} (h : (name, c) ∈ entityNames) : Denotes name.toList c
  | coded {body : List Char} {c : Char} (h : Codes body c.toNat) : Denotes body c

/-- A part of a text that is decoded by itself. -/
inductive Fragment where
  | char (c : Char) (h : c ≠ '&')
  | reference (body : List Char) (hamp : '&' ∉ body) (hsemi : ';' ∉ body)

namespace Fragment

def text : Fragment → List Char
  | char c _ => [c]
  | reference body _ _ => '&' :: (body ++ [';'])

/-- What a fragment stands for. -/
inductive Decodes : Fragment → List Char → Prop
  | char {c : Char} {h : c ≠ '&'} : Decodes (.char c h) [c]
  | denoted {body : List Char} {hamp : '&' ∉ body} {hsemi : ';' ∉ body} {c : Char}
      (h : Denotes body c) : Decodes (.reference body hamp hsemi) [c]
  | kept {body : List Char} {hamp : '&' ∉ body} {hsemi : ';' ∉ body} (h : ∀ c, ¬ Denotes body c) :
      Decodes (.reference body hamp hsemi) ('&' :: (body ++ [';']))

end Fragment

/-- The ways to write a character. -/
inductive Spells : Char → List Char → Prop
  | raw {c : Char} (h : c ≠ '&') : Spells c [c]
  | named {name : String} {c : Char} (h : (name, c) ∈ entityNames) :
      Spells c ('&' :: (name.toList ++ [';']))
  | decimal {digits : List Char} {c : Char} (h : Writes 10 digits c.toNat) :
      Spells c ('&' :: '#' :: (digits ++ [';']))
  | hexadecimal {x : Char} {digits : List Char} {c : Char} (hx : x = 'x' ∨ x = 'X')
      (h : Writes 16 digits c.toNat) : Spells c ('&' :: '#' :: x :: (digits ++ [';']))

/-! ## What a body denotes -/

theorem denotes_of_mem_predefined {body : List Char} {c : Char} (h : (body, c) ∈ predefined) :
    Denotes body c := by
  have hname : ∃ name, name.toList = body ∧ (name, c) ∈ entityNames := by
    simp only [predefined, List.mem_cons, Prod.mk.injEq, List.not_mem_nil, or_false] at h
    rcases h with ⟨rfl, rfl⟩ | ⟨rfl, rfl⟩ | ⟨rfl, rfl⟩ | ⟨rfl, rfl⟩ | ⟨rfl, rfl⟩
    · exact ⟨"lt", rfl, by decide⟩
    · exact ⟨"gt", rfl, by decide⟩
    · exact ⟨"amp", rfl, by decide⟩
    · exact ⟨"quot", rfl, by decide⟩
    · exact ⟨"apos", rfl, by decide⟩
  obtain ⟨name, rfl, hmem⟩ := hname
  exact .named hmem

theorem lookup_of_mem_entityNames {name : String} {c : Char} (h : (name, c) ∈ entityNames) :
    predefined.lookup name.toList = some c := by
  simp only [entityNames, List.mem_cons, Prod.mk.injEq, List.not_mem_nil, or_false] at h
  rcases h with ⟨rfl, rfl⟩ | ⟨rfl, rfl⟩ | ⟨rfl, rfl⟩ | ⟨rfl, rfl⟩ | ⟨rfl, rfl⟩ <;> decide

/-- A number is no name. -/
theorem Codes.lookup {body : List Char} {n : Nat} (h : Codes body n) :
    predefined.lookup body = none := by
  rw [List.lookup_eq_none_iff]
  cases h <;> simp [predefined]

theorem charOf?_eq_some_iff {n : Nat} {c : Char} : charOf? n = some c ↔ c.toNat = n := by
  unfold charOf?
  constructor
  · intro h
    split at h
    · next hn =>
      cases h
      rw [Char.ofNat, dif_pos hn]
      rfl
    · cases h
  · rintro rfl
    have hvalid : c.toNat.isValidChar := c.valid
    rw [if_pos hvalid, Char.ofNat_toNat]

theorem codeOf?_decimal {cs : List Char} (hcs : ∀ c ∈ cs.head?, c ≠ 'x' ∧ c ≠ 'X') :
    codeOf? ('#' :: cs) = boundedOf? 10 UInt32.size cs := by
  cases cs with
  | nil => rfl
  | cons c cs =>
    obtain ⟨hx, hX⟩ := hcs c rfl
    unfold codeOf?
    split <;> simp_all

/-- The numbers are read. -/
theorem codeOf?_eq_some_iff {body : List Char} {n : Nat} :
    codeOf? body = some n ↔ n < UInt32.size ∧ Codes body n := by
  constructor
  · intro h
    unfold codeOf? at h
    split at h
    · rw [boundedOf?_eq_some_iff (by decide)] at h
      exact ⟨h.1, .hexadecimal (.inl rfl) h.2⟩
    · rw [boundedOf?_eq_some_iff (by decide)] at h
      exact ⟨h.1, .hexadecimal (.inr rfl) h.2⟩
    · rw [boundedOf?_eq_some_iff (by decide)] at h
      exact ⟨h.1, .decimal h.2⟩
    · cases h
  · rintro ⟨hn, h⟩
    cases h with
    | decimal h =>
      rw [codeOf?_decimal, boundedOf?_eq_some_iff (by decide)]
      · exact ⟨hn, h⟩
      · -- The character behind `#` is a plus sign or a decimal digit.
        intro c hc
        have hdigit := h.eq_or_isSome (by decide) (List.mem_of_mem_head? hc)
        constructor <;> rintro rfl <;> revert hdigit <;> decide
    | @hexadecimal x digits _ hx h =>
      have hcode : codeOf? ('#' :: x :: digits) = boundedOf? 16 UInt32.size digits := by
        rcases hx with rfl | rfl <;> rfl
      rw [hcode, boundedOf?_eq_some_iff (by decide)]
      exact ⟨hn, h⟩

/-- **The reader agrees.** -/
theorem denoted?_eq_some_iff {body : List Char} {c : Char} :
    denoted? body = some c ↔ Denotes body c := by
  unfold denoted?
  constructor
  · intro h
    split at h
    · next d hd =>
      cases h
      obtain ⟨front, back, hsplit, -⟩ := List.lookup_eq_some_iff.mp hd
      apply denotes_of_mem_predefined
      rw [hsplit]
      simp
    · obtain ⟨n, hcode, hchar⟩ := Option.bind_eq_some_iff.mp h
      obtain rfl := charOf?_eq_some_iff.mp hchar
      exact .coded (codeOf?_eq_some_iff.mp hcode).2
  · intro h
    cases h with
    | named h => rw [lookup_of_mem_entityNames h]
    | coded h =>
      have hcode := codeOf?_eq_some_iff.mpr ⟨c.val.toNat_lt, h⟩
      rw [h.lookup, hcode]
      exact charOf?_eq_some_iff.mpr rfl

theorem denoted?_eq_none_iff {body : List Char} :
    denoted? body = none ↔ ∀ c, ¬ Denotes body c := by
  simp only [Option.eq_none_iff_forall_ne_some, ne_eq, denoted?_eq_some_iff]

theorem Codes.ne_of_mem {body : List Char} {n : Nat} (h : Codes body n) {c : Char}
    (hc : c ∈ body) : c ≠ '&' ∧ c ≠ ';' := by
  have hdigits : ∀ {base : Nat} {digits : List Char}, base ≤ 16 → WritesSigned base digits n →
      c ∈ digits → c ≠ '&' ∧ c ≠ ';' := by
    intro base digits hbase h hc
    rcases h.eq_or_isSome hbase hc with rfl | hsome
    · decide
    · constructor <;> rintro rfl <;> cases hsome
  cases h with
  | decimal h =>
    rcases List.mem_cons.mp hc with rfl | hc
    · decide
    · exact hdigits (by decide) h hc
  | hexadecimal hx h =>
    rcases List.mem_cons.mp hc with rfl | hc
    · decide
    · rcases List.mem_cons.mp hc with rfl | hc
      · rcases hx with rfl | rfl <;> decide
      · exact hdigits (by decide) h hc

/-- A body that denotes a character can stand in a reference. -/
theorem Denotes.notMem {body : List Char} {c : Char} (h : Denotes body c) :
    '&' ∉ body ∧ ';' ∉ body := by
  cases h with
  | named h =>
    simp only [entityNames, List.mem_cons, Prod.mk.injEq, List.not_mem_nil, or_false] at h
    rcases h with ⟨rfl, -⟩ | ⟨rfl, -⟩ | ⟨rfl, -⟩ | ⟨rfl, -⟩ | ⟨rfl, -⟩ <;> decide
  | coded h => exact ⟨fun hmem => (h.ne_of_mem hmem).1 rfl, fun hmem => (h.ne_of_mem hmem).2 rfl⟩

namespace Fragment

/-- Every fragment stands for something. -/
theorem exists_decodes (f : Fragment) : ∃ out, f.Decodes out := by
  cases f with
  | char c h => exact ⟨[c], .char⟩
  | reference body hamp hsemi =>
    by_cases h : ∃ c, Denotes body c
    · obtain ⟨c, hc⟩ := h
      exact ⟨[c], .denoted hc⟩
    · exact ⟨_, .kept (not_exists.mp h)⟩

/-! ## Decoding -/

/-- **One fragment.** -/
theorem Decodes.decode_append {f : Fragment} {out : List Char} (h : f.Decodes out)
    (rest : List Char) : decode (f.text ++ rest) = out ++ decode rest := by
  cases h with
  | @char c hc =>
    show decode (c :: rest) = c :: decode rest
    exact decode_cons_of_ne hc rest
  | @denoted body _ hsemi c hc =>
    have htext : '&' :: (body ++ [';']) ++ rest = '&' :: (body ++ ';' :: rest) := by simp
    rw [text, htext, decode_reference hsemi, denoted?_eq_some_iff.mpr hc]
  | @kept body _ hsemi hnone =>
    have htext : '&' :: (body ++ [';']) ++ rest = '&' :: (body ++ ';' :: rest) := by simp
    rw [text, htext, decode_reference hsemi, denoted?_eq_none_iff.mpr hnone]

/-- **All fragments.** -/
theorem decode_flatMap_text {fs : List Fragment} {outs : List (List Char)}
    (h : List.Forall₂ Decodes fs outs) : decode (fs.flatMap text) = outs.flatten := by
  induction h with
  | nil => simp [decode]
  | cons hf _ ih => rw [List.flatMap_cons, hf.decode_append, ih, List.flatten_cons]

end Fragment

/-- A way to write a character is a fragment that stands for it. -/
theorem Spells.exists_fragment {c : Char} {written : List Char} (h : Spells c written) :
    ∃ f : Fragment, f.text = written ∧ f.Decodes [c] := by
  have hreference : ∀ {body : List Char}, Denotes body c →
      ∃ f : Fragment, f.text = '&' :: (body ++ [';']) ∧ f.Decodes [c] := fun hbody =>
    ⟨.reference _ hbody.notMem.1 hbody.notMem.2, rfl, .denoted hbody⟩
  cases h with
  | raw h => exact ⟨.char c h, rfl, .char⟩
  | named h => exact hreference (.named h)
  | decimal h => exact hreference (.coded (.decimal (.inl h)))
  | hexadecimal hx h => exact hreference (.coded (.hexadecimal hx (.inl h)))

theorem exists_fragments {cs : List Char} {written : List (List Char)}
    (h : List.Forall₂ Spells cs written) :
    ∃ fs : List Fragment, fs.flatMap Fragment.text = written.flatten ∧
      List.Forall₂ Fragment.Decodes fs (cs.map ([·])) := by
  induction h with
  | nil => exact ⟨[], rfl, .nil⟩
  | cons hc _ ih =>
    obtain ⟨f, hf, hdecodes⟩ := hc.exists_fragment
    obtain ⟨fs, hfs, hall⟩ := ih
    refine ⟨f :: fs, ?_, .cons hdecodes hall⟩
    rw [List.flatMap_cons, hf, hfs, List.flatten_cons]

/-- Every character is written by its code, with zeros in front. -/
theorem spells_code (c : Char) (zeros : Nat) :
    Spells c ('&' :: '#' :: (List.replicate zeros '0' ++ Nat.toDigits 10 c.toNat ++ [';'])) ∧
      Spells c
        ('&' :: '#' :: 'x' :: (List.replicate zeros '0' ++ Nat.toDigits 16 c.toNat ++ [';'])) :=
  ⟨.decimal (writes_zeros_toDigits (by decide) zeros c.toNat),
    .hexadecimal (.inl rfl) (writes_zeros_toDigits (by decide) zeros c.toNat)⟩

/-- **Decoding.** A text is decoded fragment by fragment, and once. So it comes back from any way to
write its characters, among them their codes with zeros in front. -/
theorem decodeText_fragments :
    (∀ f : Fragment, ∃ out, f.Decodes out) ∧
      (∀ (fs : List Fragment) (outs : List (List Char)), List.Forall₂ Fragment.Decodes fs outs →
        decodeText (String.ofList (fs.flatMap Fragment.text)) = String.ofList outs.flatten) ∧
      (∀ (s : String) (written : List (List Char)), List.Forall₂ Spells s.toList written →
        decodeText (String.ofList written.flatten) = s) ∧
      ∀ (c : Char) (zeros : Nat),
        Spells c ('&' :: '#' :: (List.replicate zeros '0' ++ Nat.toDigits 10 c.toNat ++ [';'])) ∧
          Spells c ('&' :: '#' :: 'x' ::
            (List.replicate zeros '0' ++ Nat.toDigits 16 c.toNat ++ [';'])) := by
  refine ⟨Fragment.exists_decodes, ?_, ?_, spells_code⟩
  · intro fs outs h
    rw [decodeText, String.toList_ofList, Fragment.decode_flatMap_text h]
  · intro s written h
    obtain ⟨fs, htext, hdecodes⟩ := exists_fragments h
    rw [decodeText, String.toList_ofList, ← htext, Fragment.decode_flatMap_text hdecodes]
    have hflatten : (s.toList.map ([·])).flatten = s.toList := by
      rw [← List.flatMap_def]
      exact List.flatMap_singleton' s.toList
    rw [hflatten, String.ofList_toList]

/-- Fragments of all kinds; a decoded ampersand stands in front of `lt;`, and one code is that of a
surrogate. -/
def medley : List Fragment :=
  [.reference ['l', 't'] (by decide) (by decide),
    .reference ['#', 'x', '2', '6'] (by decide) (by decide),
    .char 'l' (by decide), .char 't' (by decide), .char ';' (by decide),
    .reference ['#', '+', '0', '6', '5'] (by decide) (by decide),
    .reference ['#', 'X', 'd', '8', '0', '0'] (by decide) (by decide),
    .reference ['n', 'o'] (by decide) (by decide)]

theorem decodeText_fragments_medley :
    List.Forall₂ Fragment.Decodes medley
        [['<'], ['&'], ['l'], ['t'], [';'], ['A'], ['&', '#', 'X', 'd', '8', '0', '0', ';'],
          ['&', 'n', 'o', ';']] ∧
      decodeText "&lt;&#x26;lt;&#+065;&#Xd800;&no;" = "<&lt;A&#Xd800;&no;" ∧
      List.Forall₂ Spells "&<>".toList
        [['&', '#', '0', '0', '3', '8', ';'], ['&', '#', 'x', '3', 'C', ';'], ['>']] ∧
      decodeText "&#0038;&#x3C;>" = "&<>" := by
  have hall : List.Forall₂ Fragment.Decodes medley
      [['<'], ['&'], ['l'], ['t'], [';'], ['A'], ['&', '#', 'X', 'd', '8', '0', '0', ';'],
        ['&', 'n', 'o', ';']] :=
    .cons (.denoted (denoted?_eq_some_iff.mp (by decide))) <|
    .cons (.denoted (denoted?_eq_some_iff.mp (by decide))) <|
    .cons .char <| .cons .char <| .cons .char <|
    .cons (.denoted (denoted?_eq_some_iff.mp (by decide))) <|
    .cons (.kept (denoted?_eq_none_iff.mp (by decide))) <|
    .cons (.kept (denoted?_eq_none_iff.mp (by decide))) .nil
  have hdecimal : Writes 10 ['0', '0', '3', '8'] '&'.toNat :=
    (natOf?_eq_some_iff (by decide)).mp (by decide)
  have hhexadecimal : Writes 16 ['3', 'C'] '<'.toNat :=
    (natOf?_eq_some_iff (by decide)).mp (by decide)
  have hspelled : List.Forall₂ Spells "&<>".toList
      [['&', '#', '0', '0', '3', '8', ';'], ['&', '#', 'x', '3', 'C', ';'], ['>']] :=
    .cons (.decimal hdecimal) <| .cons (.hexadecimal (.inl rfl) hhexadecimal) <|
    .cons (.raw (by decide)) .nil
  -- The texts are fixed first: otherwise they are decoded to be compared.
  have hmedley : "&lt;&#x26;lt;&#+065;&#Xd800;&no;" =
      String.ofList (medley.flatMap Fragment.text) := rfl
  have hcodes : "&#0038;&#x3C;>" = String.ofList (List.flatten
      [['&', '#', '0', '0', '3', '8', ';'], ['&', '#', 'x', '3', 'C', ';'], ['>']]) := rfl
  refine ⟨hall, ?_, hspelled, ?_⟩
  · rw [hmedley, decodeText_fragments.2.1 medley _ hall]
    rfl
  · rw [hcodes, decodeText_fragments.2.2.1 "&<>" _ hspelled]

end BehaviorIndex.Markup
