import BehaviorIndex.Text.Numeral

/-!
# Quoted texts

A text is written in one of four forms: *basic*, between quotation marks, with escapes; *literal*,
between apostrophes, as it is; and either of them over several lines, between three marks. A form
over several lines may hold one or two of its marks in a row, and drops a line end at its very
start. A backslash at the end of a line of the basic form drops the line end and the blanks that
follow.

`readText?` reads all four forms, and `writeText` chooses the plainest one that needs no escape.
-/

namespace BehaviorIndex.Toml

open Text

/-- A tab or a character that is not a control. -/
def isShown (c : Char) : Bool := c == '\t' || (0x20 ≤ c.toNat && c.toNat != 0x7F)

def isSpace (c : Char) : Bool := c == ' ' || c == '\t'

/-! ## Reading -/

/-- A text that was read, and what follows it. -/
abbrev Read := Option (List Char × List Char)

/-- The same with a character in front. -/
def consRead (c : Char) : Read → Read := Option.map fun (cs, rest) => (c :: cs, rest)

/-- The character that an escape of one letter stands for. -/
def escapeOf? : Char → Option Char
  | 'b' => some '\x08'
  | 't' => some '\t'
  | 'n' => some '\n'
  | 'f' => some '\x0c'
  | 'r' => some '\r'
  | '"' => some '"'
  | '\\' => some '\\'
  | _ => none

/-- The character with a code written in hexadecimal digits. -/
def charOf? (digits : List Char) : Option Char :=
  (natOf? 16 digits).bind fun n => if n.isValidChar then some (Char.ofNat n) else none

/-- Reads a basic text up to its closing mark. -/
def readBasic? : List Char → Read
  | [] => none
  | c :: cs =>
    if c = '"' then some ([], cs)
    else if c = '\\' then
      match cs with
      | 'u' :: a :: b :: c :: d :: rest =>
        (charOf? [a, b, c, d]).bind fun x => consRead x (readBasic? rest)
      | 'U' :: a :: b :: c :: d :: e :: f :: g :: h :: rest =>
        (charOf? [a, b, c, d, e, f, g, h]).bind fun x => consRead x (readBasic? rest)
      | e :: rest => (escapeOf? e).bind fun x => consRead x (readBasic? rest)
      | [] => none
    else if isShown c then consRead c (readBasic? cs)
    else none

/-- Reads a literal text up to its closing mark. -/
def readLiteral? : List Char → Read
  | [] => none
  | c :: cs =>
    if c = '\'' then some ([], cs)
    else if isShown c then consRead c (readLiteral? cs)
    else none

/-- What closes a text over several lines, behind three marks: one or two more of them still belong
to the text. -/
def closeLines (mark : Char) : List Char → List Char × List Char
  | a :: b :: rest =>
    if a = mark ∧ b = mark then ([mark, mark], rest)
    else if a = mark then ([mark], b :: rest)
    else ([], a :: b :: rest)
  | [a] => if a = mark then ([mark], []) else ([], [a])
  | [] => ([], [])

/-- Whether only spaces are left of the line. -/
def endsLine (cs : List Char) : Bool :=
  match cs.dropWhile isSpace with
  | '\n' :: _ => true
  | '\r' :: '\n' :: _ => true
  | _ => false

/-- Reads a basic text over several lines up to its closing marks. Behind a backslash at the end of
a line, blanks are skipped. -/
def readBasicLines? (skipping : Bool) : List Char → Read
  | [] => none
  | c :: cs =>
    match c, cs with
    | '\n', cs =>
      if skipping then readBasicLines? true cs else consRead '\n' (readBasicLines? false cs)
    | '\r', '\n' :: cs =>
      if skipping then readBasicLines? true cs else consRead '\n' (readBasicLines? false cs)
    | '"', '"' :: '"' :: cs => some (closeLines '"' cs)
    | '\\', 'u' :: a :: b :: c :: d :: rest =>
      (charOf? [a, b, c, d]).bind fun x => consRead x (readBasicLines? false rest)
    | '\\', 'U' :: a :: b :: c :: d :: e :: f :: g :: h :: rest =>
      (charOf? [a, b, c, d, e, f, g, h]).bind fun x => consRead x (readBasicLines? false rest)
    | '\\', e :: rest =>
      if endsLine (e :: rest) then readBasicLines? true (e :: rest)
      else (escapeOf? e).bind fun x => consRead x (readBasicLines? false rest)
    | '\\', [] => none
    | c, cs =>
      if skipping && isSpace c then readBasicLines? true cs
      else if isShown c then consRead c (readBasicLines? false cs)
      else none

/-- Reads a literal text over several lines up to its closing marks. -/
def readLiteralLines? : List Char → Read
  | [] => none
  | c :: cs =>
    match c, cs with
    | '\n', cs => consRead '\n' (readLiteralLines? cs)
    | '\r', '\n' :: cs => consRead '\n' (readLiteralLines? cs)
    | '\'', '\'' :: '\'' :: cs => some (closeLines '\'' cs)
    | c, cs => if isShown c then consRead c (readLiteralLines? cs) else none

def dropLineEnd : List Char → List Char
  | '\n' :: cs => cs
  | '\r' :: '\n' :: cs => cs
  | cs => cs

/-- Reads a text of any form. -/
def readText? : List Char → Read
  | '"' :: '"' :: '"' :: cs => readBasicLines? false (dropLineEnd cs)
  | '"' :: cs => readBasic? cs
  | '\'' :: '\'' :: '\'' :: cs => readLiteralLines? (dropLineEnd cs)
  | '\'' :: cs => readLiteral? cs
  | _ => none

/-! ## Writing -/

/-- Four upper-case hexadecimal digits. -/
def hexCode (n : Nat) : List Char :=
  [n / 4096, n / 256, n / 16, n].map fun d => (Nat.digitChar (d % 16)).toUpper

def writeEscape (c : Char) : List Char :=
  if c = '\x08' then ['\\', 'b']
  else if c = '\t' then ['\\', 't']
  else if c = '\n' then ['\\', 'n']
  else if c = '\x0c' then ['\\', 'f']
  else if c = '\r' then ['\\', 'r']
  else if c = '"' then ['\\', '"']
  else if c = '\\' then ['\\', '\\']
  else ['\\', 'u'] ++ hexCode c.toNat

/-- The characters of a basic text. Over several lines, line ends and up to two quotation marks in a
row stay as they are; `marks` of them come directly before. -/
def writeBasicChars (lines : Bool) (marks : Nat) : List Char → List Char
  | [] => []
  | c :: cs =>
    if c = '"' then
      if lines && marks < 2 then c :: writeBasicChars lines (marks + 1) cs
      else writeEscape c ++ writeBasicChars lines 0 cs
    else if lines && c = '\n' then c :: writeBasicChars lines 0 cs
    else if c = '\\' || c.toNat < 0x20 || c.toNat = 0x7F then
      writeEscape c ++ writeBasicChars lines 0 cs
    else c :: writeBasicChars lines 0 cs

/-- The longest row of a character, when `run` of them come directly before. -/
def longestRun (mark : Char) (run : Nat) : List Char → Nat
  | [] => run
  | c :: cs => if c = mark then longestRun mark (run + 1) cs else max run (longestRun mark 0 cs)

/-- A control other than a line end. -/
def needsEscape (c : Char) : Bool := c != '\n' && (c.toNat < 0x20 || c.toNat == 0x7F)

/-- The way a text is written. -/
def writeText (cs : List Char) : List Char :=
  let escapes := cs.any needsEscape
  let slashes := cs.contains '\\'
  let lines := cs.contains '\n'
  let marks := longestRun '"' 0 cs
  let apostrophes := longestRun '\'' 0 cs
  let start := if lines then ['\n'] else []
  let basic := ['"'] ++ writeBasicChars false 0 cs ++ ['"']
  let basicLines := ['"', '"', '"'] ++ start ++ writeBasicChars true 0 cs ++ ['"', '"', '"']
  if !escapes && !slashes && !lines && marks = 0 then basic
  else if !escapes && !lines && apostrophes = 0 then ['\''] ++ cs ++ ['\'']
  else if !escapes && !slashes && marks ≤ 2 then basicLines
  else if !escapes && apostrophes ≤ 2 then
    ['\'', '\'', '\''] ++ start ++ cs ++ ['\'', '\'', '\'']
  else if lines then basicLines
  else basic

end BehaviorIndex.Toml
