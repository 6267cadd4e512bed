/-!
# Globs

Patterns for relative paths. `?` stands for one byte and `*` for any number of bytes other than a
slash, `[…]` for one byte of a class, `{…,…}` for one of several alternatives, and `**` as a whole
part of a path for any number of parts. A backslash takes the next character literally.

A pattern is a list of *tokens*. `Token.rests` gives every way in which a token can match the
beginning of a path, as what is left of the path behind it.
-/

namespace BehaviorIndex.Glob

abbrev Bytes := List UInt8

def slash : UInt8 := '/'.toUInt8

/-- A range of characters in a class, ends included. -/
structure CharRange where
  first : Char
  last : Char
  deriving DecidableEq, Repr

inductive Token where
  /-- The character itself. -/
  | literal (c : Char)
  /-- One byte other than a slash. -/
  | any
  /-- Any number of bytes other than a slash. -/
  | star
  /-- `**/` at the start: nothing, or anything up to a slash. -/
  | leadingParts
  /-- `/**` at the end: a slash and anything behind it. -/
  | trailingParts
  /-- `/**/` between parts: a slash, or anything from a slash to a slash. -/
  | innerParts
  | class (negated : Bool) (ranges : List CharRange)
  | alternatives (branches : List (List Token))

/-! ## Matching -/

/-- The rests of a path behind each of its slashes. -/
def behindSlashes : Bytes → List Bytes
  | [] => []
  | b :: bs => if b == slash then bs :: behindSlashes bs else behindSlashes bs

/-- The rests of a path, itself included, up to its first slash. -/
def upToSlash : Bytes → List Bytes
  | [] => [[]]
  | b :: bs => (b :: bs) :: if b == slash then [] else upToSlash bs

/-- All rests of a path, itself included. -/
def allRests : Bytes → List Bytes
  | [] => [[]]
  | b :: bs => (b :: bs) :: allRests bs

/-- A class is one of bytes: the characters of a range are taken apart into their bytes, and the
range goes from the last byte of its first character to the first byte of its last. -/
def CharRange.holds (r : CharRange) (b : UInt8) : Bool :=
  let first := String.utf8EncodeChar r.first
  let last := String.utf8EncodeChar r.last
  if r.first = r.last then first.contains b
  else
    first.dropLast.contains b || last.tail.contains b ||
      (first.getLast?.any fun lo => last.head?.any fun hi => lo ≤ b && b ≤ hi)

def oneByte (p : UInt8 → Bool) : Bytes → List Bytes
  | [] => []
  | b :: bs => if p b then [bs] else []

mutual

/-- A branch of an alternative that cannot match anything is left out. -/
def Token.isBlank : Token → Bool
  | .alternatives branches => branchesBlank branches
  | _ => false

def tokensBlank : List Token → Bool
  | [] => true
  | t :: ts => t.isBlank && tokensBlank ts

def branchesBlank : List (List Token) → Bool
  | [] => true
  | b :: bs => tokensBlank b && branchesBlank bs

end

mutual

/-- What can be left of a path behind a token. -/
def Token.rests (path : Bytes) : Token → List Bytes
  | .literal c =>
    let bytes := String.utf8EncodeChar c
    if bytes.isPrefixOf path then [path.drop bytes.length] else []
  | .any => oneByte (· != slash) path
  | .star => upToSlash path
  | .leadingParts => path :: behindSlashes path
  | .trailingParts =>
    match path with
    | [] => []
    | b :: bs => if b == slash then allRests bs else []
  | .innerParts =>
    match path with
    | [] => []
    | b :: bs => if b == slash then bs :: behindSlashes bs else []
  | .class negated ranges => oneByte (fun b => ranges.any (·.holds b) != negated) path
  | .alternatives branches =>
    if branchesBlank branches then [path] else restsOfBranches path branches

/-- What can be left of a path behind all of the tokens. -/
def restsOfTokens (paths : List Bytes) : List Token → List Bytes
  | [] => paths
  | t :: ts => restsOfTokens (paths.flatMap fun path => t.rests path).eraseDups ts

/-- What can be left of a path behind one of the branches. -/
def restsOfBranches (path : Bytes) : List (List Token) → List Bytes
  | [] => []
  | b :: bs =>
    (if tokensBlank b then [] else restsOfTokens [path] b) ++ restsOfBranches path bs

end

end BehaviorIndex.Glob

namespace BehaviorIndex

/-- A pattern for relative paths. -/
structure Glob where
  tokens : List Glob.Token

namespace Glob

/-- A path as a whole matches. The pattern `**` alone matches every path. -/
def accepts (g : Glob) (path : String) : Bool :=
  match g.tokens with
  | [.leadingParts] => true
  | tokens => (restsOfTokens [path.toUTF8.toList] tokens).any List.isEmpty

/-! ## Reading -/

/-- An unfinished pattern. The innermost open alternatives come first, each as its finished branches
and the branch being read, both with the last item first. -/
structure Draft where
  tokens : List Token := []
  branches : List (List Token) := []
  outer : List (List Token × List (List Token)) := []

namespace Draft

def push (d : Draft) (t : Token) : Draft := { d with tokens := t :: d.tokens }

/-- Inside alternatives. -/
def isNested (d : Draft) : Bool := !d.outer.isEmpty

def openBranch (d : Draft) : Draft :=
  { tokens := [], branches := [], outer := (d.tokens, d.branches) :: d.outer }

def nextBranch (d : Draft) : Draft :=
  { d with tokens := [], branches := d.tokens.reverse :: d.branches }

/-- Close the innermost alternatives; `none` if none are open. -/
def closeBranch? (d : Draft) : Option Draft :=
  match d.outer with
  | [] => none
  | (tokens, branches) :: outer =>
    let closed := (d.tokens.reverse :: d.branches).reverse
    some { tokens := .alternatives closed :: tokens, branches, outer }

end Draft

/-- Reads on in a class, whose last range comes first in `ranges`; `dashed` tells that a dash was
read behind it. `none` for a range that runs backward, `some none` for a class that is not closed.
-/
def readClass? (first dashed : Bool) (ranges : List CharRange) :
    List Char → Option (Option (List CharRange × List Char))
  | [] => some none
  | c :: cs =>
    if c == ']' && !first then
      some (some ((if dashed then ⟨'-', '-'⟩ :: ranges else ranges).reverse, cs))
    else if c == '-' && !first && !dashed then readClass? false true ranges cs
    else if dashed then
      match ranges with
      | [] => readClass? false false [⟨c, c⟩] cs
      | r :: ranges =>
        if c < r.first then none else readClass? false false (⟨r.first, c⟩ :: ranges) cs
    else readClass? false false (⟨c, c⟩ :: ranges) cs

/-- What two stars mean, given the character before them and what follows: the new draft and what is
still to be read. -/
def readStars (before : Option Char) (d : Draft) (cs : List Char) : Draft × List Char :=
  let plain := ((d.push .star).push .star, cs)
  if d.tokens.isEmpty then
    match cs with
    | [] => (d.push .leadingParts, [])
    | '/' :: cs => (d.push .leadingParts, cs)
    | _ => plain
  else if before != some '/' && !(d.isNested && (before == some ',' || before == some '{')) then
    plain
  else
    let parts? : Option (Token × List Char) := match cs with
      | [] => some (.trailingParts, [])
      | c :: rest =>
        if d.isNested && (c == ',' || c == '}') then some (.trailingParts, cs)
        else if c == '/' then some (.innerParts, rest)
        else none
    match parts?, d.tokens with
    | none, _ => plain
    | some (_, rest), .leadingParts :: _ => (d, rest)
    | some (_, rest), .trailingParts :: _ => (d, rest)
    | some (t, rest), _ :: tokens => ({ d with tokens := t :: tokens }, rest)
    | some (t, rest), [] => (d.push t, rest)

/-- Reads on in a pattern. `before` is the character before, and `literalBrackets` tells that an
earlier bracket was not closed, so that brackets stand for themselves. Every round takes a character
away, so `rounds` need not exceed the length of the pattern. -/
def read? (before : Option Char) (literalBrackets : Bool) (d : Draft) :
    (rounds : Nat) → List Char → Option Draft
  | _, [] => some d
  | 0, _ :: _ => none
  | rounds + 1, c :: cs =>
    match c with
    | '?' => read? (some c) literalBrackets (d.push .any) rounds cs
    | '*' =>
      match cs with
      | '*' :: cs =>
        let (d, rest) := readStars before d cs
        let last := if rest.length < cs.length then '/' else '*'
        read? (some last) literalBrackets d rounds rest
      | _ => read? (some c) literalBrackets (d.push .star) rounds cs
    | '[' =>
      if literalBrackets then read? (some c) true (d.push (.literal '[')) rounds cs
      else
        let (negated, body) := match cs with
          | '!' :: cs => (true, cs)
          | '^' :: cs => (true, cs)
          | cs => (false, cs)
        match readClass? true false [] body with
        | none => none
        | some none => read? (some c) true (d.push (.literal '[')) rounds cs
        | some (some (ranges, rest)) =>
          read? (some ']') literalBrackets (d.push (.class negated ranges)) rounds rest
    | '{' => read? (some c) literalBrackets d.openBranch rounds cs
    | '}' => d.closeBranch?.bind fun d => read? (some c) literalBrackets d rounds cs
    | ',' =>
      read? (some c) literalBrackets (if d.isNested then d.nextBranch else d.push (.literal ','))
        rounds cs
    | '\\' =>
      match cs with
      | [] => none
      | c :: cs => read? (some c) literalBrackets (d.push (.literal c)) rounds cs
    | c => read? (some c) literalBrackets (d.push (.literal c)) rounds cs

/-- The pattern that a text writes, if it writes one. -/
def ofText? (text : List Char) : Option Glob :=
  match read? none false {} text.length text with
  | some d => if d.isNested then none else some ⟨d.tokens.reverse⟩
  | none => none

end Glob

end BehaviorIndex
