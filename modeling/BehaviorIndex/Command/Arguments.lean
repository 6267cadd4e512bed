/-!
# Arguments

Arguments of a command are *options*, behind one or two dashes, and *operands*. An option is a flag,
or takes a value: behind an equals sign, directly behind a short name, or as the next argument.
Short flags may be written together. Behind two dashes alone, everything is an operand. A single
dash is an operand, too.
-/

namespace BehaviorIndex.Command

/-- An option that a command knows. -/
structure Flag where
  long : String
  short : Option Char := none
  takesValue : Bool := false
  deriving DecidableEq, Repr

/-- Why arguments are not run as a command. -/
inductive Usage where
  | help
  | version
  | misuse
  deriving DecidableEq, Repr

/-- Options by their long names, with their values, and operands. -/
structure Arguments where
  options : List (String × String) := []
  operands : List String := []
  deriving DecidableEq, Repr

namespace Arguments

def value? (a : Arguments) (long : String) : Option String := a.options.lookup long

def has (a : Arguments) (long : String) : Bool := (a.value? long).isSome

/-- Add an option, which may be there only once. -/
def addOption (a : Arguments) (f : Flag) (value : String) : Except Usage Arguments :=
  if a.has f.long then .error .misuse
  else if f.long == "help" then .error .help
  else if f.long == "version" then .error .version
  else .ok { a with options := a.options ++ [(f.long, value)] }

def addOperand (a : Arguments) (s : String) : Arguments := { a with operands := a.operands ++ [s] }

end Arguments

/-! ## One argument -/

/-- What an argument says. -/
inductive Piece where
  | operand (s : String)
  /-- Options that are complete. -/
  | options (given : List (Flag × String))
  /-- The same, with one at the end whose value is the next argument. -/
  | unfinished (given : List (Flag × String)) (f : Flag)
  /-- All that follows are operands. -/
  | dashes
  deriving DecidableEq, Repr

/-- Short options that are written together. -/
def readShort (flags : List Flag) : List Char → Except Usage Piece
  | [] => .ok (.options [])
  | c :: cs =>
    match flags.find? (·.short == some c) with
    | none => .error .misuse
    | some f =>
      if f.takesValue then
        match cs with
        | [] => .ok (.unfinished [] f)
        | '=' :: value => .ok (.options [(f, String.ofList value)])
        | value => .ok (.options [(f, String.ofList value)])
      else
        match readShort flags cs with
        | .ok (.options given) => .ok (.options ((f, "") :: given))
        | .ok (.unfinished given last) => .ok (.unfinished ((f, "") :: given) last)
        | other => other

def readLong (flags : List Flag) (cs : List Char) : Except Usage Piece :=
  let name := String.ofList (cs.takeWhile (· != '='))
  match flags.find? (·.long == name), cs.dropWhile (· != '=') with
  | none, _ => .error .misuse
  | some f, [] => .ok (if f.takesValue then .unfinished [] f else .options [(f, "")])
  | some f, _ :: value =>
    if f.takesValue then .ok (.options [(f, String.ofList value)]) else .error .misuse

def readPiece (flags : List Flag) (s : String) : Except Usage Piece :=
  match s.toList with
  | ['-', '-'] => .ok .dashes
  | '-' :: '-' :: cs => readLong flags cs
  | ['-'] => .ok (.operand s)
  | '-' :: cs => readShort flags cs
  | _ => .ok (.operand s)

/-- Whether an argument can be the value of the option before it. -/
def isValue (s : String) : Bool :=
  match s.toList with
  | '-' :: _ :: _ => false
  | _ => true

/-! ## All arguments -/

def addOptions (a : Arguments) (given : List (Flag × String)) : Except Usage Arguments :=
  given.foldlM (fun a (f, value) => a.addOption f value) a

/-- Reads arguments. With `untilOperand`, stops at the first operand and leaves what follows it. -/
def readArguments (flags : List Flag) (untilOperand : Bool) (a : Arguments) :
    List String → Except Usage (Arguments × List String)
  | [] => .ok (a, [])
  | s :: rest =>
    match readPiece flags s with
    | .error u => .error u
    | .ok (.operand s) =>
      if untilOperand then .ok (a.addOperand s, rest)
      else readArguments flags untilOperand (a.addOperand s) rest
    | .ok .dashes =>
      if untilOperand then .error .misuse
      else .ok ({ a with operands := a.operands ++ rest }, [])
    | .ok (.options given) => do readArguments flags untilOperand (← addOptions a given) rest
    | .ok (.unfinished given f) =>
      match rest with
      | [] => .error .misuse
      | value :: rest =>
        if isValue value then do
          readArguments flags untilOperand (← (← addOptions a given).addOption f value) rest
        else .error .misuse

end BehaviorIndex.Command
