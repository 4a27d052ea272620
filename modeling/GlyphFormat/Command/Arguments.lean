import GlyphFormat.Text.DecimalDigit
import GlyphFormat.Text.Printable

/-!
# Command line arguments

    glyph-fmt [-h] [--check] [--tree] [-v] [paths ...]

A long option may be cut to any beginning that fits it alone. Short options may stand together
behind one dash. No option takes a value. The paths are the first run of arguments that are no
options; `--` makes all that follows it paths. A lone dash, a negative number, and an unknown option
with a space in it count as paths too.
-/

namespace GlyphFormat

/-- What the command line asks for. -/
structure Arguments where
  paths : List Text := []
  check : Bool := false
  tree : Bool := false
  verbosity : Nat := 0
  deriving DecidableEq

namespace Arguments

inductive Flag where
  | help | check | tree | verbose
  deriving DecidableEq

/-- The spellings of all options, in order. -/
def spellings : List (Text × Flag) :=
  [("-h", .help), ("--help", .help), ("--check", .check), ("--tree", .tree), ("-v", .verbose),
    ("--verbose", .verbose)]

/-- What a message calls an option. -/
def Flag.title : Flag → String
  | .help => "-h/--help"
  | .check => "--check"
  | .tree => "--tree"
  | .verbose => "-v/--verbose"

def usage : String := "usage: glyph-fmt [-h] [--check] [--tree] [-v] [paths ...]"

def helpText : String :=
  usage ++
    "\n\nRewrite Glyph source files in canonical form.\n" ++
    "\npositional arguments:\n" ++
    "  paths          files or directories; '-' or nothing reads stdin\n" ++
    "\noptions:\n" ++
    "  -h, --help     show this help message and exit\n" ++
    "  --check        report files that would change, write nothing\n" ++
    "  --tree         print the parsed syntax tree instead of formatting\n" ++
    "  -v, --verbose  more logging (repeatable)\n"

/-! ## Faults -/

/-- A text in quotes as messages show it: single quotes if possible, escapes for what is not
printable. -/
def quoted (t : Text) : Text :=
  let quote : CodePoint :=
    if t.contains (.ofChar '\'') && !t.contains (.ofChar '"') then '"' else '\''
  let hex (width n : Nat) : Text :=
    let digits := Text.numeral 16 n
    List.replicate (width - digits.length) (CodePoint.ofChar '0') ++ digits
  let one (c : CodePoint) : Text :=
    if c = quote || c = '\\' then ['\\', c]
    else if c = '\n' then "\\n"
    else if c = '\r' then "\\r"
    else if c = '\t' then "\\t"
    else if c.isPrintable then [c]
    else if c.val < 0x100 then "\\x" ++ hex 2 c.val
    else if c.val < 0x10000 then "\\u" ++ hex 4 c.val
    else "\\U" ++ hex 8 c.val
  quote :: t.flatMap one ++ [quote]

/-- Why a command line cannot be followed. -/
inductive Fault where
  | ambiguous (argument : Text) (options : List Text)
  | needlessValue (flag : Flag) (value : Text)
  | unrecognized (arguments : List Text)
  deriving DecidableEq

def Fault.message : Fault → Text
  | .ambiguous a options =>
    "ambiguous option: " ++ a ++ " could match " ++ List.intercalate ", " options
  | .needlessValue flag value =>
    "argument " ++ Text.ofString flag.title ++ ": ignored explicit argument " ++ quoted value
  | .unrecognized as => "unrecognized arguments: " ++ List.intercalate " " as

/-! ## Single arguments -/

inductive Piece where
  | path
  /-- The first `--`. -/
  | separator
  /-- An option, by its short spelling or not, and what is attached to it in the same argument: the
  text behind `=`, or behind a letter. -/
  | option (flag : Flag) (short : Bool) (attached : Option Text)
  | unknown
  deriving DecidableEq

def flag? (spelling : Text) : Option Flag :=
  (spellings.find? fun s => s.1 = spelling).map (·.2)

/-- A spelling with a single dash. -/
def isShort (spelling : Text) : Bool := spelling.tail.head? ≠ some (CodePoint.ofChar '-')

/-- The text before the first `=` and the text behind it. -/
def splitAtEquals (t : Text) : Text × Option Text :=
  let before := t.takeWhile fun (c : CodePoint) => c ≠ '='
  match t.drop before.length with
  | [] => (before, none)
  | _ :: rest => (before, some rest)

/-- The digits of a number, with nothing behind them but perhaps one line break. -/
def isDigits (t : Text) : Bool :=
  let t := if t.getLast? = some (CodePoint.ofChar '\n') then t.dropLast else t
  t ≠ [] && t.all fun c => c.decimalValue?.isSome

/-- An argument that is a negative number. -/
def isNegativeNumber (t : Text) : Bool :=
  let body := t.drop 1
  let whole := body.takeWhile fun c => c.decimalValue?.isSome
  isDigits body ||
    match body.drop whole.length with
    | c :: rest => c = '.' && isDigits rest
    | [] => false

/-- The options that an argument may be a short form of. -/
def candidates (a : Text) : List (Text × Piece) :=
  if isShort a then
    let short := a.take 2
    spellings.filterMap fun (s, f) =>
      if s = short then some (s, .option f true (some (a.drop 2)))
      else if a.isPrefixOf s then some (s, .option f (isShort s) none)
      else none
  else
    let (beginning, value) := splitAtEquals a
    spellings.filterMap fun (s, f) =>
      if beginning.isPrefixOf s then some (s, .option f (isShort s) value)
      else none

/-- What a single argument is, before any `--`. -/
def classifyOne (a : Text) : Except Fault Piece :=
  if a.length < 2 || a.head? ≠ some (CodePoint.ofChar '-') then .ok .path
  else
    match flag? a with
    | some f => .ok (.option f (isShort a) none)
    | none =>
      let (beginning, value) := splitAtEquals a
      match flag? beginning, value with
      | some f, some v => .ok (.option f (isShort beginning) (some v))
      | _, _ =>
        match candidates a with
        | [(_, piece)] => .ok piece
        | [] =>
          if isNegativeNumber a || a.contains (.ofChar ' ') then .ok .path else .ok .unknown
        | many => .error (.ambiguous a (many.map (·.1)))

/-- What each argument is. -/
def classify : List Text → Except Fault (List (Text × Piece))
  | [] => .ok []
  | a :: rest =>
    if a = "--" then .ok ((a, .separator) :: rest.map (·, .path))
    else do
      let piece ← classifyOne a
      return (a, piece) :: (← classify rest)

/-- The options that the letters attached to a short option name, that option among them. -/
def expand (flag : Flag) : Text → Except Fault (List Flag)
  | [] => .ok [flag]
  | c :: rest =>
    match flag? ['-', c] with
    | none => .error (.needlessValue flag (c :: rest))
    | some next => (expand next rest).map (flag :: ·)

/-- The options of one argument. Only letters may be attached, and only to a short option. -/
def flagsOf (flag : Flag) (short : Bool) : Option Text → Except Fault (List Flag)
  | none => .ok [flag]
  | some t => if short && t ≠ [] then expand flag t else .error (.needlessValue flag t)

/-! ## The whole line -/

/-- What to do. -/
inductive Request where
  | run (arguments : Arguments)
  | help
  | refuse (fault : Fault)
  deriving DecidableEq

/-- Whether the run of paths is still to come, is being read, or is over. -/
inductive Stage where
  | before | inside | after
  deriving DecidableEq

structure State where
  arguments : Arguments := {}
  stage : Stage := .before
  /-- Arguments that found no place. -/
  extras : List Text := []

namespace State

def endPaths (s : State) : State := if s.stage = .inside then { s with stage := .after } else s

/-- Sees a path; `keep` is off for `--`, which is no path itself. -/
def addPath (s : State) (a : Text) (keep : Bool) : State :=
  if s.stage = .after then { s with extras := s.extras ++ [a] }
  else
    { s with
      stage := .inside
      arguments :=
        if keep then { s.arguments with paths := s.arguments.paths ++ [a] } else s.arguments }

/-- Sees an option other than the one for help. -/
def addFlag (s : State) : Flag → State
  | .help => s
  | .check => { s with arguments := { s.arguments with check := true } }
  | .tree => { s with arguments := { s.arguments with tree := true } }
  | .verbose => { s with arguments := { s.arguments with verbosity := s.arguments.verbosity + 1 } }

end State

/-- Follows the pieces of a command line in order. -/
def follow : List (Text × Piece) → State → Request
  | [], s => if s.extras = [] then .run s.arguments else .refuse (.unrecognized s.extras)
  | (a, piece) :: rest, s =>
    match piece with
    | .path => follow rest (s.addPath a true)
    | .separator => follow rest (s.addPath a false)
    | .unknown => follow rest { s.endPaths with extras := s.extras ++ [a] }
    | .option flag short attached =>
      match flagsOf flag short attached with
      | .error f => .refuse f
      | .ok flags =>
        if flags.contains .help then .help else follow rest (flags.foldl State.addFlag s.endPaths)

def parse (args : List Text) : Request :=
  match classify args with
  | .error f => .refuse f
  | .ok pieces => follow pieces {}

end Arguments

end GlyphFormat
