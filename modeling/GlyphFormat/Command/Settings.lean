import GlyphFormat.Text.Blank

/-!
# Settings

The environment sets which log entries are shown and whether failures are explained by a trace.
-/

namespace GlyphFormat

/-- The weight of a log entry, in ascending order. -/
inductive Level where
  | debug | info | warning | error | critical
  deriving DecidableEq

namespace Level

def all : List Level := [.debug, .info, .warning, .error, .critical]

def name : Level → String
  | .debug => "DEBUG"
  | .info => "INFO"
  | .warning => "WARNING"
  | .error => "ERROR"
  | .critical => "CRITICAL"

def rank : Level → Nat
  | .debug => 0
  | .info => 1
  | .warning => 2
  | .error => 3
  | .critical => 4

end Level

structure Settings where
  level : Level := .warning
  trace : Bool := false
  deriving DecidableEq

namespace Settings

/-- The capital of a letter, as far as the names of levels need it: ASCII letters and the small
dotless i. -/
def capital (c : CodePoint) : CodePoint :=
  if c = 'ı' then 'I' else if c.isSmallLetter then (CodePoint.ofNat? (c.val - 0x20)).getD c else c

/-- The small form of an ASCII letter. -/
def small (c : CodePoint) : CodePoint :=
  if c.between 'A' 'Z' then (CodePoint.ofNat? (c.val + 0x20)).getD c else c

/-- The level that a text names; any other text names the usual one. -/
def levelOf (t : Text) : Level :=
  let name := t.trim.map capital
  (Level.all.find? fun l => Text.ofString l.name = name).getD .warning

/-- The texts that switch something on. -/
def truthy : List Text := ["1", "true", "yes", "on"]

def isOn (t : Text) : Bool := truthy.contains (t.trim.map small)

/-- The settings for the values of the two variables. -/
def ofVariables (level trace : Option Text) : Settings where
  level := (level.map levelOf).getD .warning
  trace := (trace.map isOn).getD false

/-- The names of the variables. -/
def levelVariable : String := "GLYPH_LOG_LEVEL"

def traceVariable : String := "GLYPH_DEBUG_PY_TRACE"

end Settings

end GlyphFormat
