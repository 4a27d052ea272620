import GlyphFormat.File.AtomicWrite
import GlyphFormat.Formatter

/-!
# Source files

A source file holds a program as UTF-8, line breaks as they are. Formatting a file writes it only
when its text changes. Checking never writes.
-/

namespace GlyphFormat

/-- What fails at a file although the file system would let it pass. -/
structure FileFaults where
  read : Option SystemError := none
  write : AtomicWrite.Faults := AtomicWrite.noFaults

inductive IoAction where
  | touch | read | write
  deriving DecidableEq

def IoAction.text : IoAction → String
  | .touch => "I/O failure on"
  | .read => "Failed to read"
  | .write => "Failed to write"

/-- A file that cannot be read or written. -/
structure IoFailure where
  action : IoAction
  path : Path
  cause : IoCause
  deriving DecidableEq

def IoFailure.message (f : IoFailure) : Text :=
  Text.ofString f.action.text ++ " " ++ f.path.toText ++ ": " ++ f.cause.reason

/-- Why work on a file came to nothing. -/
inductive FileFailure where
  | io (f : IoFailure)
  | format (f : FormatFailure)
  /-- The path is none that the system could be asked about. -/
  | invalid (f : AccessFault)
  deriving DecidableEq

/-- What work on a file tells about itself. -/
inductive FileEvent where
  | format (e : FormatEvent)
  | unchanged (path : Path)
  | wrote (path : Path)
  deriving DecidableEq

/-- The outcome of work on a file, and the events on the way. -/
structure FileWork (α : Type) where
  outcome : Except FileFailure α
  events : List FileEvent

namespace FileSystem

/-- The text of a file, without any change to its line breaks. -/
def readText (fs : FileSystem) (fault : Option SystemError) (p : Path) : Except IoCause Text :=
  match fs.read p with
  | .error f => .error (.access f)
  | .ok octets =>
    match fault with
    | some e => .error (.system e)
    | none => (Utf8.decode octets).mapError .decode

/-- A cause that the system or the encoding gives makes a failure of the file; any other is a fault
of the path itself. -/
def failure (action : IoAction) (p : Path) : IoCause → FileFailure
  | .access f => if f.isSystem then .io ⟨action, p, .access f⟩ else .invalid f
  | cause => .io ⟨action, p, cause⟩

def load (fs : FileSystem) (fault : Option SystemError) (p : Path) : Except FileFailure Text :=
  (fs.readText fault p).mapError (failure .read p)

/-- The text of a file and its canonical text. -/
def canonical (fs : FileSystem) (fault : Option SystemError) (p : Path) :
    FileWork (Text × Text) :=
  match fs.load fault p with
  | .error f => ⟨.error f, []⟩
  | .ok source =>
    let f := format source (some p)
    ⟨match f.outcome with
      | .ok formatted => .ok (source, formatted)
      | .error e => .error (.format e),
     f.events.map .format⟩

/-- The file already has its canonical text. -/
def checkFile (fs : FileSystem) (fault : Option SystemError) (p : Path) : FileWork Bool :=
  let w := fs.canonical fault p
  ⟨w.outcome.map fun (source, formatted) => formatted = source, w.events⟩

/-- Gives a file its canonical text, which is the answer. Gives also the file systems between the
steps of the write, if there is one. -/
def formatFileTraced (fs : FileSystem) (faults : FileFaults) (p : Path) :
    FileWork Text × FileSystem × List FileSystem :=
  let w := fs.canonical faults.read p
  match w.outcome with
  | .error f => (⟨.error f, w.events⟩, fs, [])
  | .ok (source, formatted) =>
    if formatted = source then (⟨.ok formatted, w.events ++ [.unchanged p]⟩, fs, [])
    else
      match fs.writeTraced faults.write p formatted with
      | (.error cause, fs', between) => (⟨.error (failure .write p cause), w.events⟩, fs', between)
      | (.ok (), fs', between) => (⟨.ok formatted, w.events ++ [.wrote p]⟩, fs', between)

/-- Gives a file its canonical text, which is the answer. -/
def formatFile (fs : FileSystem) (faults : FileFaults) (p : Path) :
    FileWork Text × FileSystem :=
  let (work, last, _) := fs.formatFileTraced faults p
  (work, last)

end FileSystem

end GlyphFormat
