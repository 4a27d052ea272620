import GlyphFormat.Command.Arguments
import GlyphFormat.Command.Log
import GlyphFormat.Outline

/-!
# The command

The targets of a command line are worked on in order, whatever becomes of the ones before. A
directory stands for every source file below it; a lone dash, and an empty command line, stand for
the standard input. The status is the highest that any target gives.
-/

namespace GlyphFormat.Command

inductive Status where
  | ok | findings | failedIo | failed
  deriving DecidableEq

namespace Status

/-- The exit code. -/
def code : Status → Nat
  | .ok => 0
  | .findings => 1
  | .failedIo => 2
  | .failed => 3

def max (a b : Status) : Status := if a.code < b.code then b else a

end Status

/-- The ending of the names of source files. -/
def suffix : Text := ".gly"

/-- What explains a failure when traces are wanted. -/
inductive Trace where
  | io (cause : IoCause)
  | path (f : AccessFault)
  | write (f : WriteFault)
  | outline (f : Outline.Fault)
  deriving DecidableEq

/-- What fails at the files although the file system would let it pass. -/
abbrev Faults := Location → FileFaults

def noFaults : Faults := fun _ => {}

/-- A piece of the error output. -/
inductive Notice where
  | line (t : Text)
  | log (e : LogEntry)
  | trace (t : Trace)

/-- The state of a run: the files, the standard input that is left, and the output. -/
structure State where
  files : FileSystem
  stdin : Octets
  stdout : Text := []
  stderr : List Notice := []
  status : Status := .ok

namespace State

def print (s : State) (t : Text) : State := { s with stdout := s.stdout ++ t }

def notice (s : State) (ns : List Notice) : State := { s with stderr := s.stderr ++ ns }

def say (s : State) (t : Text) : State := s.notice [.line t]

def log (s : State) (es : List LogEntry) : State := s.notice (es.map .log)

def finish (s : State) (status : Status) : State := { s with status := s.status.max status }

def report (s : State) (ds : List Diagnostic) : State :=
  s.notice (ds.map fun d => .line d.toText)

/-- Ends a target that failed for a reason that is neither in the source nor in a file. -/
def giveUp (s : State) (wantTrace : Bool) (message : Text) (t : Trace) : State :=
  let s := s.say ("Internal error: " ++ message)
  let s := if wantTrace then (s.notice [.line "", .line "Python traceback:", .trace t]) else s
  s.finish .failed

/-- Ends a target without a canonical text. -/
def endFormat (s : State) (wantTrace : Bool) : FormatFailure → State
  | .reported ds => (s.report ds).finish .findings
  | .unwritable f => s.giveUp wantTrace f.message (.write f)

/-- Ends a target whose file work failed. -/
def endFile (s : State) (wantTrace : Bool) : FileFailure → State
  | .io f =>
    let s := s.say f.message
    (if wantTrace then s.notice [.trace (.io f.cause)] else s).finish .failedIo
  | .format f => s.endFormat wantTrace f
  | .invalid f => s.giveUp wantTrace f.message (.path f)

/-- Prints the outline of a source. -/
def printOutline (s : State) (wantTrace : Bool) (source : Text) (path : Option Path) : State :=
  let program := parse source path
  match program.diagnostics with
  | [] =>
    match Outline.ofProgram program.items with
    | .ok o => (s.print o.toText).finish .ok
    | .error f => s.giveUp wantTrace f.message (.outline f)
  | ds => (s.report ds).finish .findings

/-- Line breaks of every kind become line feeds. -/
def universalNewlines : Text → Text
  | [] => []
  | c :: rest =>
    if c = '\r' then
      match rest with
      | d :: rest' => if d = '\n' then '\n' :: universalNewlines rest'
        else '\n' :: universalNewlines (d :: rest')
      | [] => ['\n']
    else c :: universalNewlines rest

/-- Works on the standard input, which can be read once. -/
def runStdin (s : State) (a : Arguments) (wantTrace : Bool) : State :=
  let octets := s.stdin
  let s := { s with stdin := [] }
  match Utf8.decode octets with
  | .error f => s.giveUp wantTrace f.message (.io (.decode f))
  | .ok t =>
    let source := universalNewlines t
    if a.tree then s.printOutline wantTrace source none
    else
      let f := format source none
      let s := s.log (f.events.map LogEntry.ofFormatEvent)
      match f.outcome with
      | .error e => s.endFormat wantTrace e
      | .ok formatted =>
        if a.check then s.finish (if formatted = source then .ok else .findings)
        else (s.print formatted).finish .ok

/-- Works on one file. -/
def runFile (s : State) (faults : Faults) (a : Arguments) (wantTrace : Bool) (p : Path) : State :=
  let s := s.log [LogEntry.formatting p]
  let here := faults (s.files.resolve p)
  if a.tree then
    match s.files.load here.read p with
    | .error f => s.endFile wantTrace f
    | .ok source => s.printOutline wantTrace source (some p)
  else if a.check then
    let w := s.files.checkFile here.read p
    let s := s.log (w.events.map LogEntry.ofFileEvent)
    match w.outcome with
    | .error f => s.endFile wantTrace f
    | .ok true => s.finish .ok
    | .ok false => (s.say ("would reformat " ++ p.toText)).finish .findings
  else
    let (w, files) := s.files.formatFile here p
    let s := { s with files }.log (w.events.map LogEntry.ofFileEvent)
    match w.outcome with
    | .error f => s.endFile wantTrace f
    | .ok _ => s.finish .ok

end State

/-- The files that a target stands for. A target that cannot be examined has none, and neither has
a directory with one below it whose path is too long. What cannot be listed is passed over. -/
def expand (fs : FileSystem) (p : Path) : Except AccessFault (List Path) :=
  match fs.isDirectory p with
  | .error f => .error f
  | .ok false => .ok [p]
  | .ok true =>
    match fs.locate p with
    | .error f => .error f
    | .ok dir =>
      let pathOf (l : Location) : Path := p.append (l.drop dir.length)
      if (fs.directories dir).any fun l =>
          FileSystem.maxPath ≤ FileSystem.octetLength (pathOf l).toText then .error .nameTooLong
      else .ok ((fs.below dir suffix).map pathOf)

/-- A lone dash, the standard input. -/
def dash : Text := "-"

/-- Works on one target. A target that cannot be examined stops the run. -/
def runTarget (faults : Faults) (a : Arguments) (wantTrace : Bool) (s : State) (target : Text) :
    Except (AccessFault × State) State :=
  if target = dash then .ok (s.runStdin a wantTrace)
  else
    match expand s.files (Path.ofText target) with
    | .error f => .error (f, s)
    | .ok paths => .ok (paths.foldl (fun s p => s.runFile faults a wantTrace p) s)

def runTargets (faults : Faults) (a : Arguments) (wantTrace : Bool) :
    List Text → State → Except (AccessFault × State) State
  | [], s => .ok s
  | t :: ts, s =>
    match runTarget faults a wantTrace s t with
    | .error e => .error e
    | .ok s => runTargets faults a wantTrace ts s

/-- The level of the log: options for more of it go before the environment. -/
def level (a : Arguments) (settings : Settings) : Level :=
  match a.verbosity with
  | 0 => settings.level
  | 1 => .info
  | _ => .debug

/-- The answer of a run. -/
structure Answer where
  code : Nat
  stdout : Text
  stderr : List Notice
  files : FileSystem

/-- A run that was stopped by a fault, and the files then. -/
structure Stopped where
  fault : AccessFault
  files : FileSystem

/-- The notices that are shown at a level. -/
def shown (l : Level) (ns : List Notice) : List Notice :=
  ns.filter fun
    | .log e => l.rank ≤ e.level.rank
    | _ => true

/-- The error output; `trace` gives the text of a trace. -/
def noticeText (trace : Trace → Text) : Notice → Text
  | .line t => t ++ "\n"
  | .log e => e.toText ++ "\n"
  | .trace t => trace t ++ "\n"

/-- What to work on: the paths, or the standard input if there are none. -/
def targets (a : Arguments) : List Text := if a.paths.isEmpty then [dash] else a.paths

/-- Runs a command line. -/
def run (settings : Settings) (args : List Text) (stdin : Octets) (files : FileSystem)
    (faults : Faults := noFaults) : Except Stopped Answer :=
  match Arguments.parse args with
  | .help => .ok ⟨0, Arguments.helpText, [], files⟩
  | .refuse f =>
    .ok ⟨2, [], [.line Arguments.usage, .line ("glyph-fmt: error: " ++ f.message)], files⟩
  | .run a =>
    match runTargets faults a settings.trace (targets a) { files, stdin } with
    | .error (fault, s) => .error ⟨fault, s.files⟩
    | .ok s => .ok ⟨s.status.code, s.stdout, shown (level a settings) s.stderr, s.files⟩

end GlyphFormat.Command
