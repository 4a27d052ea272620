import GlyphFormat.File.System

/-!
# Atomic writes

A file gets new content in one step: the content is written to a temporary file in the same
directory, which then takes the place of the target. Whatever goes wrong before that step, the
target keeps what it had, and the temporary file is removed. The target's permission bits stay if
the target is seen to be there; a file that is taken to be new can be read and written by its owner
alone.
-/

namespace GlyphFormat

/-- An error of the system that does not follow from what the file system holds. -/
structure SystemError where
  number : Nat
  text : Text
  deriving DecidableEq

/-- Where one asks whether something is there, the error is the answer that nothing is: no such
file, a bad file descriptor, not a directory, and a loop of links. -/
def SystemError.meansAbsence (e : SystemError) : Bool := [2, 9, 20, 40].contains e.number

/-- The cause of a failed read or write. -/
inductive IoCause where
  | access (f : AccessFault)
  | decode (f : Utf8.Fault)
  | system (e : SystemError)
  | other (text : Text)
  deriving DecidableEq

namespace IoCause

/-- The reason that a message gives. -/
def reason : IoCause → Text
  | .access f => f.message
  | .decode f => f.message
  | .system e => if e.text = [] then "[Errno " ++ Text.ofNat e.number ++ "] " else e.text
  | .other t => t

def meansAbsence : IoCause → Bool
  | .access f => f.meansAbsence
  | .system e => e.meansAbsence
  | .decode _ | .other _ => false

end IoCause

namespace AtomicWrite

inductive Step where
  /-- Asks whether the target is there. -/
  | find
  /-- Asks for the permission bits of the target. -/
  | stat
  | create | write | flush | sync | close | changeMode | replace
  deriving DecidableEq

/-- The steps in their order. -/
def steps : List Step :=
  [.find, .stat, .create, .write, .flush, .sync, .close, .changeMode, .replace]

/-- Which steps fail although the file system would let them pass. -/
abbrev Faults := Step → Option SystemError

def noFaults : Faults := fun _ => none

/-- What is to be written where. -/
structure Job where
  target : Location
  content : Octets

/-- How far a write has come. -/
structure Progress where
  fs : FileSystem
  /-- The target was seen to be there. -/
  found : Bool := false
  /-- The target's permission bits, once they are known. -/
  mode : Option Nat := none
  /-- The temporary file, if it exists. -/
  temporary : Option Location := none

/-- Changes the temporary file, if it exists. -/
def Progress.onTemporary (p : Progress) (f : Node → Node) : Progress :=
  match p.temporary with
  | some l => { p with fs := p.fs.update l f }
  | none => p

def directory (j : Job) : Location := j.target.dropLast

def name (j : Job) : Text := j.target.getLastD []

/-- A name for the temporary file; each number gives a different one. -/
def temporaryName (j : Job) (n : Nat) : Text :=
  let stamp := Text.ofNat n
  let zeros := List.replicate (8 - stamp.length) (CodePoint.ofChar '0')
  "." ++ name j ++ "." ++ zeros ++ stamp ++ ".tmp"

/-- The first temporary name that is free. -/
def freeName? (fs : FileSystem) (j : Job) : Option Text :=
  ((List.range (fs.entries.length + 1)).map (temporaryName j)).find? fun n =>
    (fs.get? (directory j ++ [n])).isNone

/-- A step by the rules of the file system. -/
def perform (j : Job) (p : Progress) : Step → Except AccessFault Progress
  | .find =>
    match p.fs.reach j.target with
    | .error f => .error f
    | .ok l => (p.fs.entry l).map fun _ => { p with found := true }
  | .stat =>
    match p.fs.reach j.target with
    | .error f => .error f
    | .ok l => (p.fs.entry l).map fun n =>
        { p with mode := some (n.mode % FileSystem.permissionBits) }
  | .create =>
    match freeName? p.fs j with
    | none => .error .exists
    | some n =>
      match p.fs.reach (directory j ++ [n]) with
      | .error f => .error f
      | .ok l =>
        if p.fs.permits FileSystem.ownerWrites (directory j) then
          .ok { p with fs := p.fs.set l (.file [] 0o600), temporary := some l }
        else .error .denied
  | .write => .ok (p.onTemporary (Node.withContent j.content))
  | .flush | .sync | .close => .ok p
  | .changeMode =>
    match p.mode with
    | some m => .ok (p.onTemporary (Node.withMode m))
    | none => .ok p
  | .replace =>
    if (p.fs.get? j.target).any Node.isDirectory then .error .isDirectory
    else
      match p.temporary with
      | none => .ok p
      | some l => .ok { p with fs := p.fs.move l j.target, temporary := none }

/-- Removes what is left of a write. -/
def cleanUp (p : Progress) : FileSystem :=
  match p.temporary with
  | some l => p.fs.erase l
  | none => p.fs

/-- The step is made at all: a target that was not seen has no permission bits to keep. -/
def applies (p : Progress) : Step → Bool
  | .stat => p.found
  | .changeMode => p.mode.isSome
  | _ => true

/-- Makes a step, which may fail by its own fault or by the rules. Only asking whether the target is
there has an answer also where that fails. -/
def attempt (faults : Faults) (j : Job) (p : Progress) (s : Step) : Except IoCause Progress :=
  let outcome : Except IoCause Progress := match faults s with
    | some e => .error (.system e)
    | none => (perform j p s).mapError .access
  match outcome with
  | .error cause => if s = .find && cause.meansAbsence then .ok p else .error cause
  | .ok q => .ok q

/-- Runs steps until one fails. Gives the outcome, the file system then, and the file systems
between the steps. -/
def runSteps (faults : Faults) (j : Job) :
    List Step → Progress → Except IoCause Unit × FileSystem × List FileSystem
  | [], p => (.ok (), cleanUp p, [])
  | s :: rest, p =>
    if applies p s then
      match attempt faults j p s with
      | .error cause => (.error cause, cleanUp p, [p.fs])
      | .ok q =>
        let (outcome, last, between) := runSteps faults j rest q
        (outcome, last, p.fs :: between)
    else runSteps faults j rest p

/-- Writes a file that may fail at the given steps. -/
def run (faults : Faults) (j : Job) (fs : FileSystem) :
    Except IoCause Unit × FileSystem × List FileSystem :=
  runSteps faults j steps { fs }

end AtomicWrite

namespace FileSystem

/-- Replaces the content of the file that a path names. Gives also the file systems between the
steps of the write. -/
def writeTraced (fs : FileSystem) (faults : AtomicWrite.Faults) (p : Path) (text : Text) :
    Except IoCause Unit × FileSystem × List FileSystem :=
  match p.refusal? with
  | some f => (.error (.access f), fs, [])
  | none => AtomicWrite.run faults ⟨fs.resolve p, Utf8.encode text⟩ fs

/-- Replaces the content of the file that a path names. -/
def write (fs : FileSystem) (faults : AtomicWrite.Faults) (p : Path) (text : Text) :
    Except IoCause Unit × FileSystem :=
  let (outcome, last, _) := fs.writeTraced faults p text
  (outcome, last)

end FileSystem

end GlyphFormat
