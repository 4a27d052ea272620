import GlyphFormat.Command.Run

/-!
# Command line

Reads from disk what the targets of a command line can reach, runs the command on it, writes the
files that got new content, and prints the output.
-/

namespace GlyphFormat.Disk

/-- The full name of a location. -/
def fullName (l : Location) : String := (Path.toText ⟨1, l⟩).toString

/-- Reads the entry at a location, if there is one. A file that cannot be read has no permission
bits, and a directory where nothing can be asked about cannot be gone through. -/
def load (fs : FileSystem) (l : Location) : IO FileSystem := do
  try
    let path ← IO.FS.realPath (fullName l)
    if ← path.isDir then return fs.set l (.directory 0o755)
    let content : IO (Octets × Nat) := do
      return ((← IO.FS.readBinFile path).toList, 0o644)
    let (octets, mode) ← content <|> pure ([], 0)
    return fs.set l (.file octets mode)
  catch
    | .permissionDenied .. =>
      return (fs.set l (.file [] 0)).update l.dropLast (Node.withMode 0o600)
    | _ => return fs

/-- Reads the entries on the way from the root to a location. -/
def loadWay (fs : FileSystem) (l : Location) : IO FileSystem :=
  (List.range l.length).foldlM (fun fs n => load fs (l.take (n + 1))) fs

/-- Reads the directories below a location, and the entries there that a directory stands for. A
directory that cannot be listed has no permission bits for that. -/
partial def loadBelow (fs : FileSystem) (l : Location) : IO FileSystem := do
  try
    let mut fs := fs
    let path ← IO.FS.realPath (fullName l)
    for e in (← path.readDir) do
      let name := Text.ofString e.fileName
      let l := l ++ [name]
      let isDir : IO Bool := do return (← e.path.symlinkMetadata).type == .dir
      if ← isDir <|> pure false then
        fs ← loadBelow (← load fs l) l
      else if Command.suffix.isSuffixOf name then
        fs ← load fs l
    return fs
  catch
    | .permissionDenied .. => return fs.update l (Node.withMode 0o300)
    | e => throw e

/-- Reads what a path can reach: the entries along the way and those below a directory. -/
def loadTarget (fs : FileSystem) (p : Path) : IO FileSystem := do
  let places := (List.range (p.parts.length + 1)).map fun n =>
    fs.resolve { p with parts := p.parts.take n }
  let fs ← places.foldlM loadWay fs
  match fs.isDirectory p with
  | .ok true => loadBelow fs (fs.resolve p) <|> pure fs
  | _ => return fs

/-- Gives a file on disk its new content, in place, so that it keeps its permission bits. Says
whether that worked. -/
def store (fs : FileSystem) (l : Location) : IO Bool :=
  match fs.get? l with
  | some (.file content _) =>
    (do IO.FS.writeBinFile (fullName l) ⟨content.toArray⟩; return true) <|> pure false
  | _ => return true

/-- What is said of a file on disk that did not take its new content. -/
def lostWrite (l : Location) : Text :=
  IoFailure.message ⟨.write, ⟨1, l⟩, .system ⟨5, "Input/output error"⟩⟩ ++ "\n"

/-- Everything that is left of a stream. -/
partial def readAll (s : IO.FS.Stream) (before : Octets) : IO Octets := do
  let chunk ← s.read 65536
  if chunk.isEmpty then return before else readAll s (before ++ chunk.toList)

/-- The text that explains a failure. -/
def explain : Command.Trace → Text
  | .io c => c.reason
  | .path f => f.message
  | .write f => f.message
  | .outline f => f.message

/-- Runs a command line, and gives its exit code. -/
def run (args : List Text) : IO UInt32 := do
  let value (name : String) : IO (Option Text) := do
    return (← IO.getEnv name).map Text.ofString
  let settings := Settings.ofVariables (← value Settings.levelVariable)
    (← value Settings.traceVariable)
  let targets := match Arguments.parse args with
    | .run a => Command.targets a
    | _ => []
  let start := (Path.ofText (Text.ofString (← IO.currentDir).toString)).parts
  let fs ← (targets.filter (· ≠ Command.dash)).foldlM
    (fun fs t => loadTarget fs (Path.ofText t)) { start }
  let stdin ← if targets.contains Command.dash then readAll (← IO.getStdin) [] else pure []
  let (code, stdout, stderr, files) := match Command.run settings args stdin fs with
    | .ok a => (a.code, a.stdout, a.stderr.flatMap (Command.noticeText explain), a.files)
    | .error e => (1, [], e.fault.message ++ "\n", e.files)
  let lost ← files.replaced.eraseDups.filterM fun l => return !(← store files l)
  IO.print (Text.toString stdout)
  IO.eprint (Text.toString (stderr ++ lost.flatMap lostWrite))
  return if lost.isEmpty then code.toUInt32 else 2

end GlyphFormat.Disk

def main (args : List String) : IO UInt32 :=
  GlyphFormat.Disk.run (args.map GlyphFormat.Text.ofString)
