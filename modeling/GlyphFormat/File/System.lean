import GlyphFormat.Path
import GlyphFormat.Text.Utf8

/-!
# File systems

A file system holds files and directories at locations, and one of the directories is where relative
paths start. Looking a path up goes through its components one by one; the first component that
cannot be passed decides the fault. All of it belongs to one owner, and the permission bits of the
owner alone are looked at: a file or directory may be read, a new entry may be made in a directory,
and a directory may be gone through.
-/

namespace GlyphFormat

/-- Why a path cannot be used. -/
inductive AccessFault where
  | notFound
  | isDirectory
  | notDirectory
  | nameTooLong
  | exists
  /-- The owner may not do it. -/
  | denied
  /-- The path holds a NUL, which no path may. The system is not asked. -/
  | nulInPath
  /-- The path has no octets. The system is not asked. -/
  | unencodable (f : FileName.Fault)
  deriving DecidableEq

namespace AccessFault

def message : AccessFault → Text
  | .notFound => "No such file or directory"
  | .isDirectory => "Is a directory"
  | .notDirectory => "Not a directory"
  | .nameTooLong => "File name too long"
  | .exists => "File exists"
  | .denied => "Permission denied"
  | .nulInPath => "embedded null byte"
  | .unencodable f => f.message

/-- The system itself reports the fault. -/
def isSystem : AccessFault → Bool
  | .nulInPath | .unencodable _ => false
  | _ => true

/-- Where one asks whether something is there, the fault is the answer that nothing is. -/
def meansAbsence : AccessFault → Bool
  | .notFound | .notDirectory => true
  | _ => false

end AccessFault

/-- Why the system cannot be asked about a path. -/
def Path.refusal? (p : Path) : Option AccessFault :=
  match FileName.fault? p.toText with
  | some f => some (.unencodable f)
  | none => if p.hasNul then some .nulInPath else none

/-- The components of the way from the root. -/
abbrev Location := List Text

inductive Node where
  | file (content : Octets) (mode : Nat)
  | directory (mode : Nat)
  deriving DecidableEq

namespace Node

def mode : Node → Nat
  | .file _ m | .directory m => m

def withMode (m : Nat) : Node → Node
  | .file c _ => .file c m
  | .directory _ => .directory m

def withContent (c : Octets) : Node → Node
  | .file _ m => .file c m
  | .directory m => .directory m

/-- The permission bits of a directory. -/
def directoryMode? : Node → Option Nat
  | .directory m => some m
  | .file .. => none

def isDirectory (n : Node) : Bool := n.directoryMode?.isSome

end Node

structure FileSystem where
  entries : List (Location × Node) := []
  /-- The directory where relative paths start. -/
  start : Location := []
  /-- The locations that were given new content, the last one first. -/
  replaced : List Location := []

namespace FileSystem

/-- What is at a location. The root is always there. -/
def get? (fs : FileSystem) (l : Location) : Option Node :=
  if l = [] then some (.directory 0o755) else fs.entries.lookup l

def insertEntry (l : Location) (n : Node) : List (Location × Node) → List (Location × Node)
  | [] => [(l, n)]
  | e :: es => if e.1 = l then (l, n) :: es else e :: insertEntry l n es

def set (fs : FileSystem) (l : Location) (n : Node) : FileSystem :=
  { fs with entries := insertEntry l n fs.entries }

def erase (fs : FileSystem) (l : Location) : FileSystem :=
  { fs with entries := fs.entries.filter (·.1 ≠ l) }

/-- Changes what is at a location, if something is. -/
def update (fs : FileSystem) (l : Location) (f : Node → Node) : FileSystem :=
  match fs.get? l with
  | none => fs
  | some n => fs.set l (f n)

/-- Moves what is at a location to another one, where it takes the place of what is there. -/
def move (fs : FileSystem) (l l' : Location) : FileSystem :=
  match fs.get? l with
  | none => fs
  | some n => { (fs.set l' n).erase l with replaced := l' :: fs.replaced }

/-- The longest name of an entry, in octets. -/
def maxName : Nat := 255

/-- Paths are shorter than this, in octets. -/
def maxPath : Nat := 4096

def octetLength (t : Text) : Nat := (FileName.encode t).length

/-- What is at a location, or that nothing is. -/
def entry (fs : FileSystem) (l : Location) : Except AccessFault Node :=
  match fs.get? l with
  | some n => .ok n
  | none => .error .notFound

/-! ## Permissions -/

/-- The permission bits let the owner read. -/
def ownerReads (mode : Nat) : Bool := mode.testBit 8

/-- The permission bits let the owner write. -/
def ownerWrites (mode : Nat) : Bool := mode.testBit 7

/-- The permission bits of a directory let the owner go through it. -/
def ownerSearches (mode : Nat) : Bool := mode.testBit 6

/-- At the location is a directory whose permission bits allow something. -/
def permits (fs : FileSystem) (allowed : Nat → Bool) (l : Location) : Bool :=
  ((fs.get? l).bind Node.directoryMode?).any allowed

/-! ## Looking paths up -/

/-- Where a component leads. -/
def next (l : Location) (name : Text) : Location :=
  if name = Path.up then l.dropLast else if name = Path.here then l else l ++ [name]

/-- One component further, which only a directory allows. -/
def enter (fs : FileSystem) (l : Location) (name : Text) : Except AccessFault Location :=
  match fs.get? l with
  | none => .error .notFound
  | some (.file ..) => .error .notDirectory
  | some (.directory mode) =>
    if !ownerSearches mode then .error .denied
    else if maxName < octetLength name then .error .nameTooLong
    else .ok (next l name)

/-- Goes along the components. The last one need not exist. -/
def walk (fs : FileSystem) (l : Location) : List Text → Except AccessFault Location
  | [] => .ok l
  | name :: names =>
    match fs.enter l name with
    | .error f => .error f
    | .ok l' => walk fs l' names

/-- Where a path begins. -/
def startOf (fs : FileSystem) (p : Path) : Location := if p.slashes = 0 then fs.start else []

/-- Goes from the root to a location by its full path. -/
def reach (fs : FileSystem) (l : Location) : Except AccessFault Location :=
  if maxPath ≤ octetLength (Path.toText ⟨1, l⟩) then .error .nameTooLong else fs.walk [] l

/-- The location that a path names. -/
def locate (fs : FileSystem) (p : Path) : Except AccessFault Location :=
  match p.refusal? with
  | some f => .error f
  | none =>
    if maxPath ≤ octetLength p.toText then .error .nameTooLong
    else fs.walk (fs.startOf p) p.names

/-- What a path names. -/
def stat (fs : FileSystem) (p : Path) : Except AccessFault Node :=
  match fs.locate p with
  | .error f => .error f
  | .ok l => fs.entry l

/-- The path names a directory. A path that leads nowhere names none, nor does one that the system
cannot be asked about; any other fault is passed on. -/
def isDirectory (fs : FileSystem) (p : Path) : Except AccessFault Bool :=
  match fs.stat p with
  | .ok n => .ok n.isDirectory
  | .error f => if f.meansAbsence || !f.isSystem then .ok false else .error f

/-- The octets of the file that a path names. -/
def read (fs : FileSystem) (p : Path) : Except AccessFault Octets :=
  match fs.stat p with
  | .error f => .error f
  | .ok n =>
    if !ownerReads n.mode then .error .denied
    else
      match n with
      | .file content _ => .ok content
      | .directory _ => .error .isDirectory

def mode (fs : FileSystem) (p : Path) : Except AccessFault Nat := (fs.stat p).map Node.mode

/-- There are nine permission bits: read, write and execute for the owner, the group and others. -/
def permissionBits : Nat := 0o1000

/-- Changes the permission bits of what a path names. -/
def changeMode (fs : FileSystem) (p : Path) (m : Nat) : Except AccessFault FileSystem :=
  match fs.locate p with
  | .error f => .error f
  | .ok l => (fs.entry l).map fun n => fs.set l (n.withMode (m % permissionBits))

/-- The location that a path names when `..` takes back the component before it without a look. -/
def resolve (fs : FileSystem) (p : Path) : Location := p.names.foldl next (fs.startOf p)

/-! ## Listings -/

/-- Locations in order, component by component. -/
def sortLocations (ls : List Location) : List Location := ls.mergeSort Path.partsLe

/-- Looking through the directory at `l` comes to what the names lead to: each directory on the way
can be listed, and what is deeper is only come to through directories that can be gone through. -/
def reveals (fs : FileSystem) (l : Location) : List Text → Bool
  | [] => true
  | name :: names =>
    fs.permits ownerReads l && (names.isEmpty || fs.permits ownerSearches l) &&
      fs.reveals (l ++ [name]) names

/-- A directory and the directories below it that are come to. -/
def directories (fs : FileSystem) (dir : Location) : List Location :=
  (fs.entries.filter fun e =>
    dir.isPrefixOf e.1 && e.2.isDirectory && fs.reveals dir (e.1.drop dir.length)).map (·.1)

/-- The locations below a directory that are come to and whose last component ends in `suffix`, in
order. -/
def below (fs : FileSystem) (dir : Location) (suffix : Text) : List Location :=
  sortLocations ((fs.entries.map (·.1)).filter fun l =>
    dir.isPrefixOf l && dir.length < l.length && suffix.isSuffixOf (l.getLastD []) &&
      fs.reveals dir (l.drop dir.length))

end FileSystem

end GlyphFormat
