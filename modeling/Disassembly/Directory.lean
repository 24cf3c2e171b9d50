import Disassembly.Settings

/-! A directory as a map from paths to files and folders, and the ways in which programs and
settings are kept in it. A call fails if no path is spelled as its text is, if its text leaves
no room for a temporary file that is needed, if a name is missing or if a folder stands
where a file is wanted, and for no other reason of the file system. -/
namespace Disassembly

inductive Node where
  | file (bytes : List UInt8)
  | folder
deriving DecidableEq

/-- The names from the directory down to a file or folder. -/
abbrev Path := List String

abbrev Directory := Table Path Node

namespace Directory

/-- The directory itself is a folder. -/
def isFolder (d : Directory) (path : Path) : Bool := path = [] || d.get? path = some .folder

/-- The most bytes in the text of a path. -/
def pathLimit : Nat := 4095

/-- The most bytes in a name. -/
def nameLimit : Nat := 255

/-- The names between the slashes of a text. No path is spelled with a zero character, and one
from the root of the file system lies outside. -/
def namesOf? (text : String) : Option (List String) :=
  let cs := text.toList
  if cs = [] ∨ cs.head? = some '/' ∨ '\x00' ∈ cs ∨ pathLimit < text.utf8ByteSize then none
  else some ((splitAtEach '/' cs).map String.ofList)

/-- The bytes in the spelling of the folder in which the last name of a path stands. Empty
names and single dots at either side of that name add nothing. -/
def folderLength (names : List String) : Nat :=
  let idle (name : String) : Bool := name = "" || name = "."
  let folder := ((names.reverse.dropWhile idle).drop 1).dropWhile idle
  (String.intercalate "/" folder).utf8ByteSize

/-- The bytes that the path of a temporary file takes besides the spelling of its folder: the
place of the directory itself goes in front, and a name of its own behind. -/
def temporaryRoom : Nat := 36

/-- Whether a temporary file can stand beside the file that a text means. -/
def hasRoom (text : String) : Bool :=
  (namesOf? text).any fun names => folderLength names + temporaryRoom ≤ pathLimit

/-- Follows names from one folder to the next. Each name but the last must be that of a
folder; empty names and single dots stay where they are, two dots go up. -/
def follow (d : Directory) : Path → List String → Option Path
  | path, [] => some path
  | path, name :: rest =>
    if !d.isFolder path then none
    else if name = "" ∨ name = "." then follow d path rest
    else if name = ".." then if path = [] then none else follow d path.dropLast rest
    else if nameLimit < name.utf8ByteSize then none
    else follow d (path ++ [name]) rest

/-- The path that a text means. -/
def locate (d : Directory) (text : String) : Option Path := (namesOf? text).bind (d.follow [])

/-- The path that a text means if it is to become a folder, in which case slashes at the end
change nothing. -/
def locateFolder (d : Directory) (text : String) : Option Path :=
  (namesOf? text).bind fun names => d.follow [] (names.reverse.dropWhile (· = "")).reverse

/-- The names in the directory itself, in their order. -/
def names (d : Directory) : List String :=
  d.keys.filterMap fun path =>
    match path with
    | [name] => some name
    | _ => none

/-- The bytes of a file. -/
def read (d : Directory) (path : String) : Except Error (List UInt8) :=
  match (d.locate path).bind d.get? with
  | some (.file bytes) => .ok bytes
  | _ => .error .inputOutput

/-- The path of a file that is there or may be made. -/
def target (d : Directory) (path : String) : Except Error Path :=
  match d.locate path with
  | some found => if d.isFolder found then .error .inputOutput else .ok found
  | none => .error .inputOutput

/-- Writes a file in place. -/
def write (path : String) (bytes : List UInt8) : Edit Directory Unit := do
  let d ← get
  let found ← Edit.require id (d.target path)
  set (d.insert found (.file bytes))

def makeFolder (path : String) : Edit Directory Unit := do
  let d ← get
  let found ← Edit.demand .inputOutput (d.locateFolder path)
  Edit.refuseIf (found = [] ∨ d.contains found) .inputOutput
  set (d.insert found .folder)

/-- A name longer than every name in the directory. No path needs to spell it. -/
def unusedName (d : Directory) : String :=
  let longest := d.keys.flatten.foldl (fun n name => max n name.length) 0
  String.ofList (List.replicate (longest + 1) '~')

/-- Moves a file over another. It stays where it is if a folder is in the way. -/
def rename (source destination : Path) : Edit Directory Unit := do
  let d ← get
  let node ← Edit.demand .inputOutput (d.get? source)
  Edit.refuseIf (d.isFolder destination) .inputOutput
  set ((d.erase source).insert destination node)

/-- Writes a file under a name of its own and moves it into place. The file is taken away
again if it cannot be moved. -/
def replace (path : String) (bytes : List UInt8) : Edit Directory Unit := do
  let d ← get
  let found ← Edit.demand .inputOutput (d.locate path)
  Edit.refuseIf (!hasRoom path) .inputOutput
  let temporary := found.dropLast ++ [d.unusedName]
  set (d.insert temporary (.file bytes))
  try
    rename temporary found
  catch e =>
    modify fun d => d.erase temporary
    throw e

/-- Saves the archive of a program. -/
def save (options : ArchiveOptions) (p : Program) (path : String) : Edit Directory Unit :=
  if options.atomicSave then replace path (Archive.encode p) else write path (Archive.encode p)

/-- Loads a program from a file, unless the file is larger than the options allow. Folders have no
length here: one that is loaded is an input or output error under every limit. A file system does
give a folder a length, so under a limit below that one it would be refused as too large first. -/
def load (options : ArchiveOptions) (d : Directory) (path : String) : Except Error Program := do
  let bytes ← d.read path
  if options.maxFileSize.toNat < bytes.length then
    .error (.fileTooLarge options.maxFileSize bytes.length)
  else Archive.decode options bytes

/-- Loads settings from a file, which must be a text. -/
def loadSettings (d : Directory) (path : String) : Except Error Settings := do
  let bytes ← d.read path
  match String.fromUTF8? ⟨bytes.toArray⟩ with
  | some text => Settings.decode text
  | none => throw .inputOutput

end Directory

end Disassembly
