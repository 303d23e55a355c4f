import Recase.Console.Program
import Std.Time.Format
import Std.Time.Zoned

/-!
# The program on the disk of the machine

* `nodeIn`, `entriesBelow`: what the disk holds. A link is one to where it leads in the end; what is
  neither a directory nor a regular file is a link that leads nowhere.
* `startWorld`: the world as the program finds it: the working directory and the directories named
  by arguments, with all below them that the program looks at. Version control is not asked, so no
  directory counts as being under it.
* `perform`: a change made on the disk.
* `converse`: the program run on the lines read so far. Where it asks for another line, what it has
  printed and changed since the last time comes out, and it is run again with one line more.
-/

namespace Recase.Machine

/-- The place of the directory or file at a path, links followed. -/
def placeAt (path : String) : IO Place :=
  return (Path.parse (← IO.FS.realPath path).toString).segments

/-- What has a name in a directory. Content is read of source files alone: no other is looked at. -/
def nodeIn (directory : Place) (name : String) : IO Node := do
  let path := (← IO.FS.realPath (Disk.pathOf directory).toString) / name
  match (← path.symlinkMetadata).type with
  | .dir => return .directory
  | .file =>
    let isRead := Source.isCandidate Source.usualExtensions [name] (.file .empty)
    return .file (← if isRead then IO.FS.readBinFile path else pure .empty)
  | .symlink => try return .link (← IO.FS.realPath path).toString catch _ => return .link name
  | .other => return .link name

/-- The entries below a directory; those of ignored and hidden directories are left out. -/
partial def entriesBelow (directory : Place) : IO (List (Place × Node)) := do
  let found ← (← IO.FS.realPath (Disk.pathOf directory).toString).readDir
  let entries ← found.toList.mapM fun entry => do
    let place := directory ++ [entry.fileName]
    let node ← nodeIn directory entry.fileName
    let isEntered := node == .directory && !Name.isSkipped Name.ignoredNames entry.fileName
    return (place, node) :: (← if isEntered then entriesBelow place else pure [])
  return entries.flatten

/-- The links among the segments of a path. -/
def linksOn (path : Path) : IO (List (Place × Node)) := do
  let links ← (List.range path.segments.length).mapM fun n => do
    let above : Path := { path with segments := path.segments.take n }
    let name := (path.segments.drop n).headD "."
    let directory ← placeAt above.toString
    match ← nodeIn directory name with
    | .link target => return some (directory ++ [name], Node.link target)
    | _ => return none
  return links.filterMap id

/-- The directory at a path, as a place with the links on the way to it; none if there is none. -/
def directoryAt? (path : String) : IO (Option (Place × List (Place × Node))) := do
  try
    if ← (← IO.FS.realPath path).isDir then
      return some (← placeAt path, ← linksOn (Path.parse path))
    else return none
  catch _ => return none

/-- The tree of some directories, with the directories above them and the links on the way. -/
def treeOf (directories : List (Place × List (Place × Node))) : IO Tree := do
  let tops := (directories.map (·.1)).eraseDups
  let outer := tops.filter fun place => !tops.any place.isBelow
  let above := outer.flatMap fun place =>
    (List.range place.length).map fun n => (place.take (n + 1), Node.directory)
  let below ← outer.mapM entriesBelow
  return (above ++ directories.flatMap (·.2)).foldl (fun t (place, node) => t.put place node)
    ⟨below.flatten⟩

/-- The world as the program finds it. -/
def startWorld (arguments : List String) : IO World := do
  let here ← placeAt "."
  let named ← arguments.mapM directoryAt?
  let seed ← IO.rand 0 (Nat.pow 16 Name.tokenLength - 1)
  return {
    disk := ⟨← treeOf ((here, []) :: named.filterMap id), here, []⟩
    git := .empty
    unreadable := []
    unwritable := []
    homes := []
    home := (← IO.getEnv "HOME").getD (Disk.pathOf here).toString
    clock := (← Std.Time.PlainDateTime.now).format "uuuu-MM-dd'T'HH:mm:ss"
    token := fun n => Name.tokenText (seed + n)
    drawn := 0 }

/-- A change made on the disk. A directory that the program has not looked at may be there
already. -/
def perform : Change → IO Unit
  | .moved src dst => IO.FS.rename (Disk.pathOf src).toString (Disk.pathOf dst).toString
  | .wrote place content => IO.FS.writeBinFile (Disk.pathOf place).toString content
  | .madeDirectory place => IO.FS.createDirAll (Disk.pathOf place).toString

/-- Why there is no window. -/
def noWindow : String := "No module named 'PySide6'"

/-- How the arguments are to be given. -/
def usage : String :=
  "usage: kebabify --cli [run [--force] [--log] [--log-file FILE] [--dry-run] [--yes] | preview | "
    ++ "recover] DIRECTORY..."

/-- The program in a world with the input read so far, after `printed` characters and `changed`
changes have come out. -/
partial def converse (w : World) (arguments : List String) (input : String)
    (printed changed : Nat) : IO UInt32 := do
  let (ending, t) := Console.entry noWindow arguments ⟨w, Console.linesOf input, ""⟩
  let stdout ← IO.getStdout
  stdout.putStr (String.ofList (t.output.toList.drop printed))
  stdout.flush
  (t.world.disk.changes.drop changed).forM perform
  match ending with
  | .exit code => return code.toUInt32
  | .usage code =>
    IO.eprintln usage
    return code.toUInt32
  | .failed failure =>
    let line ← if failure = .endOfInput then (← IO.getStdin).getLine else pure ""
    if line.isEmpty then
      IO.eprintln failure.message
      return 1
    else converse w arguments (input ++ line) t.output.length t.world.disk.changes.length

end Recase.Machine

/-- Runs the program on the disk of the machine. -/
def main (arguments : List String) : IO UInt32 := do
  Recase.Machine.converse (← Recase.Machine.startWorld arguments) arguments "" 0 0
