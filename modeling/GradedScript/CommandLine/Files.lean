/-!
# Files

What the command line needs from a file system, and a file system in memory that provides it.

`Files.makeDirs` makes a directory with all that lead to it; what it made stays if it fails later.
A `FileTree` resolves paths one name at a time: an empty name and a dot stay, two dots go out, and
every place that is left has to be a directory.
-/

namespace GradedScript

/-- Why a file could not be used. -/
inductive FileError where
  | notFound
  | alreadyExists
  | notDirectory
  | isDirectory
  | notText
  | other (message : String)
deriving DecidableEq, Inhabited

/-- The wording of a file error. -/
def FileError.message : FileError → String
  | .notFound => "No such file or directory (os error 2)"
  | .alreadyExists => "File exists (os error 17)"
  | .notDirectory => "Not a directory (os error 20)"
  | .isDirectory => "Is a directory (os error 21)"
  | .notText => "stream did not contain valid UTF-8"
  | .other message => message

/-- Access to files. -/
structure Files (m : Type → Type) where
  read : (path : String) → m (Except FileError ByteArray)
  write : (path : String) → (content : ByteArray) → m (Except FileError Unit)
  /-- makes one directory -/
  makeDir : (path : String) → m (Except FileError Unit)
  isDirectory : (path : String) → m Bool

/-- The names in a path. -/
def pathNames (path : String) : List String :=
  path.splitOn "/"

/-- A path from the root. -/
def isAbsolute (path : String) : Bool :=
  path.startsWith "/"

/-- A file in a directory. -/
def joinPath (dir name : String) : String :=
  if dir.endsWith "/" then dir ++ name else dir ++ "/" ++ name

/-! ### Making directories -/

namespace Files

variable {m : Type → Type} [Monad m]

/-- Makes a directory that may be there already. -/
def ensureDir (files : Files m) (path : String) : m (Except FileError Unit) := do
  match ← files.makeDir path with
  | .error .alreadyExists =>
    return if ← files.isDirectory path then .ok () else .error .alreadyExists
  | result => return result

/-- Makes a directory; if what leads to it is missing, makes that with `outer` first. -/
def ensureDirAfter (files : Files m) (outer : m (Except FileError Unit)) (path : String) :
    m (Except FileError Unit) := do
  match ← files.ensureDir path with
  | .error .notFound =>
    match ← outer with
    | .ok () => files.ensureDir path
    | failed => return failed
  | result => return result

/-- Makes the directories that names lead to from the start of a path; the last name comes
first. -/
def makeDirsFrom (files : Files m) (start : String) : List String → m (Except FileError Unit)
  | [] => return .ok ()
  | name :: outer =>
    files.ensureDirAfter (files.makeDirsFrom start outer)
      (start ++ "/".intercalate (name :: outer).reverse)

/-- Makes a directory and those that lead to it. The root is always there. -/
def makeDirs (files : Files m) (path : String) : m (Except FileError Unit) :=
  if (pathNames path).all (· == "") then return .ok ()
  else
    let leading := (pathNames path).filter fun name => name != "" && name != "."
    let start := if isAbsolute path then "/" else ""
    files.ensureDirAfter (files.makeDirsFrom start leading.reverse.tail) path

end Files

/-! ### Files in memory -/

/-- A place in a tree: the names that lead to it, the last one first. -/
abbrev Location := List String

/-- What stands at a place. -/
inductive FileEntry where
  | directory
  | file (content : ByteArray)
deriving Inhabited

/-- Two files are the same when their contents are, byte for byte. -/
instance : DecidableEq FileEntry
  | .directory, .directory => isTrue rfl
  | .directory, .file _ => isFalse nofun
  | .file _, .directory => isFalse nofun
  | .file a, .file b =>
    match ByteArray.instDecidableEq a b with
    | isTrue h => isTrue (congrArg FileEntry.file h)
    | isFalse h => isFalse fun same => h (FileEntry.file.inj same)

/-- A tree of files. Its root is always a directory. -/
structure FileTree where
  entries : List (Location × FileEntry) := []
  /-- the directory that relative paths start from -/
  home : Location := []
deriving Inhabited

namespace FileTree

/-- The entry at a place. -/
def entry? (t : FileTree) : Location → Option FileEntry
  | [] => some .directory
  | place => t.entries.lookup place

/-- Puts an entry at a place, instead of what was there. -/
def put (t : FileTree) (place : Location) (entry : FileEntry) : FileTree :=
  { t with entries := t.entries.filter (·.1 != place) ++ [(place, entry)] }

/-! ### Paths -/

/-- The place that a path starts from. -/
def start (t : FileTree) (path : String) : Location :=
  if isAbsolute path then [] else t.home

/-- The place a name leads to from a directory. -/
def follow (place : Location) (name : String) : Location :=
  if name = "" ∨ name = "." then place
  else if name = ".." then place.tail
  else name :: place

/-- Goes from a place, which has to be a directory, to a name in it. -/
def step (t : FileTree) (place : Location) (name : String) : Except FileError Location :=
  match t.entry? place with
  | none => .error .notFound
  | some (.file _) => .error .notDirectory
  | some .directory => .ok (follow place name)

/-- The place a path leads to; there may be nothing yet. -/
def resolve (t : FileTree) (path : String) : Except FileError Location :=
  if path.isEmpty then .error .notFound
  else (pathNames path).foldlM t.step (t.start path)

/-- The entry a path leads to. -/
def find (t : FileTree) (path : String) : Except FileError FileEntry := do
  match t.entry? (← t.resolve path) with
  | some entry => .ok entry
  | none => .error .notFound

/-! ### Reading and writing -/

/-- The content of a file. -/
def read (t : FileTree) (path : String) : Except FileError ByteArray := do
  match ← t.find path with
  | .file content => .ok content
  | .directory => .error .isDirectory

/-- Gives a file its content, and makes it if it is missing. -/
def write (t : FileTree) (path : String) (content : ByteArray) : Except FileError FileTree := do
  let place ← t.resolve path
  match t.entry? place with
  | some .directory => .error .isDirectory
  | _ => .ok (t.put place (.file content))

/-- Makes a directory under the last name of a path. Slashes at the end are left out, and a last
name that is dots is always taken. -/
def makeDir (t : FileTree) (path : String) : Except FileError FileTree := do
  let names := ((pathNames path).reverse.dropWhile (· == "")).reverse
  let parent ← names.dropLast.foldlM t.step (t.start path)
  let name := names.getLastD "."
  let place ← t.step parent name
  if name = "." ∨ name = ".." ∨ (t.entry? place).isSome then .error .alreadyExists
  else .ok (t.put place .directory)

/-- Whether a path leads to a directory. -/
def isDirectory (t : FileTree) (path : String) : Bool :=
  match t.find path with
  | .ok .directory => true
  | _ => false

/-! ### Access and changes -/

/-- Does what changes a tree; if it fails, the tree stays as it is. -/
def change (f : FileTree → Except FileError FileTree) : StateM FileTree (Except FileError Unit) :=
  fun t =>
    match f t with
    | .ok changed => (.ok (), changed)
    | .error e => (.error e, t)

/-- Access to the files of a tree. -/
def files : Files (StateM FileTree) where
  read path := fun t => (t.read path, t)
  write path content := change fun t => t.write path content
  makeDir path := change fun t => t.makeDir path
  isDirectory path := fun t => (t.isDirectory path, t)

/-- A place under the home directory as a relative path. -/
def relative? (t : FileTree) (place : Location) : Option String :=
  if t.home.isSuffixOf place ∧ place ≠ t.home then
    some ("/".intercalate (place.take (place.length - t.home.length)).reverse)
  else none

/-- What is new or different under the home directory since an earlier tree. -/
def changes (t earlier : FileTree) : List (String × FileEntry) :=
  t.entries.filterMap fun (place, entry) =>
    if earlier.entry? place = some entry then none
    else (t.relative? place).map fun path => (path, entry)

end FileTree

end GradedScript
