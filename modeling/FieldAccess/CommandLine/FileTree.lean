import FieldAccess.Assoc

/-! What a command needs of its surroundings: files by path, and two streams for text. A directory
tree in memory serves commands that run without a disk. -/
namespace FieldAccess.CommandLine

class Host (m : Type → Type) where
  /-- Text of a file, if it can be read. -/
  read? : String → m (Option String)
  isPresent : String → m Bool
  /-- Makes a directory and those above it; says whether it is there afterwards. -/
  makeDirectory : String → m Bool
  /-- Writes a whole file; says whether that went well. -/
  write : String → String → m Bool
  print : String → m Unit
  printError : String → m Unit

/-- A path below a directory. An absolute one stands for itself. -/
def joinPath (directory name : String) : String :=
  if name.startsWith "/" || directory.isEmpty then name
  else if directory.endsWith "/" then directory ++ name
  else directory ++ "/" ++ name

/-- Names from the root of the tree down. -/
abbrev Location := List String

/-- Directories and files from the top down. Relative paths start at the working directory. -/
structure FileTree where
  /-- Text that stands for the working directory at the start of a path. -/
  root : String
  working : Location
  directories : List Location := []
  files : List (Location × String) := []
deriving Repr

/-- Why a path leads nowhere. -/
inductive Obstacle where
  /-- A directory on the way is not there. -/
  | missing
  /-- Something on the way is no directory, or a name is none. -/
  | blocked
deriving DecidableEq, Repr

namespace FileTree

/-- A tree with an empty working directory. -/
def empty (root : String) : FileTree := { root, working := [root], directories := [[root]] }

def isDirectory (t : FileTree) (place : Location) : Bool :=
  place.isEmpty || t.directories.contains place

def isFile (t : FileTree) (place : Location) : Bool := (Assoc.get? place t.files).isSome

/-- A name has at most 255 bytes and no null character. -/
def isName (s : String) : Bool := s.utf8ByteSize ≤ 255 && !s.toList.contains '\x00'

/-- A path has at least one byte and at most 4095. -/
def isPath (s : String) : Bool := !s.isEmpty && s.utf8ByteSize ≤ 4095

/-- The names between the slashes of a path. -/
def partsOf (path : String) : List String :=
  ((path.toList.splitOn '/').filter (!·.isEmpty)).map String.ofList

/-- Where a path starts, and the steps from there. -/
def route (t : FileTree) (path : String) : Location × List String :=
  if path.startsWith (t.root ++ "/") then
    (t.working, partsOf (path.drop (t.root.length + 1)).toString)
  else if path.startsWith "/" then ([], partsOf path)
  else (t.working, partsOf path)

/-- Follows steps through directories that are there. The last one may lead to anything. Nothing is
above the top. -/
def walk (t : FileTree) : (here : Location) → List String → Except Obstacle Location
  | here, [] => .ok here
  | here, name :: rest =>
    if t.isDirectory here then
      if name = "." then walk t here rest
      else if name = ".." then walk t here.dropLast rest
      else if isName name then walk t (here ++ [name]) rest
      else .error .blocked
    else .error (if t.isFile here then .blocked else .missing)

/-- The place that a path leads to, whether something is there or not. A path that ends in a slash
goes into a directory. -/
def place? (t : FileTree) (path : String) : Option Location :=
  let (start, steps) := t.route path
  let steps := if path.endsWith "/" then steps ++ ["."] else steps
  if isPath path then (t.walk start steps).toOption else none

def read? (t : FileTree) (path : String) : Option String :=
  (t.place? path).bind fun place => Assoc.get? place t.files

def isPresent (t : FileTree) (path : String) : Bool :=
  (t.place? path).any fun place => t.isDirectory place || t.isFile place

/-- Makes one directory in a directory that is there. -/
def makeOne (t : FileTree) (start : Location) (steps : List String) : Except Obstacle FileTree := do
  let here ← t.walk start (steps.dropLast ++ ["."])
  let place ← t.walk here (steps.drop (steps.length - 1))
  if t.isDirectory place then return t
  else if t.isFile place then .error .blocked
  else return { t with directories := t.directories ++ [place] }

/-- Steps to a place, then those to the directories above it, nearest first. A dot is no step of its
own unless it comes first. -/
def ancestry (steps : List String) : List (List String) :=
  let named := (steps.reverse.dropWhile (· = ".")).reverse
  let shorter := ((List.range named.length).reverse.map named.take).filter fun s =>
    !s.isEmpty && (s.length = 1 || s.getLast? ≠ some ".")
  steps :: shorter

/-- Makes the first of some directories, each after those that follow it where it is missing. -/
def makeChain (start : Location) : FileTree → List (List String) → FileTree × Bool
  | t, [] => (t, false)
  | t, steps :: above =>
    match t.makeOne start steps with
    | .ok t => (t, true)
    | .error .blocked => (t, false)
    | .error .missing =>
      match makeChain start t above with
      | (t, false) => (t, false)
      | (t, true) =>
        match t.makeOne start steps with
        | .ok t => (t, true)
        | .error _ => (t, false)

def makeDirectory (t : FileTree) (path : String) : FileTree × Bool :=
  let (start, steps) := t.route path
  if isPath path then makeChain start t (ancestry steps) else (t, false)

/-- Writes a file into a directory that is there. -/
def write (t : FileTree) (path text : String) : FileTree × Bool :=
  match t.place? path with
  | none => (t, false)
  | some place =>
    if t.isDirectory place then (t, false)
    else ({ t with files := Assoc.put place text t.files }, true)

/-- Adds a file with all directories above it. -/
def insert (t : FileTree) (path text : String) : FileTree :=
  let (start, steps) := t.route path
  let t := if steps.length ≤ 1 then t else (makeChain start t (ancestry steps.dropLast)).1
  (t.write path text).1

def pathOf (place : Location) : String := String.intercalate "/" place

/-- A place by its path from the working directory. -/
def pathFrom? (t : FileTree) (place : Location) : Option String :=
  if t.working.isPrefixOf place then some (pathOf (place.drop t.working.length)) else none

/-- Directories and files in the working directory that an earlier tree lacks or has with another
text. A directory ends in a slash and has no text. -/
def changesSince (before after : FileTree) : List (String × String) :=
  let newDirectories := after.directories.filter fun d => !before.directories.contains d
  let newFiles := after.files.filter fun f => Assoc.get? f.1 before.files != some f.2
  newDirectories.filterMap (fun d => (after.pathFrom? d).map (· ++ "/", "")) ++
    newFiles.filterMap fun f => (after.pathFrom? f.1).map (·, f.2)

end FileTree

/-- A run on a tree in memory: the tree, and what has been printed. -/
structure Session where
  tree : FileTree
  output : String := ""
  /-- The command's own lines. What a log would add to the same stream, on request of a flag or of
  the environment, is no part of it. -/
  errors : String := ""

instance : Host (StateM Session) where
  read? path := fun s => (s.tree.read? path, s)
  isPresent path := fun s => (s.tree.isPresent path, s)
  makeDirectory path := fun s =>
    let (tree, done) := s.tree.makeDirectory path
    (done, { s with tree })
  write path text := fun s =>
    let (tree, done) := s.tree.write path text
    (done, { s with tree })
  print text := fun s => ((), { s with output := s.output ++ text })
  printError text := fun s => ((), { s with errors := s.errors ++ text })

end FieldAccess.CommandLine
