/-!
# Files

A theme can be read from a file below the current directory.  A path is
walked name by name, and the first step that cannot be made decides what is
wrong with it.
-/

namespace ThemeSheet

inductive ReadError where
  | notFound
  | notDirectory
  | isDirectory
  | nameTooLong
  | nullInName
  | notText
deriving DecidableEq, Repr

def ReadError.message : ReadError → String
  | notFound => "No such file or directory (os error 2)"
  | notDirectory => "Not a directory (os error 20)"
  | isDirectory => "Is a directory (os error 21)"
  | nameTooLong => "File name too long (os error 36)"
  | nullInName => "file name contained an unexpected NUL byte"
  | notText => "stream did not contain valid UTF-8"

/-- Where a walk has come to: so many directories up from the current one, and
then down by names, the innermost first.  The root counts as a directory
further up. -/
structure Position where
  up : Nat
  names : List String
deriving DecidableEq, Repr

namespace Position

def current : Position := ⟨0, []⟩

def root : Position := ⟨1, []⟩

def start (path : String) : Position :=
  if path.startsWith "/" then root else current

def parent (position : Position) : Position :=
  match position.names with
  | [] => ⟨position.up + 1, []⟩
  | _ :: names => { position with names := names }

def child (position : Position) (name : String) : Position :=
  { position with names := name :: position.names }

end Position

/-- The names in a path.  Repeated slashes count as one. -/
def pathNames (path : String) : List String :=
  ((path.toList.splitOnP (· = '/')).filter (fun name => !name.isEmpty)).map
    String.ofList

/-- The directories and files below the current directory.  Nothing is known
about what is outside of it, except that the directories above it exist. -/
structure FileTree where
  directories : List Position
  files : List (Position × ByteArray)

namespace FileTree

def empty : FileTree := ⟨[], []⟩

def isDirectory (tree : FileTree) (position : Position) : Bool :=
  position.names.isEmpty || tree.directories.contains position

/-- The contents of a file; of several the one that was written last. -/
def file? (tree : FileTree) (position : Position) : Option ByteArray :=
  (tree.files.find? (fun entry => entry.1 = position)).map (·.2)

def writeAt (tree : FileTree) (position : Position) (bytes : ByteArray) :
    List String → FileTree
  | [] => tree
  | [name] => { tree with files := (position.child name, bytes) :: tree.files }
  | name :: names =>
      if name = "." then tree.writeAt position bytes names
      else if name = ".." then tree.writeAt position.parent bytes names
      else
        let position := position.child name
        { tree with directories := position :: tree.directories }.writeAt
          position bytes names

def write (tree : FileTree) (path : String) (bytes : ByteArray) : FileTree :=
  tree.writeAt (.start path) bytes (pathNames path)

def maxNameBytes : Nat := 255

def maxPathBytes : Nat := 4095

def step (tree : FileTree) (position : Position) (name : String) :
    Except ReadError Position :=
  if !tree.isDirectory position then .error .notDirectory
  else if maxNameBytes < name.utf8ByteSize then .error .nameTooLong
  else if name = "." then .ok position
  else if name = ".." then .ok position.parent
  else
    let next := position.child name
    if tree.isDirectory next || (tree.file? next).isSome then .ok next
    else .error .notFound

def walk (tree : FileTree) (path : String) : Except ReadError Position := do
  if path.contains '\x00' then throw .nullInName
  if path.isEmpty then throw .notFound
  if maxPathBytes < path.utf8ByteSize then throw .nameTooLong
  let names := if path.endsWith "/" then pathNames path ++ ["."] else pathNames path
  names.foldlM tree.step (.start path)

def read (tree : FileTree) (path : String) : Except ReadError String := do
  let position ← tree.walk path
  match tree.file? position with
  | none => throw .isDirectory
  | some bytes =>
      match String.fromUTF8? bytes with
      | none => throw .notText
      | some text => return text

end FileTree

/-- The label for what a file holds: its name, or the whole path if that ends
in no name. -/
def fileLabel (path : String) : String :=
  match ((pathNames path).filter (· ≠ ".")).getLast? with
  | none => path
  | some name => if name = ".." then path else name

end ThemeSheet
