set_option autoImplicit false

/-! # File trees

A file tree is what paths lead to: folders and files, each at a place. A place is the list
of names on the way to it from the working folder or from the root. Paths that climb out of
the working folder lead to places whose way begins with two dots; there, too, and at the root,
folders can be made.

The operations fail as a file system does, and the errors are its own. Two things are checked
of the text of a path: its length, and that of each name. Empty names and single dots lead
nowhere, but they count for the length.
-/

namespace LoxArith

/-- Why a file operation failed. -/
inductive FileError
  | notFound
  | alreadyExists
  | notDirectory
  | isDirectory
  | nameTooLong
  | notText
  | other (description : String)
  deriving DecidableEq, Repr

/-- The text of a file error. -/
def FileError.text : FileError → String
  | notFound => "No such file or directory (os error 2)"
  | alreadyExists => "File exists (os error 17)"
  | notDirectory => "Not a directory (os error 20)"
  | isDirectory => "Is a directory (os error 21)"
  | nameTooLong => "File name too long (os error 36)"
  | notText => "stream did not contain valid UTF-8"
  | other description => description

/-- The names on the way to a place, the last one first. The working folder is the empty place,
and the root is the place of one empty name. -/
abbrev Place := List String

namespace Place

/-- Whether a place is a folder of every tree: the working folder, those above it, and the
root. -/
def isFixed : Place → Bool
  | [] => true
  | name :: _ => name == "" || name == ".."

/-- The folder that holds a folder. Above the root there is nothing but the root. -/
def above : Place → Place
  | [] => [".."]
  | name :: outer =>
    if name == "" then name :: outer
    else if name == ".." then ".." :: name :: outer
    else outer

/-- The shortest path to a place, other than the root and the working folder. -/
def path (place : Place) : String := "/".intercalate place.reverse

end Place

/-! ## Paths -/

/-- The longest name, in bytes. -/
def longestName : Nat := 255

/-- The longest path, in bytes. -/
def longestPath : Nat := 4095

/-- Whether a name on a path leads nowhere else. -/
def isIdle (name : String) : Bool := name == "" || name == "."

/-- Where a path begins. -/
def startOf (path : String) : Place :=
  if path.startsWith "/" then [""] else []

/-- The names on the path of the folder that holds what a path leads to, the last one first.
Idle names are left out at the end of the path, but they stay inside it. -/
def namesAbove (path : String) : List String :=
  (((path.splitOn "/").reverse.dropWhile isIdle).drop 1).dropWhile isIdle

/-- Where one name leads from a folder. -/
def Place.step (place : Place) (name : String) : Except FileError Place :=
  if isIdle name then .ok place
  else if name == ".." then .ok place.above
  else if longestName < name.utf8ByteSize then .error .nameTooLong
  else .ok (name :: place)

/-! ## Trees -/

/-- What stands at a place. -/
inductive Entry
  | folder
  | file (content : ByteArray)

/-- The entries of a tree under the shortest paths to their places; the latest one for a path
counts. -/
structure FileTree where
  entries : List (String × Entry) := []

namespace FileTree

/-- What stands at a place. -/
def entry? (tree : FileTree) (place : Place) : Option Entry :=
  if place.isFixed then some .folder else tree.entries.lookup place.path

/-- The tree with an entry put at a place. -/
def put (tree : FileTree) (place : Place) (entry : Entry) : FileTree :=
  ⟨(place.path, entry) :: tree.entries⟩

/-- Goes from a place along names. Only a folder can be left, also by an idle name. So the
place that is reached need not be there, but the folder that holds it is. -/
def walk (tree : FileTree) (place : Place) : List String → Except FileError Place
  | [] => .ok place
  | name :: names =>
    match tree.entry? place with
    | none => .error .notFound
    | some (.file _) => .error .notDirectory
    | some .folder =>
      match place.step name with
      | .error error => .error error
      | .ok next => tree.walk next names

/-- The place a path leads to, whether or not something stands there. -/
def locate (tree : FileTree) (path : String) : Except FileError Place :=
  if path.isEmpty then .error .notFound
  else if longestPath < path.utf8ByteSize then .error .nameTooLong
  else tree.walk (startOf path) (path.splitOn "/")

/-- Whether something stands where a path leads. -/
def pathExists (tree : FileTree) (path : String) : Bool :=
  match tree.locate path with
  | .ok place => (tree.entry? place).isSome
  | .error _ => false

/-- The bytes of a file. -/
def readBytes (tree : FileTree) (path : String) : Except FileError ByteArray := do
  match tree.entry? (← tree.locate path) with
  | none => throw .notFound
  | some .folder => throw .isDirectory
  | some (.file content) => return content

/-- The text of a file. -/
def readText (tree : FileTree) (path : String) : Except FileError String := do
  match String.fromUTF8? (← tree.readBytes path) with
  | some text => return text
  | none => throw .notText

/-- Puts a file where a path leads, in place of the file that was there. -/
def writeFile (tree : FileTree) (path : String) (content : ByteArray) :
    Except FileError FileTree := do
  let place ← tree.locate path
  match tree.entry? place with
  | some .folder => throw .isDirectory
  | _ => return tree.put place (.file content)

/-- Goes from a folder along names and makes the folders that are missing. From the first
missing one on, and at the last name, a folder is to be made, and a file that stands there is
in its way. Before, a folder is only to be passed, and a file there is none. -/
def makeFolders (tree : FileTree) (place : Place) (missing : Bool) :
    List String → Except FileError FileTree
  | [] => .ok tree
  | name :: names =>
    match place.step name with
    | .error error => .error error
    | .ok next =>
      match tree.entry? next with
      | some .folder => tree.makeFolders next missing names
      | some (.file _) =>
        .error (if missing || names.isEmpty then .alreadyExists else .notDirectory)
      | none => (tree.put next .folder).makeFolders next true names

/-- Makes the folder that holds what a path leads to, and the missing folders above it. The
path of that folder must not be too long, with the idle names inside it. -/
def makeFolderOf (tree : FileTree) (path : String) : Except FileError FileTree :=
  let names := (namesAbove path).reverse
  if longestPath < ("/".intercalate names).utf8ByteSize then .error .nameTooLong
  else tree.makeFolders (startOf path) false names

/-- Puts a file where a path leads, and makes the folders that are missing. -/
def save (tree : FileTree) (path : String) (content : ByteArray) :
    Except FileError FileTree := do
  (← tree.makeFolderOf path).writeFile path content

end FileTree

end LoxArith
