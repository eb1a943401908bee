import LoxArith.CommandLine

set_option autoImplicit false

/-! # The program

The outer layer: the command line on the real machine. Everything it decides is decided by
`Host.performArguments`; here files are read and written, and texts are shown.
-/

namespace LoxArith

namespace Main

/-- The file error of an error of the machine. -/
def fileErrorOf : IO.Error → FileError
  | .noFileOrDirectory .. => .notFound
  | .alreadyExists .. => .alreadyExists
  | .inappropriateType _ 20 _ => .notDirectory
  | .inappropriateType _ 21 _ => .isDirectory
  | .invalidArgument _ 36 _ => .nameTooLong
  | .permissionDenied _ code description =>
    .other (description ++ " (os error " ++ toString code ++ ")")
  | error => .other (toString error)

/-- An action with its error as a value. -/
def attempt {α : Type} (action : IO α) : IO (Except FileError α) := do
  try return .ok (← action)
  catch error => return .error (fileErrorOf error)

/-- The text of a file. -/
def readText (path : String) : IO (Except FileError String) := do
  match ← attempt (do (← IO.FS.Handle.mk path .read).readBinToEnd) with
  | .error error => return .error error
  | .ok bytes =>
    match String.fromUTF8? bytes with
    | some text => return .ok text
    | none => return .error .notText

/-- Whether a path leads anywhere: opening it fails neither for lack of a file, nor for lack
of a folder on the way, nor for its length. -/
def pathExists (path : String) : IO Bool := do
  match ← attempt (IO.FS.Handle.mk path .read) with
  | .error .notFound | .error .notDirectory | .error .nameTooLong => return false
  | _ => return true

/-- Whether a path leads to a folder. -/
def isFolder (path : String) : IO Bool := do
  match ← attempt (do (← IO.FS.realPath path).isDir) with
  | .ok answer => return answer
  | .error _ => return false

/-- Makes one folder, unless it is there already. -/
def ensureFolder (path : String) : IO (Except FileError Unit) := do
  match ← attempt (IO.FS.createDir path) with
  | .ok _ => return .ok ()
  | .error error => if ← isFolder path then return .ok () else return .error error

/-- Makes the folder that names lead to, and the missing folders above it. The names are given
last first. -/
def makeFolders : List String → IO (Except FileError Unit)
  | [] => return .ok ()
  | name :: above => do
    if isIdle name then makeFolders above
    else
      let path := "/".intercalate (name :: above).reverse
      match ← ensureFolder path with
      | .error .notFound =>
        match ← makeFolders above with
        | .ok _ => ensureFolder path
        | .error error => return .error error
      | result => return result

/-- Saves a file, and makes the folders that are missing. -/
def save (path text : String) : IO (Except FileError Unit) := do
  match ← makeFolders (namesAbove path) with
  | .ok _ => attempt (IO.FS.writeFile path text)
  | .error error => return .error error

/-- Shows a text at once. -/
def putText (stream : IO.FS.Stream) (text : String) : IO Unit := do
  stream.putStr text
  stream.flush

/-- The bytes of the next line, behind those already read; none at the end of the input. -/
partial def readLine (input : IO.FS.Stream) (line : List UInt8) : IO (List UInt8) := do
  match (← input.read 1).data.toList with
  | [] => return line.reverse
  | byte :: _ => if byte = 10 then return (byte :: line).reverse else readLine input (byte :: line)

/-- The interactive session. -/
partial def session (settings : Settings) : IO Report := do
  putText (← IO.getStdout) settings.prompt
  match ← readLine (← IO.getStdin) [] with
  | [] => return { out := "\n" }
  | line =>
    match Session.lineText? line with
    | none => return .ofFileError .notText
    | some text =>
      let answer := Session.answer settings text
      putText (← IO.getStdout) answer.out
      putText (← IO.getStderr) answer.err
      session settings

/-- The machine as the surroundings. -/
def host : Host IO where
  readText := readText
  pathExists := pathExists
  save := save
  session := session

/-- The entries of a block in which a zero byte ends each of them. -/
def entriesOf (block : ByteArray) : List (List UInt8) :=
  block.toList.foldr (fun byte entries =>
    match byte, entries with
    | 0, entries => [] :: entries
    | byte, [] => [[byte]]
    | byte, entry :: more => (byte :: entry) :: more) []

/-- The bytes of a variable in a block of entries `name=value`. -/
def valueIn? (block : ByteArray) (name : String) : Option ByteArray :=
  let front := (name ++ "=").toUTF8.toList
  (entriesOf block).findSome? fun entry =>
    if front.isPrefixOf entry then some ⟨(entry.drop front.length).toArray⟩ else none

/-- The variables of the machine. They are read as bytes, since a variable may hold no text. -/
def environment : IO Environment := do
  let block ← (← IO.FS.Handle.mk "/proc/self/environ" .read).readBinToEnd
  return .ofLookup (valueIn? block)

end Main

end LoxArith

/-- Performs what the arguments ask for. -/
def main (arguments : List String) : IO UInt32 := do
  let env ← LoxArith.Main.environment
  let report ← LoxArith.Main.host.performArguments env arguments
  LoxArith.Main.putText (← IO.getStdout) report.out
  LoxArith.Main.putText (← IO.getStderr) report.err
  return UInt32.ofNat report.status
