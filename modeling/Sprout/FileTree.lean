import Sprout.Error

namespace Sprout

/-- A path from the current directory, as a list of names. An empty name at the front stands for the
root of the file system. The texts of paths are read the way the operating system reads them. -/
abbrev Path := List String

/-- The part of a path text that a path is about, once `.` and doubled slashes are gone: `..`
takes a name back, as far as there is one. -/
def Path.push (path : Path) (name : String) : Path :=
  if name = "" || name = "." then path
  else if name = ".." then
    match path.getLast? with
    | none => [".."]
    | some "" => path
    | some ".." => path ++ [".."]
    | some _ => path.dropLast
  else path ++ [name]

/-- Refuses the texts that the operating system takes for no path: a null character ends a text for
it, and it reads fewer than 4096 bytes. -/
def Path.admit (text : String) : Except FileFailure Unit :=
  if text.toList.contains '\x00' then .error .nullCharacter
  else if 4096 ≤ text.utf8ByteSize then .error .nameTooLong
  else .ok ()

/-- Whether a name is longer than a folder can hold. -/
def Path.isTooLong (name : String) : Bool :=
  255 < name.utf8ByteSize

/-- The names in the text of a path, and where they start from. -/
def Path.names (text : String) : Path × List String :=
  match splitAt '/' text.toList with
  | [] :: rest@(_ :: _) => ([""], rest.map String.ofList)
  | parts => ([], parts.map String.ofList)

/-- The path that a text denotes. -/
def Path.ofText (text : String) : Path :=
  let (start, names) := names text
  names.foldl push start

/-- Whether a path stays below the current directory. -/
def Path.isInside (path : Path) : Bool :=
  path.head? ≠ some "" && path.head? ≠ some ".."

/-- The text of a path. -/
def Path.render (path : Path) : String :=
  "/".intercalate path

/-- The stem and the extension of a file name. A point at the very front starts no extension. -/
def splitExtension (name : String) : String × Option String :=
  let reversed := name.toList.reverse
  let extension := reversed.takeWhile (· ≠ '.')
  match reversed.drop extension.length with
  | _ :: stem@(_ :: _) =>
    if name = ".." then (name, none)
    else (String.ofList stem.reverse, some (String.ofList extension.reverse))
  | _ => (name, none)

/-- A file name with its extension replaced. The old extension is taken off behind its point and
the new one put there, except where what stays is `..`: that names a folder, which has none. A name
without an extension gets one. -/
def nameWithExtension (name extension : String) : String :=
  match splitExtension name with
  | (stem, none) => stem ++ "." ++ extension
  | (stem, some _) => if stem = "." then ".." else stem ++ "." ++ extension

/-- The text of a path with the extension of its last name replaced. -/
def withExtension (text extension : String) : String :=
  let reversed := text.toList.reverse
  let name := (reversed.takeWhile (· ≠ '/')).reverse
  let folder := (reversed.dropWhile (· ≠ '/')).reverse
  String.ofList folder ++ nameWithExtension (String.ofList name) extension

/-- The text of the folder that a path lies in; empty if it names none. Empty names and points
behind the first name do not count. -/
def parentText (text : String) : String :=
  let isIdle (name : List Char) : Bool := name = [] || name = ['.']
  match splitAt '/' text.toList with
  | [] => ""
  | first :: others =>
    match others.reverse.dropWhile isIdle with
    | [] => ""
    | _ :: around =>
      "/".intercalate ((first :: (around.dropWhile isIdle).reverse).map String.ofList)

/-- A directory as a value: the files below it with their contents, and the folders, which may be
empty. -/
structure FileTree where
  files : List (Path × String) := []
  folders : List Path := []
deriving DecidableEq, Repr

namespace FileTree

/-- The content of the file at a path. -/
def file? (tree : FileTree) (path : Path) : Option String :=
  tree.files.lookup path

/-- Whether a path leads to a folder. What lies above the current directory is one. -/
def isFolder (tree : FileTree) (path : Path) : Bool :=
  path.all (fun name => name = "" || name = "..") ||
    tree.folders.any (path.isPrefixOf ·) ||
    tree.files.any (fun (file, _) => path.isPrefixOf file && path ≠ file)

/-- Follows names from a folder on; each must be reached through a folder. -/
def follow (tree : FileTree) (path : Path) : List String → Except FileFailure Path
  | [] => .ok path
  | name :: names =>
    if tree.isFolder path then
      if Path.isTooLong name then .error .nameTooLong
      else follow tree (path.push name) names
    else .error (if (tree.file? path).isSome then .notDirectory else .notFound)

/-- Where the text of a path leads. -/
def locate (tree : FileTree) (text : String) : Except FileFailure Path :=
  if text = "" then .error .notFound
  else do
    Path.admit text
    let (start, names) := Path.names text
    tree.follow start names

/-- Whether the text of a path leads to a folder. -/
def hasFolder (tree : FileTree) (text : String) : Bool :=
  match tree.locate text with
  | .ok path => tree.isFolder path
  | .error _ => false

/-- Reads the file that the text of a path leads to. -/
def read (tree : FileTree) (text : String) : Except FileFailure String := do
  let path ← tree.locate text
  match tree.file? path with
  | some content => .ok content
  | none => .error (if tree.isFolder path then .isDirectory else .notFound)

/-- Stores a file in place of the one at its path, if there is one. -/
def store (tree : FileTree) (path : Path) (content : String) : FileTree :=
  { tree with files := (path, content) :: tree.files.filter (·.1 ≠ path) }

/-- Makes the folders that names lead through from a path on; `made` says that one was missing on
the way. From there on folders are made one by one, so a file in the way is then found in the place
of a folder, and not in front of one. -/
def makeAlong (tree : FileTree) (path : Path) (made : Bool) :
    List String → Except FileFailure FileTree
  | [] => .ok tree
  | name :: names =>
    let next := path.push name
    if Path.isTooLong name then .error .nameTooLong
    else if (tree.file? next).isSome then
      .error (if made || names.isEmpty then .exists else .notDirectory)
    else
      makeAlong { tree with folders := next :: tree.folders } next
        (made || !tree.isFolder next) names

/-- Makes the folder that the text of a path names, and those around it. -/
def makeFolder (tree : FileTree) (text : String) : Except FileFailure FileTree := do
  Path.admit text
  let (start, names) := Path.names text
  tree.makeAlong start false names

/-- Writes a file in a folder that is there. A text that ends with a slash names a folder. -/
def write (tree : FileTree) (text content : String) : Except FileFailure FileTree := do
  Path.admit text
  if text.toList.getLast? = some '/' then .error .isDirectory
  else
    let path ← tree.locate text
    if tree.isFolder path then .error .isDirectory else .ok (tree.store path content)

/-- Whether one path comes before another, or is the same, when folders are walked in the order of
their names. -/
def inOrder : Path → Path → Bool
  | [], _ => true
  | _ :: _, [] => false
  | a :: as, b :: bs => if a = b then inOrder as bs else a < b

/-- The paths of the files below a folder, counted from it, in the order of a walk. -/
def below (tree : FileTree) (folder : Path) : List Path :=
  let inside := tree.files.filterMap fun (path, _) =>
    if folder.isPrefixOf path && folder ≠ path then some (path.drop folder.length) else none
  inside.mergeSort inOrder

end FileTree

end Sprout
