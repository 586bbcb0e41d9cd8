import Sprout.Command

namespace Sprout

/-- A tree that holds the file at a path and the folders around it. -/
def treeOf (text content : String) : FileTree :=
  match ({} : FileTree).makeFolder (parentText text) with
  | .ok tree => tree.store (Path.ofText text) content
  | .error _ => {}

/-- The part of the file system that a command reads: the file that is its input, if it is there.
Folders are not listed. -/
def loadInput (command : Command) : IO FileTree := do
  match command.input with
  | none => return {}
  | some input =>
    try return treeOf input (← IO.FS.readFile input)
    catch
      | .noFileOrDirectory .. => return {}
      | error => throw error

/-- Writes the files of `after` that `before` does not hold with the same content. -/
def saveChanges (before after : FileTree) : IO Unit := do
  for (path, content) in after.files do
    unless before.file? path = some content do
      unless path.dropLast = [] do
        IO.FS.createDirAll (Path.render path.dropLast)
      IO.FS.writeFile (Path.render path) content

/-- Runs a command on the file system. -/
def runCommand (command : Command) : IO UInt32 := do
  let before ← loadInput command
  let text ← if command.input.isNone then (← IO.getStdin).readToEnd else pure ""
  let outcome := command.run before text
  (← IO.getStdout).putStr outcome.output
  (← IO.getStderr).putStr outcome.errors
  saveChanges before outcome.files
  return outcome.status.toUInt32

end Sprout

/-- Runs the compiler: reads what the command line names, runs the command on it, and writes what
has changed. Malformed arguments end it with status 2. -/
def main (args : List String) : IO UInt32 := do
  match Sprout.Command.ofArguments? args with
  | none =>
    (← IO.getStderr).putStrLn "error: malformed arguments"
    return 2
  | some command =>
    try Sprout.runCommand command
    catch error =>
      (← IO.getStderr).putStrLn ("Error: " ++ toString error)
      return 1
