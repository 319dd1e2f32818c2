import Rollout.Command
/-!
The program: runs the command line on the files and the environment of the process.
-/

namespace Rollout

def place (path : String) : IO.FS.DirEntry := { root := path, fileName := "" }

/-- Why the system refuses a path. -/
def faultOf (path : String) : IO.Error → IO FileFault
  | .noFileOrDirectory .. => return .notFound
  | e => return if ← (place path).root.isDir then .isDirectory else .other (toString e)

def readText (path : String) : IO (Except FileFault String) :=
  try
    match String.fromUTF8? (← IO.FS.readBinFile path) with
    | some text => return .ok text
    | none => return .error .notUtf8
  catch e => return .error (← faultOf path e)

def writeText (path content : String) : IO (Except FileFault Unit) :=
  try
    IO.FS.writeFile path content
    return .ok ()
  catch e => return .error (← faultOf path e)

/-- The files below a directory; directories that cannot be read have none. -/
partial def walk (path : String) : IO (List String) := do
  if !(← (place path).root.isDir) then return [path]
  let entries ← try (place path).root.readDir catch _ => pure #[]
  let names := (entries.toList.map (·.fileName)).mergeSort Text.le
  let below ← names.mapM fun name => walk (FilePath.join path name)
  return below.flatten

instance : FileSystem IO where
  read := readText
  isFile path := do
    let root := (place path).root
    return (← root.pathExists) && !(← root.isDir)
  isDirectory path := (place path).root.isDir
  filesBelow := walk
  write := writeText

/-- The variables that give values of options. -/
def readVariables : IO (List (String × String)) := do
  let names := (Command.globalOptions ++ Command.projectOptions).filterMap (·.variableName?)
  let read ← names.mapM fun name => do return (← IO.getEnv name).map fun value => (name, value)
  return read.filterMap id

end Rollout

def main (args : List String) : IO UInt32 := do
  let given ← Rollout.readVariables
  let finished ← Rollout.Command.runProgram (m := IO) (fun name => given.lookup name) args
  IO.print finished.printed.stdout
  IO.eprint finished.printed.stderr
  return finished.exitCode.toUInt32
