import Rollout.Files
import Rollout.Ordered
/-!
A directory of files as a value. Paths are followed from its root; what is above it is
not known.
-/

namespace Rollout

inductive FileTree where
  | file (content : ByteArray)
  | directory (entries : List (String × FileTree))
  deriving Inhabited

namespace FileTree

def empty : FileTree := directory []

/-- The place a path leads to, as names from the root down, and what is there. -/
structure Place where
  names : List String
  tree : FileTree

/-- Follows the parts of a path from the last of the given places, which are in each other. -/
def follow : List Place → List String → Except FileFault Place
  | [], _ => .error .notFound
  | place :: _, [] => .ok place
  | place :: above, part :: parts =>
    match place.tree with
    | file _ => .error .notDirectory
    | directory entries =>
      if part = "" ∨ part = "." then follow (place :: above) parts
      else if part = ".." then follow above parts
      else match Ordered.find? part entries with
        | some tree => follow (⟨place.names ++ [part], tree⟩ :: place :: above) parts
        | none => .error .notFound

def parts (path : String) : List String := (Text.splitOn '/' path.toList).map String.ofList

def find (root : FileTree) (path : String) : Except FileFault Place :=
  if path.isEmpty ∨ FilePath.isAbsolute path then .error .notFound
  else follow [⟨[], root⟩] (parts path)

def read (root : FileTree) (path : String) : Except FileFault String := do
  match (← root.find path).tree with
  | directory _ => throw .isDirectory
  | file content => match String.fromUTF8? content with
    | some text => return text
    | none => throw .notUtf8

def isFile (root : FileTree) (path : String) : Bool :=
  match root.find path with
  | .ok ⟨_, file _⟩ => true
  | _ => false

def isDirectory (root : FileTree) (path : String) : Bool :=
  match root.find path with
  | .ok ⟨_, directory _⟩ => true
  | _ => false

mutual

def files (path : String) : FileTree → List String
  | file _ => [path]
  | directory entries =>
    (entryFiles path entries).mergeSort (fun a b => Text.le a.1 b.1) |>.flatMap (·.2)

/-- For each entry its name and the files of it. -/
def entryFiles (path : String) : List (String × FileTree) → List (String × List String)
  | [] => []
  | (name, tree) :: rest => (name, files (FilePath.join path name) tree) :: entryFiles path rest

end

def filesBelow (root : FileTree) (path : String) : List String :=
  match root.find path with
  | .ok place => place.tree.files path
  | .error _ => []

/-- Puts a tree at a place, in directories that are made where there are none. -/
def put (tree : FileTree) : List String → FileTree → FileTree
  | [], _ => tree
  | name :: names, t =>
    let entries := match t with
      | directory entries => entries
      | file _ => []
    directory (Ordered.put name (put tree names ((Ordered.find? name entries).getD empty)) entries)

/-- Writes a file. Its directory must be there; a slash after the name asks for a directory. -/
def write (root : FileTree) (path content : String) : Except FileFault FileTree := do
  if path.isEmpty then throw .notFound
  let named := (path.toList.reverse.dropWhile (· = '/')).reverse
  let name := FilePath.fileName (String.ofList named)
  let directoryPath := named.take (named.length - name.length)
  let place ←
    if directoryPath.isEmpty then pure ⟨[], root⟩ else root.find (String.ofList directoryPath)
  match place.tree with
  | file _ => throw .notDirectory
  | directory entries =>
    let name := String.ofList name
    if named.length < path.length ∨ name = "" ∨ name = "." ∨ name = ".." then throw .isDirectory
    match Ordered.find? name entries with
    | some (directory _) => throw .isDirectory
    | _ => return put (file content.toUTF8) (place.names ++ [name]) root

instance : FileSystem (StateM FileTree) where
  read path := return (← get).read path
  isFile path := return (← get).isFile path
  isDirectory path := return (← get).isDirectory path
  filesBelow path := return (← get).filesBelow path
  write path content := do
    match (← get).write path content with
    | .ok root => set root; return .ok ()
    | .error f => return .error f

end FileTree

end Rollout
