import Rollout.Text.Blank
/-!
Files and their paths. What reads and writes files does so through a few operations,
so that it can be run on a directory that is a value.
-/

namespace Rollout

inductive FileFault where
  | notFound
  | notDirectory
  | isDirectory
  | notUtf8
  | other (message : String)
  deriving DecidableEq

def FileFault.message : FileFault → String
  | .notFound => "No such file or directory (os error 2)"
  | .notDirectory => "Not a directory (os error 20)"
  | .isDirectory => "Is a directory (os error 21)"
  | .notUtf8 => "stream did not contain valid UTF-8"
  | .other message => message

/-- A monad in which files can be read and written. -/
class FileSystem (m : Type → Type) where
  read : String → m (Except FileFault String)
  isFile : String → m Bool
  isDirectory : String → m Bool
  /-- The paths of all files below a directory. At each level they go by name. -/
  filesBelow : String → m (List String)
  write : String → String → m (Except FileFault Unit)

namespace FilePath

def isAbsolute (p : String) : Bool := p.toList.head? = some '/'

/-- A path taken from a directory. -/
def join (directory p : String) : String :=
  if isAbsolute p then p
  else if directory.isEmpty ∨ directory.toList.getLast? = some '/' then directory ++ p
  else directory ++ "/" ++ p

/-- Whether a part between slashes names anything; a dot does so at the beginning only. -/
def isStep (part : List Char × Nat) : Bool :=
  !part.1.isEmpty && (part.1 ≠ ['.'] || part.2 = 0)

/-- The directory a path is in, as it is written there. -/
def parent (p : String) : String :=
  let parts := (Text.splitOn '/' p.toList).zipIdx.reverse
  let above := ((parts.dropWhile (!isStep ·)).tail.dropWhile (!isStep ·)).reverse
  if above.isEmpty then if isAbsolute p then "/" else ""
  else String.ofList (List.intercalate ['/'] (above.map (·.1)))

def fileName (p : String) : List Char := (Text.splitOn '/' p.toList).getLast?.getD []

/-- What follows the last dot of a file's name; a dot in front does not count. -/
def extension? (p : String) : Option (List Char) :=
  match (Text.splitOn '.' (fileName p)).reverse with
  | [] | [_] | [_, []] => none
  | ext :: _ => some ext

/-- Whether a file is a manifest by its name. -/
def isManifest (p : String) : Bool :=
  (extension? p).any fun ext =>
    let ext := ext.map Char.toLower
    ext = ['y', 'a', 'm', 'l'] || ext = ['y', 'm', 'l']

end FilePath

end Rollout
