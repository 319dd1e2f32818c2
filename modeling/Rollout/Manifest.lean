import Rollout.Document.Basic
import Rollout.Value.Canonical
/-!
Streams of YAML documents. A separator line is `---` or `...`, or `---` with
content behind it, which opens the next document.
-/

namespace Rollout.Manifest

/-- Parse errors quote at most so many characters. -/
def fragmentLength : Nat := 60

def isSeparator (line : List Char) : Bool :=
  let content := Text.trimEnd line
  content = ['-', '-', '-'] || content = ['.', '.', '.']

/-- The mark before content on a separator line. -/
def contentMark : List Char := ['-', '-', '-', ' ']

def opensContent (line : List Char) : Bool := contentMark.isPrefixOf (Text.trimEnd line)

/-- Cuts a text into documents, line by line; there is one more of them than there are separators.
The document that is being read begins at `start`, and the next line at `offset`. -/
def scan (text : List Char) (start offset : Nat) : List (List Char) → List (List Char)
  | [] => [text.drop start]
  | line :: rest =>
    let doc := (text.take offset).drop start
    let next := offset + line.length
    if isSeparator line then doc :: scan text next next rest
    else if opensContent line then doc :: scan text (offset + contentMark.length) next rest
    else scan text start next rest

def split (text : List Char) : List (List Char) := scan text 0 0 (Text.segments text)

def isComment (line : List Char) : Bool := line.head? = some '#'

/-- Nothing but empty lines and comments. -/
def isBlank (doc : List Char) : Bool :=
  (Text.lines doc).all fun l => (Text.trim l).isEmpty || isComment (Text.trim l)

/-- The first line of content, cut to the length that errors quote. -/
def fragment (doc : List Char) : String :=
  let content := (Text.lines doc).map Text.trim
  let line := (content.find? fun l => !l.isEmpty && !isComment l).getD []
  String.ofList <|
    if fragmentLength < line.length then line.take fragmentLength ++ ['.', '.', '.'] else line

/-- The document of one piece; `none` where it is blank or null. -/
def parsePiece (index : Nat) (piece : List Char) : Except BuildError (Option Document) :=
  if isBlank piece then .ok none
  else
    let fail := fun (f : ManifestFault) => BuildError.parse index (fragment piece) f
    match Yaml.read (String.ofList piece) with
    | .error f => .error (fail (.yaml f))
    | .ok root =>
      if root.1.isNull then .ok none
      else ((Document.ofTree root).mapError fun f => fail (.document f)).map some

/-- The documents of a stream; pieces that are blank count in the index of an error. -/
def parse (text : String) : Except BuildError (List Document) := do
  let docs ← ((split text.toList).zipIdx).mapM fun (piece, i) => parsePiece i piece
  return docs.filterMap id

def render (docs : List Document) : String := "---\n".intercalate (docs.map Document.toYaml)

end Rollout.Manifest

namespace Rollout.Document

def ofYaml (text : String) : Except BuildError Document :=
  match Yaml.read text with
  | .error f => .error (.parse 0 (Manifest.fragment text.toList) (.yaml f))
  | .ok root => (ofTree root).mapError .invalidDocument

def canonical (d : Document) : Document :=
  d.withRoot ⟨d.root.canonical, Value.wellKeyed_canonicalBy _ d.root d.wellKeyed⟩

end Rollout.Document
