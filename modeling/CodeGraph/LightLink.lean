import CodeGraph.IndexGraph

/-!
# Light links

The references between files the parsers do not cover: every specifier of a
script or a document is resolved against the ids of the files, and what resolves
becomes an edge. Extraction reads one file; resolution reads the whole file set.
-/

namespace CodeGraph

/-- The extension of a file name, empty for a name that only starts with a dot. -/
def extension (rel : Text) : Text :=
  match beforeLast ['.'] (basename rel) with
  | none | some [] => []
  | some _ => lastPiece ['.'] (basename rel)

def lowerExtension (rel : Text) : Text := (extension rel).map Char.toLower

def forwardSlashes (path : Text) : Text := path.map fun c => if c = '\\' then '/' else c

/-- The id of a file in the passes after the index loop. -/
def relId (rel : Text) : Text := forwardSlashes rel

/-- `Path::join`: an absolute path replaces the directory. -/
def joinPath (dir path : Text) : Text :=
  if path.head? = some '/' ∨ dir = [] then path else dir ++ '/' :: path

namespace LightLink

/-- The components of a path with `.` and `..` resolved; `..` at the top stays
there. -/
def components : (out segments : List Text) → List Text
  | out, [] => out
  | out, segment :: segments =>
      if segment = [] ∨ segment = ".".toList then components out segments
      else if segment = "..".toList then components out.dropLast segments
      else components (out ++ [segment]) segments

/-- The path with `.` and `..` resolved and forward slashes. -/
def normalize (path : Text) : Text :=
  forwardSlashes (joinWith ['/'] (components [] (splitOnChar '/' path)))

/-- `Path::parent` of a file id. -/
def parent (rel : Text) : Text := joinWith ['/'] (splitOnChar '/' rel).dropLast

/-- Next to the referrer first, then from the root. -/
def bases (fromId spec : Text) : List Text :=
  ([normalize (joinPath (parent fromId) spec), normalize spec]).filter (· ≠ [])

def jsResolveSuffixes : List Text :=
  ["", ".js", ".jsx", ".mjs", ".cjs", "/index.js", "/index.mjs"].map String.toList

section Resolve

variable (fileIds : Finset Text)

def resolveSpecifier (fromId spec : Text) : Option Text :=
  ((bases fromId spec).flatMap fun base => jsResolveSuffixes.map (base ++ ·)).find? (· ∈ fileIds)

def resolveExact (fromId spec : Text) : Option Text :=
  (bases fromId spec).find? (· ∈ fileIds)

/-- A `$VAR/` names any directory: only a path that ends one file id is taken. -/
def resolveVarPrefixed (remainder : Text) : Option Text :=
  if remainder ∈ fileIds then some remainder
  else
    match (fileIds.sort (· ≤ ·)).filter fun id => '/' :: remainder <:+ id with
    | [id] => some id
    | _ => none

def resolve (fromId : Text) (spec : Specifier) : Option Text :=
  match spec.method with
  | .jsRegex => resolveSpecifier fileIds fromId spec.text
  | .shVarPrefix => resolveVarPrefixed fileIds spec.text
  | _ => resolveExact fileIds fromId spec.text

def linkEdge (kind : EdgeKind) (fromId target : Text) (method : LinkMethod) : Edge where
  kind := kind
  src := (.file, fromId)
  dst := (.file, target)
  props := .provenance "1.0".toList method.text

/-- The edges of one file, and the pairs of files linked so far. -/
def stageEdges (fromId : Text) (kind : EdgeKind) :
    List Specifier → Finset (Text × Text) → List Edge × Finset (Text × Text)
  | [], seen => ([], seen)
  | spec :: specs, seen =>
      match resolve fileIds fromId spec with
      | none => stageEdges fromId kind specs seen
      | some target =>
          if target = fromId ∨ (fromId, target) ∈ seen then stageEdges fromId kind specs seen
          else
            let staged := stageEdges fromId kind specs (insert (fromId, target) seen)
            (linkEdge kind fromId target spec.method :: staged.1, staged.2)

end Resolve

def jsExts : List Text := ["js", "jsx", "mjs", "cjs"].map String.toList

def mdExts : List Text := ["md", "markdown", "mdx"].map String.toList

def shExts : List Text := ["sh", "bash"].map String.toList

variable {Content : Type} (F : FrontEnd Content)

def specsForFile (rel : Text) (content : Content) : Option (EdgeKind × List Specifier) :=
  if lowerExtension rel ∈ jsExts then
    (F.readText content).map fun src =>
      (.imports, (F.extractRelativeSpecifiers src).map fun text => ⟨text, .jsRegex⟩)
  else if lowerExtension rel ∈ mdExts then
    (F.readText content).map fun src => (.references, F.extractMarkdownSpecifiers src)
  else if lowerExtension rel ∈ shExts then
    (F.readText content).map fun src => (.references, F.extractShellSpecifiers src)
  else none

/-- The edges of every source, staged in turn. -/
def stageSources (fileIds : Finset Text) (content : Text → Content) :
    (sources : List Text) → Finset (Text × Text) → List Edge
  | [], _ => []
  | rel :: sources, seen =>
      match specsForFile F rel (content rel) with
      | none => stageSources fileIds content sources seen
      | some (kind, specs) =>
          let staged := stageEdges fileIds (relId rel) kind specs seen
          staged.1 ++ stageSources fileIds content sources staged.2

/-- Re-derives the links out of `sources`, resolved against every file. -/
def linkFileImportsFor (g : Graph) (tree : SourceTree Content) (sources : List Text) : Graph :=
  g.insertEdges (stageSources F (tree.rels.image relId) tree.content sources ∅ : Multiset Edge)

end LightLink

end CodeGraph
