import Mathlib.Data.Finset.Sort
import CodeGraph.Lib.PropertyGraph
import CodeGraph.Segments

/-!
# The index graph

The nodes and edges an index of a source tree writes, the tree it reads and what
it asks of the language front ends. An id is the path of a file or of a
directory, or the path of a file, `::` and a name in that file.
-/

namespace CodeGraph

/-- What the parsers extract. -/
inductive SymbolLabel
  | module | function | method | struct | enum | variant | trait | field | constant | typeAlias
  | imported | callSite
  deriving DecidableEq

/-- The node tables of the index stage. -/
inductive Label
  | directory | file | fileContent | astNode | iacResource | iacModule | iacImage
  | symbol (label : SymbolLabel)
  deriving DecidableEq

/-- The primary key of a node: ids are unique in a node table. -/
abbrev Key := Label × Text

/-- The id of `name` in the file `rel`. -/
def inFile (rel name : Text) : Text := rel ++ "::".toList ++ name

/-- A declaration of a file, under the part of its qualified name behind
`<rel>::`. -/
structure ExtractedNode where
  label : SymbolLabel
  name : Text
  localName : Text
  startLine : Nat
  endLine : Nat
  visibility : Text
  properties : List (Text × Text)
  deriving DecidableEq

/-- One node of a syntax tree, under the part of its id behind `<rel>::`. -/
structure AstNodeRow where
  localId : Text
  kind : Text
  isNamed : Bool
  startByte : Nat
  endByte : Nat
  startLine : Nat
  startCol : Nat
  endLine : Nat
  endCol : Nat
  fieldName : Text
  childIndex : Nat
  parent : Option Text
  deriving DecidableEq

structure IacResource where
  name : Text
  resourceKind : Text
  apiVersion : Text := []
  namespc : Text := []
  image : Text
  ports : Text := []
  entrypoint : Text := []
  workdir : Text := []
  source : Text
  path : Text
  startLine : Nat
  deriving DecidableEq

/-- The columns of a node besides its id. -/
inductive Row
  | directory (name : Text)
  | file (name extension : Text) (sizeBytes parseErrors : Nat)
  | symbol (language : Text) (node : ExtractedNode)
  | fileContent (source : Text)
  | astNode (language : Text) (row : AstNodeRow)
  | iacResource (resource : IacResource)
  | iacModule (name path : Text)
  | iacImage (reference name tag registry : Text)
  deriving DecidableEq

def Row.label : Row → Label
  | directory _ => .directory
  | file _ _ _ _ => .file
  | symbol _ node => .symbol node.label
  | fileContent _ => .fileContent
  | astNode _ _ => .astNode
  | iacResource _ => .iacResource
  | iacModule _ _ => .iacModule
  | iacImage _ _ _ _ => .iacImage

structure Node where
  id : Text
  row : Row
  deriving DecidableEq

inductive EdgeKind
  | contains | defines | hasMethod | hasField | hasVariant | imports | references | astChild
  deriving DecidableEq

inductive EdgeProps
  | none
  | provenance (confidence resolutionMethod : Text)
  | child (childIndex : Nat) (fieldName : Text)
  deriving DecidableEq

/-- An edge; its table is named after the kind and the labels of its ends. -/
structure Edge where
  kind : EdgeKind
  src : Key
  dst : Key
  props : EdgeProps
  deriving DecidableEq

instance : Keyed Node Key := ⟨fun n => (n.row.label, n.id)⟩

instance : Linked Edge Key := ⟨Edge.src, Edge.dst⟩

abbrev Graph := PropertyGraph Node Edge

@[simp]
theorem linked_src (e : Edge) : Linked.src e = e.src := rfl

@[simp]
theorem linked_dst (e : Edge) : Linked.dst e = e.dst := rfl

/-- Ground facts of a syntax tree. -/
def directAst : EdgeProps := .provenance "1.0".toList "direct-ast".toList

/-! ## The source tree -/

/-- The walker enters no directory below this depth. -/
def maxDepth : Nat := 64

/-- A path as the ids take it: relative, with forward slashes, and `<rel>::` holds
no earlier `::`. -/
structure IsFileId (rel : Text) : Prop where
  segments : ∀ segment ∈ splitOnChar '/' rel, IsSegment segment
  forward : '\\' ∉ rel
  unscoped : ¬"::".toList <:+: rel ++ [':']

instance : DecidablePred IsFileId := fun rel =>
  decidable_of_iff ((∀ segment ∈ splitOnChar '/' rel, IsSegment segment) ∧ '\\' ∉ rel ∧
      ¬"::".toList <:+: rel ++ [':'])
    ⟨fun ⟨segments, forward, unscoped⟩ => ⟨segments, forward, unscoped⟩,
      fun h => ⟨h.segments, h.forward, h.unscoped⟩⟩

/-- The files a walk of the source tree returns, and what is in them. -/
structure SourceTree (Content : Type) where
  rels : Finset Text
  content : Text → Content
  plain : ∀ rel ∈ rels, IsFileId rel
  shallow : ∀ rel ∈ rels, (splitOnChar '/' rel).dropLast.length ≤ maxDepth

/-! ## The front ends -/

/-- The declaration an edge of a file starts or ends at. -/
inductive Endpoint
  | file
  | symbol (name : Text)
  deriving DecidableEq

def Endpoint.id (rel : Text) : Endpoint → Text
  | file => rel
  | symbol name => inFile rel name

inductive RefKind
  | defines | hasMethod | hasField | hasVariant
  | deferred (kind : Text)
  deriving DecidableEq

structure ExtractedRef where
  kind : RefKind
  origin : Endpoint
  target : Endpoint
  deriving DecidableEq

structure ParseResult where
  nodes : List ExtractedNode
  refs : List ExtractedRef
  parseErrors : Nat

/-- The heuristic that found a reference. -/
inductive LinkMethod
  | jsRegex | mdLink | mdBacktick | mdBare | shSource | shInvoke | shVarPrefix
  deriving DecidableEq

def LinkMethod.text : LinkMethod → Text
  | jsRegex => "js-regex".toList
  | mdLink => "md-link".toList
  | mdBacktick => "md-backtick".toList
  | mdBare => "md-bare".toList
  | shSource => "sh-source".toList
  | shInvoke => "sh-invoke".toList
  | shVarPrefix => "sh-var-prefix".toList

structure Specifier where
  text : Text
  method : LinkMethod
  deriving DecidableEq

structure DockerfileInfo where
  baseImage : Text
  stageImages : List Text
  exposedPorts : List Text
  entrypoint : Text
  workdir : Text
  copySources : List Text

structure ConfigRef where
  kind : Text
  name : Text

structure K8sDoc where
  kind : Text
  apiVersion : Text
  name : Text
  namespc : Text
  startLine : Nat
  images : List Text
  configRefs : List ConfigRef

structure Kustomization where
  refs : List Text

/-- What the indexer asks of a file's text. Everything is proved for every choice
of these functions. -/
structure FrontEnd (Content : Type) where
  /-- The length of the file on disk. -/
  size : Content → Nat
  /-- The file as UTF-8 text, when it is one and within the parse cap. -/
  readText : Content → Option Text
  /-- The language of a file by its extension and, for a `.h`, by its text. -/
  language : Text → Text → Text
  hasLanguage : Text → Bool
  /-- A dependency file of which only the public declarations are kept. -/
  restrictToPublicApi : Text → Bool
  /-- `none` when the parse fails or panics. -/
  parseFile : (language rel source : Text) → Option ParseResult
  captureFullAst : (language rel source : Text) → Option (List AstNodeRow)
  extractRelativeSpecifiers : Text → List Text
  extractMarkdownSpecifiers : Text → List Specifier
  extractShellSpecifiers : Text → List Specifier
  parseDockerfile : Text → Option DockerfileInfo
  parseKustomization : Text → Kustomization
  looksLikeManifest : Text → Bool
  scanManifest : Text → List K8sDoc
  /-- The rows of a query over some nodes, in an order of the store's own. -/
  scan : Multiset Node → List Node

end CodeGraph
