import CodeGraph.Iac

/-!
# The full index

The index loop over the files of a tree and the two passes behind it. Symbols
are collected in a batch across files and flushed when it is large; directories,
files and syntax trees are written at once.
-/

namespace CodeGraph

/-- Node rows that trigger a flush. -/
def symbolFlushThreshold : Nat := 5000

structure SymbolBatch where
  nodes : Multiset Node := 0
  edges : Multiset Edge := 0

def SymbolBatch.flush (batch : SymbolBatch) (g : Graph) : Graph :=
  (g.insertNodes batch.nodes).insertEdges batch.edges

/-- The store and what the loop carries from file to file. A directory is the
list of its components; a recorded label is the key of a node. -/
structure IndexState where
  store : Graph
  batch : SymbolBatch := {}
  dirNodesInserted : Finset (List Text) := ∅
  labelByQn : Finset Key := ∅
  seenNodeIds : Finset Key := ∅

namespace IndexState

def pushNode (st : IndexState) (n : Node) : IndexState :=
  { st with batch := { st.batch with nodes := n ::ₘ st.batch.nodes } }

def pushEdges (st : IndexState) (es : List Edge) : IndexState :=
  { st with batch := { st.batch with edges := (es : Multiset Edge) + st.batch.edges } }

def recordLabel (st : IndexState) (key : Key) : IndexState :=
  { st with labelByQn := insert key st.labelByQn }

/-- The store once the batch is flushed. -/
def settled (st : IndexState) : Graph := st.batch.flush st.store

def flush (st : IndexState) : IndexState := { st with store := st.settled, batch := {} }

end IndexState

/-! ## Directories and files -/

def dirId (dir : List Text) : Text := joinWith ['/'] dir

def dirNode (dir : List Text) : Node := ⟨dirId dir, .directory (dir.getLast?.getD [])⟩

/-- The containment of a directory in its parent; none at the root. -/
def dirEdges (dir : List Text) : List Edge :=
  if dir.dropLast = [] then []
  else [⟨.contains, (.directory, dirId dir.dropLast), (.directory, dirId dir), .none⟩]

/-- Walks the components below `current`, creating the directories not met yet. -/
def insertDirsFrom : (current components : List Text) → IndexState → IndexState
  | _, [], st => st
  | prev, component :: components, st =>
      let current := prev ++ [component]
      if current ∈ st.dirNodesInserted then insertDirsFrom current components st
      else
        insertDirsFrom current components <|
          { st with
            store := st.store.insertNodes {dirNode current}
            dirNodesInserted := insert current st.dirNodesInserted }.recordLabel
              (.directory, dirId current)
            |>.pushEdges (dirEdges current)

def insertAncestorDirs (st : IndexState) (rel : Text) : IndexState :=
  insertDirsFrom [] (splitOnChar '/' rel).dropLast st

variable {Content : Type} (F : FrontEnd Content)

def fileNode (rel : Text) (sizeBytes parseErrors : Nat) : Node :=
  ⟨rel, .file (basename rel) (extension rel) sizeBytes parseErrors⟩

def insertFileNode (st : IndexState) (rel : Text) (content : Content) : IndexState :=
  { st with store := st.store.insertNodes {fileNode rel (F.size content) 0} }

def dirFileEdges (rel : Text) : List Edge :=
  if LightLink.parent rel = [] then []
  else [⟨.contains, (.directory, LightLink.parent rel), (.file, rel), .none⟩]

/-! ## The symbols of a file -/

def declaresVisibility : SymbolLabel → Bool
  | .function | .method | .struct | .enum | .trait | .field | .constant | .typeAlias => true
  | .variant | .imported | .callSite | .module => false

def isPublicSymbol (language visibility : Text) : Bool :=
  if language = "python".toList then decide (visibility ≠ "private".toList)
  else visibility ∈ ["pub", "export", "public", "open"].map String.toList

/-- The public surface of a dependency: a variant goes with its enum, and an enum
comes before its variants. -/
def keepUnderPublicApi (language : Text) : List ExtractedNode → Finset Text → List ExtractedNode
  | [], _ => []
  | node :: nodes, dropped =>
      if node.label = .variant then
        if ∃ enum ∈ beforeLast "::".toList node.localName, enum ∈ dropped then
          keepUnderPublicApi language nodes dropped
        else node :: keepUnderPublicApi language nodes dropped
      else if !declaresVisibility node.label || isPublicSymbol language node.visibility then
        node :: keepUnderPublicApi language nodes dropped
      else if node.label = .enum then
        keepUnderPublicApi language nodes (insert node.localName dropped)
      else keepUnderPublicApi language nodes dropped

def symbolKey (rel : Text) (node : ExtractedNode) : Key :=
  (.symbol node.label, inFile rel node.localName)

def symbolNode (language rel : Text) (node : ExtractedNode) : Node :=
  ⟨inFile rel node.localName, .symbol language node⟩

/-- Batches the nodes whose key is not met yet. -/
def accumulateParsedNodes (language rel : Text) : List ExtractedNode → IndexState → IndexState
  | [], st => st
  | node :: nodes, st =>
      if symbolKey rel node ∈ st.seenNodeIds then accumulateParsedNodes language rel nodes st
      else
        accumulateParsedNodes language rel nodes <|
          ({ st with seenNodeIds := insert (symbolKey rel node) st.seenNodeIds }.recordLabel
            (symbolKey rel node)).pushNode (symbolNode language rel node)

def lookupLabelAmong (labelByQn : Finset Key) (id : Text) (candidates : List Label) :
    Option Label :=
  match candidates.filter fun label => (label, id) ∈ labelByQn with
  | [label] => some label
  | _ => none

def definesFrom : List Label := [.file, .symbol .module, .symbol .function, .symbol .method]

def definesTo : List Label :=
  ([.function, .struct, .enum, .trait, .constant, .typeAlias, .module, .imported, .callSite] :
    List SymbolLabel).map .symbol

/-- The `Defines` tables between a file or a symbol and a symbol. -/
def isKnownDefines : Label → Label → Bool
  | .file, .symbol l | .symbol .module, .symbol l =>
      decide (l ∈ ([.function, .struct, .enum, .trait, .constant, .typeAlias, .imported] :
        List SymbolLabel))
  | .symbol .function, .symbol l | .symbol .method, .symbol l => decide (l = .callSite)
  | _, _ => false

def resolveEdgeTable (labelByQn : Finset Key) (origin target : Text) :
    RefKind → Option (EdgeKind × Label × Label)
  | .defines => do
      let fromLabel ← lookupLabelAmong labelByQn origin definesFrom
      let toLabel ← lookupLabelAmong labelByQn target definesTo
      if isKnownDefines fromLabel toLabel then some (.defines, fromLabel, toLabel) else none
  | .hasMethod => do
      let fromLabel ← lookupLabelAmong labelByQn origin
        [.symbol .struct, .symbol .enum, .symbol .trait]
      some (.hasMethod, fromLabel, .symbol .method)
  | .hasField => do
      let fromLabel ← lookupLabelAmong labelByQn origin [.symbol .struct, .symbol .enum]
      some (.hasField, fromLabel, .symbol .field)
  | .hasVariant => some (.hasVariant, .symbol .enum, .symbol .variant)
  | .deferred _ => none

def refEdge (labelByQn : Finset Key) (rel : Text) (r : ExtractedRef) : Option Edge :=
  (resolveEdgeTable labelByQn (r.origin.id rel) (r.target.id rel) r.kind).map
    fun (kind, fromLabel, toLabel) =>
      ⟨kind, (fromLabel, r.origin.id rel), (toLabel, r.target.id rel), directAst⟩

def accumulateParsedEdges (rel : Text) (refs : List ExtractedRef) (st : IndexState) : IndexState :=
  st.pushEdges (refs.filterMap (refEdge st.labelByQn rel))

/-! ## The syntax tree of a file -/

def astNode (language rel : Text) (row : AstNodeRow) : Node :=
  ⟨inFile rel row.localId, .astNode language row⟩

def astChildEdge (rel : Text) (row : AstNodeRow) : Option Edge :=
  row.parent.map fun parent =>
    ⟨.astChild, (.astNode, inFile rel parent), (.astNode, inFile rel row.localId),
      .child row.childIndex row.fieldName⟩

/-- The file to its root, every other node to its parent. -/
def astEdges (rel : Text) : List AstNodeRow → List Edge
  | [] => []
  | root :: rows =>
      ⟨.defines, (.file, rel), (.astNode, inFile rel root.localId), directAst⟩ ::
        (root :: rows).filterMap (astChildEdge rel)

def persistFullAst (rel source language : Text) (st : IndexState) : IndexState :=
  match F.captureFullAst language rel source with
  | none => st
  | some rows =>
      { st with
        store := ((st.store.insertNodes {⟨rel, .fileContent source⟩}).insertNodes
          (rows.map (astNode language rel) : List Node)).insertEdges
            (astEdges rel rows : List Edge) }

/-! ## One file -/

def setParseErrors (rel : Text) (errors : Nat) (n : Node) : Node :=
  match n.row with
  | .file name ext size _ => if n.id = rel then ⟨n.id, .file name ext size errors⟩ else n
  | _ => n

def setFileParseErrors (st : IndexState) (rel : Text) (errors : Nat) : IndexState :=
  { st with store := st.store.update (setParseErrors rel errors) }

/-- The parse of a file, with its source and its language; `none` for a file that
is not code, cannot be read or fails to parse. -/
def parsedFile (rel : Text) (content : Content) : Option (Text × Text × ParseResult) :=
  if F.hasLanguage (extension rel) then
    (F.readText content).bind fun source =>
      let language := F.language (extension rel) source
      (F.parseFile language rel source).map fun parsed => (language, source, parsed)
  else none

def keptNodes (rel language : Text) (nodes : List ExtractedNode) : List ExtractedNode :=
  if F.restrictToPublicApi rel then keepUnderPublicApi language nodes ∅ else nodes

/-- The symbols of a file whose node is in the store. -/
def indexSingleFile (rel : Text) (content : Content) (st : IndexState) : IndexState :=
  match parsedFile F rel content with
  | none => st
  | some (language, source, parsed) =>
      let st := if 0 < parsed.parseErrors then setFileParseErrors st rel parsed.parseErrors else st
      persistFullAst F rel source language <|
        accumulateParsedEdges rel parsed.refs <|
          accumulateParsedNodes language rel (keptNodes F rel language parsed.nodes) st

/-- The body of the index loop. -/
def indexFile (rel : Text) (content : Content) (st : IndexState) : IndexState :=
  indexSingleFile F rel content <|
    ((insertFileNode F (insertAncestorDirs st rel) rel content).recordLabel (.file, rel)).pushEdges
      (dirFileEdges rel)

def flushLarge (st : IndexState) : IndexState :=
  if symbolFlushThreshold ≤ st.batch.nodes.card then st.flush else st

def indexFiles (tree : SourceTree Content) (st : IndexState) (rels : List Text) : IndexState :=
  rels.foldl (fun st rel => flushLarge (indexFile F rel (tree.content rel) st)) st

def indexCodebase (tree : SourceTree Content) : Graph :=
  let files := tree.rels.sort (· ≤ ·)
  let indexed := (indexFiles F tree { store := .empty } files).settled
  Iac.runIacPassFor F (LightLink.linkFileImportsFor F indexed tree files) tree files

end CodeGraph
