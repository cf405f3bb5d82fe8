import CodeGraph.LightLink

/-!
# Infrastructure files

Dockerfiles, manifests and overlays: each adds nodes under its own file id, and
its references are resolved against the file ids and against the infrastructure
nodes the graph has by then.
-/

namespace CodeGraph

namespace Iac

inductive IacKind
  | dockerfile | kustomization | maybeManifest | other
  deriving DecidableEq

/-- The kind of a file by its name. -/
def classify (rel : Text) : IacKind :=
  let name := (basename rel).map Char.toLower
  if name = "dockerfile".toList ∨ "dockerfile.".toList <+: name ∨ ".dockerfile".toList <:+ name then
    .dockerfile
  else if name = "kustomization.yaml".toList ∨ name = "kustomization.yml".toList ∨
      name = "kustomization".toList then
    .kustomization
  else if lowerExtension rel = "yaml".toList ∨ lowerExtension rel = "yml".toList then .maybeManifest
  else .other

/-- What is read of one infrastructure file. -/
inductive IacFacts
  | dockerfile (info : DockerfileInfo)
  | manifest (docs : List K8sDoc)
  | kustomization (kust : Kustomization)

variable {Content : Type} (F : FrontEnd Content)

def parse (rel : Text) (content : Content) : Option IacFacts :=
  match classify rel with
  | .dockerfile => (F.readText content).bind fun src => (F.parseDockerfile src).map .dockerfile
  | .kustomization => (F.readText content).map fun src => .kustomization (F.parseKustomization src)
  | .maybeManifest =>
      (F.readText content).bind fun src =>
        if F.looksLikeManifest src ∧ F.scanManifest src ≠ [] then
          some (.manifest (F.scanManifest src))
        else none
  | .other => none

/-! ## Emission -/

def num (n : Nat) : Text := (toString n).toList

def dockerfileId (rel : Text) : Text := inFile rel "dockerfile".toList

def manifestId (rel : Text) (docIdx : Nat) : Text := inFile rel ("k8s::".toList ++ num docIdx)

def kustomizeId (rel : Text) : Text := inFile rel "kustomize".toList

def imageId (rel : Text) (i : Nat) : Text := inFile rel ("image::".toList ++ num i)

def manifestImageId (rel : Text) (docIdx i : Nat) : Text :=
  inFile rel ("image::k8s::".toList ++ num docIdx ++ "::".toList ++ num i)

def splitImageRef (reference : Text) : Text × Text × Text :=
  let (path, tag) :=
    match breakOn ['@'] reference with
    | some (path, tag) => (path, tag)
    | none =>
        match beforeLast [':'] reference with
        | some before =>
            -- a `:` before a `/` is the port of a registry
            if '/' ∈ lastPiece [':'] reference then (reference, [])
            else (before, lastPiece [':'] reference)
        | none => (reference, [])
  match beforeLast ['/'] path with
  | some registry => (registry, lastPiece ['/'] path, tag)
  | none => ([], path, tag)

def imageName (reference : Text) : Text := (splitImageRef reference).2.1

def imageNode (id reference : Text) : Node where
  id := id
  row :=
    let (registry, name, tag) := splitImageRef reference
    .iacImage reference name tag registry

def refEdge (kind : EdgeKind) (src dst : Key) (confidence method : Text) : Edge where
  kind := kind
  src := src
  dst := dst
  props := .provenance confidence method

def structuralEdge (rel : Text) (dst : Key) : Edge :=
  refEdge .defines (.file, rel) dst "1.0".toList "iac-direct".toList

def imageEdge (res img : Text) : Edge :=
  refEdge .imports (.iacResource, res) (.iacImage, img) "1.0".toList "iac-image-decl".toList

def dockerfileResource (rel : Text) (info : DockerfileInfo) : IacResource where
  name := basename rel
  resourceKind := "Dockerfile".toList
  image := info.baseImage
  ports := joinWith [','] info.exposedPorts
  entrypoint := info.entrypoint
  workdir := info.workdir
  source := "dockerfile".toList
  path := rel
  startLine := 1

def manifestResource (rel : Text) (doc : K8sDoc) : IacResource where
  name := doc.name
  resourceKind := doc.kind
  apiVersion := doc.apiVersion
  namespc := doc.namespc
  image := doc.images.head?.getD []
  source := "k8s".toList
  path := rel
  startLine := doc.startLine

def nodes (rel : Text) : IacFacts → List Node
  | .dockerfile info =>
      ⟨dockerfileId rel, .iacResource (dockerfileResource rel info)⟩ ::
        info.stageImages.mapIdx fun i image => imageNode (imageId rel i) image
  | .manifest docs =>
      (docs.mapIdx fun docIdx doc =>
        ⟨manifestId rel docIdx, .iacResource (manifestResource rel doc)⟩ ::
          doc.images.mapIdx fun i image => imageNode (manifestImageId rel docIdx i) image).flatten
  | .kustomization _ => [⟨kustomizeId rel, .iacModule (basename rel) rel⟩]

def edges (rel : Text) : IacFacts → List Edge
  | .dockerfile info =>
      structuralEdge rel (.iacResource, dockerfileId rel) ::
        info.stageImages.mapIdx fun i _ => imageEdge (dockerfileId rel) (imageId rel i)
  | .manifest docs =>
      (docs.mapIdx fun docIdx doc =>
        structuralEdge rel (.iacResource, manifestId rel docIdx) ::
          doc.images.mapIdx fun i _ =>
            imageEdge (manifestId rel docIdx) (manifestImageId rel docIdx i)).flatten
  | .kustomization _ => [structuralEdge rel (.iacModule, kustomizeId rel)]

/-! ## Resolution -/

def normNs (ns : Text) : Text := if ns = [] then "default".toList else ns

/-- What a reference is resolved against. -/
structure ResolutionIndexes where
  fileIds : Finset Text
  resourceByIdent : Text × Text × Text → Option Text
  dockerfileByDir : Text → Option Text
  moduleFiles : Multiset Text

/-- Records one resource; of two under one key the later row wins. -/
def ResolutionIndexes.add (idx : ResolutionIndexes) (r : IacResource) : ResolutionIndexes :=
  if r.resourceKind = "Dockerfile".toList then
    match beforeLast ['/'] r.path with
    | some dir =>
        { idx with dockerfileByDir := Function.update idx.dockerfileByDir (basename dir) r.path }
    | none => idx
  else if r.name ≠ [] then
    let key := (r.resourceKind, r.name, normNs r.namespc)
    { idx with resourceByIdent := Function.update idx.resourceByIdent key r.path }
  else idx

def resourceOf : Row → Option IacResource
  | .iacResource r => some r
  | _ => none

def modulePathOf : Row → Option Text
  | .iacModule _ path => some path
  | _ => none

/-- The indexes of the infrastructure nodes among `nodes`. -/
def ResolutionIndexes.build (nodes : Multiset Node) (fileIds : Finset Text) : ResolutionIndexes :=
  let rows := F.scan (nodes.filter fun n => n.row.label = .iacResource)
  (rows.filterMap fun n => resourceOf n.row).foldl ResolutionIndexes.add
    { fileIds := fileIds
      resourceByIdent := fun _ => none
      dockerfileByDir := fun _ => none
      moduleFiles := nodes.filterMap fun n => modulePathOf n.row }

/-- The file itself, or the overlay of a directory. -/
def resolvePath (fileIds : Finset Text) (fromRel spec : Text) : Option Text :=
  let base := LightLink.normalize (joinPath (LightLink.parent fromRel) spec)
  if base = [] then none
  else
    (["", "/kustomization.yaml", "/kustomization.yml", "/kustomization"].map fun suffix =>
      base ++ suffix.toList).find? (· ∈ fileIds)

variable (idx : ResolutionIndexes)

def references (rel : Text) : IacFacts → List Edge
  | .dockerfile info =>
      info.copySources.filterMap fun src =>
        (resolvePath idx.fileIds rel src).map fun target =>
          refEdge .imports (.iacResource, dockerfileId rel) (.file, target) "0.9".toList
            "iac-copy-source".toList
  | .manifest docs =>
      (docs.mapIdx fun docIdx doc =>
        (doc.images.filterMap fun image =>
          (idx.dockerfileByDir (imageName image)).map fun target =>
            refEdge .imports (.iacResource, manifestId rel docIdx) (.file, target) "0.6".toList
              "iac-image-build".toList) ++
        doc.configRefs.filterMap fun cref =>
          (idx.resourceByIdent (cref.kind, cref.name, normNs doc.namespc)).map fun target =>
            refEdge .imports (.iacResource, manifestId rel docIdx) (.file, target) "0.7".toList
              ("iac-name-match:".toList ++ cref.kind ++ '/' :: cref.name)).flatten
  | .kustomization kust =>
      kust.refs.filterMap fun spec =>
        (resolvePath idx.fileIds rel spec).map fun target =>
          -- a base directory is an overlay of its own
          if target ∈ idx.moduleFiles ∧ target ≠ rel then
            refEdge .imports (.iacModule, kustomizeId rel) (.iacModule, kustomizeId target)
              "0.95".toList "kustomize-base".toList
          else
            refEdge .imports (.iacModule, kustomizeId rel) (.file, target) "0.95".toList
              "kustomize-ref".toList

/-- The first reference between each two ends. -/
def stage : List Edge → Finset (Key × Key) → List Edge
  | [], _ => []
  | e :: es, seen =>
      if (e.src, e.dst) ∈ seen then stage es seen
      else e :: stage es (insert (e.src, e.dst) seen)

/-- Derives the nodes and the edges of the infrastructure files among `sources`. -/
def runIacPassFor (g : Graph) (tree : SourceTree Content) (sources : List Text) : Graph :=
  let parsed := sources.filterMap fun rel =>
    (parse F rel (tree.content rel)).map fun facts => (relId rel, facts)
  let emitted := (g.insertNodes (parsed.flatMap fun p => nodes p.1 p.2 : List Node)).insertEdges
    (parsed.flatMap fun p => edges p.1 p.2 : List Edge)
  let idx := ResolutionIndexes.build F emitted.nodes (tree.rels.image relId)
  emitted.insertEdges (stage (parsed.flatMap fun p => references idx p.1 p.2) ∅ : List Edge)

end Iac

end CodeGraph
