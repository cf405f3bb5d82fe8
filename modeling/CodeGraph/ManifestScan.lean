import CodeGraph.AstPersist
import CodeGraph.Bootstrap
import CodeGraph.IndexGraph

/-!
# The manifest scan

Kubernetes manifests are read line by line, without a YAML parser. What the scan remembers
between two lines is the indent of the `metadata:` block it is in and the reference marker that
still waits for its `name:`.
-/

namespace CodeGraph

deriving instance DecidableEq for ConfigRef

namespace ManifestScan

/-- The whitespace that `trim` takes. -/
def space : CharClass := ⟨Ast.isWhiteSpace, Char.isAlphanum⟩

def maxImages : ℕ := 32

def maxRefs : ℕ := 64

/-- The documents of a file, and the line ranges that no manifest was read from. -/
structure ScanResult where
  docs : List K8sDoc
  gapRanges : List (ℕ × ℕ)

/-! ## One line -/

def indentOf (line : Text) : ℕ := (line.takeWhile (· = ' ')).length

/-- A key and its value, split at the first `: `; none for a line that is no mapping entry. -/
def splitKey (trimmed : Text) : Option (Text × Text) :=
  if trimmed.getLast? = some ':' then some (trim space trimmed.dropLast, [])
  else (breakOn ": ".toList trimmed).map fun (key, value) => (trim space key, trim space value)

def unquote (s : Text) : Text :=
  let t := trim space s
  if 2 ≤ t.length ∧ ((t.head? = some '"' ∧ t.getLast? = some '"') ∨
      (t.head? = some '\'' ∧ t.getLast? = some '\'')) then
    t.tail.dropLast
  else t

def readLine (raw : Text) : Option (ℕ × Text × Text) :=
  let line := trim space raw
  if line = [] ∨ line.head? = some '#' then none
  else
    let entry := ((stripPrefix "- ".toList line).map (trim space)).getD line
    (splitKey entry).map fun (key, value) => (indentOf raw, key, value)

/-- The kind of resource that a reference marker points at. -/
def refKindOf (key : Text) : Option Text :=
  if key ∈ ["configMapRef", "configMapKeyRef", "configMap"].map String.toList then
    some "ConfigMap".toList
  else if key ∈ ["secretRef", "secretKeyRef", "secret"].map String.toList then
    some "Secret".toList
  else if key = "service".toList then some "Service".toList
  else none

/-! ## One document -/

def pushImage (img : Text) (images : List Text) : List Text :=
  if img ≠ [] ∧ images.length < maxImages ∧ img ∉ images then images ++ [img] else images

def pushRef (ref : ConfigRef) (refs : List ConfigRef) : List ConfigRef :=
  if ref.name = [] ∨ maxRefs ≤ refs.length then refs
  else if ref ∉ refs then refs ++ [ref]
  else refs

structure DocumentState where
  kind : Text := []
  apiVersion : Text := []
  name : Text := []
  namespc : Text := []
  images : List Text := []
  configRefs : List ConfigRef := []
  metadataIndent : Option ℕ := none
  refMarker : Option (ℕ × Text) := none

namespace DocumentState

/-- A pending marker is closed once a line is not inside its block, and `metadata` once a line
is not inside it. -/
def close (indent : ℕ) (key : Text) (s : DocumentState) : DocumentState :=
  { s with
    refMarker := s.refMarker.filter fun marker =>
      !(indent ≤ marker.1 && key.map Char.toLower ≠ "name".toList)
    metadataIndent := s.metadataIndent.filter fun mi =>
      !(indent ≤ mi && key ≠ "metadata".toList) }

def take (indent : ℕ) (key value : Text) (s : DocumentState) : DocumentState :=
  if key = "apiVersion".toList ∧ indent = 0 then { s with apiVersion := unquote value }
  else if key = "kind".toList ∧ indent = 0 ∧ s.kind = [] then { s with kind := unquote value }
  else if key = "metadata".toList ∧ indent = 0 then { s with metadataIndent := some indent }
  else if key = "name".toList then
    match s.refMarker with
    | some (_, refKind) =>
        { s with
          refMarker := none
          configRefs := pushRef ⟨refKind, unquote value⟩ s.configRefs }
    | none =>
        match s.metadataIndent with
        | some mi => if mi < indent ∧ s.name = [] then { s with name := unquote value } else s
        | none => s
  else if key = "namespace".toList then
    match s.metadataIndent with
    | some mi => if mi < indent ∧ s.namespc = [] then { s with namespc := unquote value } else s
    | none => s
  else if key = "image".toList then { s with images := pushImage (unquote value) s.images }
  else if key = "secretName".toList then
    { s with configRefs := pushRef ⟨"Secret".toList, unquote value⟩ s.configRefs }
  else if key = "serviceName".toList then
    { s with configRefs := pushRef ⟨"Service".toList, unquote value⟩ s.configRefs }
  else
    match refKindOf key with
    | some refKind => { s with refMarker := some (indent, refKind) }
    | none => s

def line (s : DocumentState) (raw : Text) : DocumentState :=
  match readLine raw with
  | some (indent, key, value) => (s.close indent key).take indent key value
  | none => s

end DocumentState

def scanDocument (chunk : Text) (startLine : ℕ) : Option K8sDoc :=
  let s := (lines chunk).foldl DocumentState.line {}
  if s.kind = [] then none
  else some ⟨s.kind, s.apiVersion, s.name, s.namespc, startLine, s.images, s.configRefs⟩

/-! ## One file -/

structure Split where
  docs : List (ℕ × Text) := []
  current : Text := []
  currentStart : ℕ := 1
  lineNo : ℕ := 0

def trimEnd (text : Text) : Text := (text.reverse.dropWhile space.isWhitespace).reverse

def Split.line (s : Split) (raw : Text) : Split :=
  let lineNo := s.lineNo + 1
  if trimEnd raw = "---".toList then
    { docs := if s.current = [] then s.docs else s.docs ++ [(s.currentStart, s.current)]
      current := []
      currentStart := lineNo + 1
      lineNo := lineNo }
  else { s with current := s.current ++ raw ++ ['\n'], lineNo := lineNo }

/-- The chunks between the document separators, each with the line it starts on. -/
def splitDocuments (content : Text) : List (ℕ × Text) :=
  let s := (lines content).foldl Split.line {}
  if trim space s.current = [] then s.docs else s.docs ++ [(s.currentStart, s.current)]

def scanChunk (result : ScanResult) (startLine : ℕ) (chunk : Text) : ScanResult :=
  if trim space chunk = [] then result
  else
    let templated := decide ("\x7b\x7b".toList <:+: chunk)
    let range := (startLine, startLine + ((lines chunk).length - 1))
    match scanDocument chunk startLine with
    | some doc =>
        { docs := result.docs ++ [doc]
          gapRanges :=
            if templated ∨ doc.name = [] then result.gapRanges ++ [range] else result.gapRanges }
    | none =>
        if ¬ templated ∨ "kind:".toList <:+: chunk then
          { result with gapRanges := result.gapRanges ++ [range] }
        else result

def scan (content : Text) : ScanResult :=
  (splitDocuments content).foldl (fun result (start, chunk) => scanChunk result start chunk)
    ⟨[], []⟩

end ManifestScan

end CodeGraph
