import CodeGraph.IndexParts

/-!
# Routing the structural edges

The references of a file become edges once its declarations are recorded. A
table is named after the labels recorded for the two ends, but only `Defines`
asks for both: `HasMethod` and `HasField` ask for the type and take the member
for granted, `HasVariant` asks for neither end.

In a set of files with plain paths a lookup stays in its file (`route_eq`), and
no candidate label is a variant's, the one label whose filter depends on what
comes before. So the staged edges do not depend on the order of the nodes
(`orderFree`), while each of them joins recorded nodes just when the ends taken
for granted are recorded.
-/

namespace CodeGraph

open List

namespace EdgeRouting

open Unmet

/-! ## Parsed files -/

/-- A file as the parser leaves it. -/
structure ParsedFile where
  rel : Text
  language : Text
  restrictToPublicApi : Bool
  nodes : List ExtractedNode
  refs : List ExtractedRef
  plain : IsFileId rel

/-- The declarations that get past the filter of a dependency. -/
def ParsedFile.kept (f : ParsedFile) : List ExtractedNode :=
  if f.restrictToPublicApi then keepUnderPublicApi f.language f.nodes ∅ else f.nodes

def ParsedFile.labels (f : ParsedFile) : Finset Key := ownLabels f.rel f.kept

structure FileSet where
  files : List ParsedFile
  distinct : (files.map ParsedFile.rel).Nodup

/-! ## Staging -/

def recordFile (st : IndexState) (f : ParsedFile) : IndexState :=
  accumulateParsedNodes f.language f.rel f.kept (st.recordLabel (.file, f.rel))

def stageFile (st : IndexState) (f : ParsedFile) : IndexState :=
  accumulateParsedEdges f.rel f.refs (recordFile st f)

def stageFiles (files : List ParsedFile) (st : IndexState) : IndexState := files.foldl stageFile st

/-- Nothing recorded yet. -/
def unstarted : IndexState where
  store := ⟨0, 0⟩

def stagedEdges (fs : FileSet) : Multiset Edge := (stageFiles fs.files unstarted).batch.edges

/-- A reference and the edge staged for it; `none` when it is dropped. -/
structure Routed where
  file : ParsedFile
  ref : ExtractedRef
  edge : Option Edge

def routeFile (st : IndexState) (f : ParsedFile) : List Routed :=
  f.refs.map fun r => ⟨f, r, refEdge (recordFile st f).labelByQn f.rel r⟩

/-- What becomes of the references of a run. -/
def route : List ParsedFile → IndexState → List Routed
  | [], _ => []
  | f :: files, st => routeFile st f ++ route files (stageFile st f)

theorem stageFiles_edges (files : List ParsedFile) (st : IndexState) :
    (stageFiles files st).batch.edges =
      ((route files st).filterMap Routed.edge : List Edge) + st.batch.edges := by
  induction files generalizing st with
  | nil => simp [stageFiles, route]
  | cons f files ih =>
      have hstep : (stageFile st f).batch.edges =
          ((routeFile st f).filterMap Routed.edge : List Edge) + st.batch.edges := by
        rw [stageFile, accumulateParsedEdges, IndexState.pushEdges, recordFile,
          accumulateParsedNodes_eq, routeFile, filterMap_map]
        simp only [recordFile, accumulateParsedNodes_eq]
        rfl
      rw [stageFiles, foldl_cons, ← stageFiles, ih, hstep, route, filterMap_append,
        ← Multiset.coe_add, ← add_assoc, add_comm (Multiset.ofList _) (Multiset.ofList _)]

/-! ## Recorded labels -/

/-- What holds of the state once some files are staged. -/
structure After (earlier : List ParsedFile) (st : IndexState) : Prop where
  labels : ∀ k, k ∈ st.labelByQn ↔ ∃ f ∈ earlier, k ∈ f.labels
  seen : ∀ k ∈ st.seenNodeIds, k ∈ st.labelByQn

theorem After.nil : After [] unstarted where
  labels k := by simp [unstarted]
  seen k := by simp [unstarted]

variable {earlier : List ParsedFile} {st : IndexState}

theorem After.recordFile (h : After earlier st)
    (f : ParsedFile) : After (earlier ++ [f]) (recordFile st f) := by
  have hkeys : ∀ k, k ∈ (EdgeRouting.recordFile st f).labelByQn ↔
      k ∈ st.labelByQn ∨ k ∈ f.labels := by
    intro k
    rw [EdgeRouting.recordFile, accumulateParsedNodes_eq, ParsedFile.labels, ownLabels,
      Finset.mem_insert, Finset.mem_union, mem_keysOf_unmet, IndexState.recordLabel,
      Finset.mem_insert, or_comm (a := k = _), or_assoc]
    refine or_congr_right' fun hk => or_congr_right ?_
    exact and_iff_left fun hs => hk (h.seen k hs)
  constructor
  · intro k
    rw [hkeys, h.labels]
    simp [or_and_right, exists_or]
  · intro k hk
    rw [EdgeRouting.recordFile, accumulateParsedNodes_eq] at hk
    rw [hkeys, ParsedFile.labels, ownLabels, Finset.mem_insert]
    rcases Finset.mem_union.mp hk with hk | hk
    · exact Or.inl (h.seen k hk)
    · exact Or.inr (Or.inr hk)

theorem After.stageFile (h : After earlier st)
    (f : ParsedFile) : After (earlier ++ [f]) (stageFile st f) :=
  ⟨(h.recordFile f).labels, (h.recordFile f).seen⟩

variable {k : Key}

theorem ParsedFile.near {f : ParsedFile} (h : k ∈ f.labels) : Near f.rel k := by
  rcases Finset.mem_insert.mp h with rfl | h
  · exact Owned.file.near
  · obtain ⟨node, -, rfl⟩ := mem_keysOf.mp h
    exact (symbolNode_owned f.language f.rel node).near

variable {files : List ParsedFile}

/-- Files under distinct paths share no key, so a lookup meets those of its own
file. -/
theorem recorded_iff (hdistinct : (files.map ParsedFile.rel).Nodup)
    {f : ParsedFile} (hf : f ∈ files) (hk : Near f.rel k) :
    (∃ g ∈ files, k ∈ g.labels) ↔ k ∈ f.labels := by
  refine ⟨?_, fun h => ⟨f, hf, h⟩⟩
  rintro ⟨g, hg, hkg⟩
  have hrel : g.rel = f.rel := (ParsedFile.near hkg).unique g.plain f.plain hk
  rwa [← inj_on_of_nodup_map hdistinct hg hf hrel]

def ParsedFile.edgeOf (f : ParsedFile) (r : ExtractedRef) : Option Edge :=
  refEdge f.labels f.rel r

theorem route_after (h : After earlier st)
    (hdistinct : ((earlier ++ files).map ParsedFile.rel).Nodup) :
    route files st = files.flatMap fun f => f.refs.map fun r => ⟨f, r, f.edgeOf r⟩ := by
  induction files generalizing earlier st with
  | nil => rfl
  | cons f files ih =>
      have hlist : earlier ++ f :: files = (earlier ++ [f]) ++ files := by simp
      rw [hlist] at hdistinct
      have hhead : ((earlier ++ [f]).map ParsedFile.rel).Nodup := by
        rw [map_append] at hdistinct
        exact hdistinct.of_append_left
      have hlabels : ∀ k, Near f.rel k → (k ∈ (recordFile st f).labelByQn ↔ k ∈ f.labels) := by
        intro k hk
        rw [(h.recordFile f).labels]
        exact recorded_iff hhead (by simp) hk
      rw [route, flatMap_cons, ih (h.stageFile f) hdistinct, routeFile]
      congr 1
      exact map_congr_left fun r _ => by rw [refEdge_congr hlabels, ParsedFile.edgeOf]

theorem route_eq (fs : FileSet) :
    route fs.files unstarted =
      fs.files.flatMap fun f => f.refs.map fun r => ⟨f, r, f.edgeOf r⟩ :=
  route_after After.nil fs.distinct

theorem stagedEdges_eq (fs : FileSet) :
    stagedEdges fs = (fs.files.flatMap fun f => f.refs.filterMap f.edgeOf : List Edge) := by
  rw [stagedEdges, stageFiles_edges, route_eq, filterMap_flatMap]
  simp [unstarted, filterMap_map]

/-! ## What a reference asks for -/

/-- The labels an edge of the kind may start at. -/
def fromCandidates : RefKind → List Label
  | .defines => definesFrom
  | .hasMethod => [.symbol .struct, .symbol .enum, .symbol .trait]
  | .hasField => [.symbol .struct, .symbol .enum]
  | .hasVariant => [.symbol .enum]
  | .deferred _ => []

/-- The labels an edge of the kind may end at. -/
def toCandidates : RefKind → List Label
  | .defines => definesTo
  | .hasMethod => [.symbol .method]
  | .hasField => [.symbol .field]
  | .hasVariant => [.symbol .variant]
  | .deferred _ => []

/-- The structural tables of the schema. -/
def isKnownTable : RefKind → Label → Label → Bool
  | .defines, fromLabel, toLabel => isKnownDefines fromLabel toLabel
  | .hasMethod, .symbol .struct, .symbol .method => true
  | .hasMethod, .symbol .enum, .symbol .method => true
  | .hasMethod, .symbol .trait, .symbol .method => true
  | .hasField, .symbol .struct, .symbol .field => true
  | .hasField, .symbol .enum, .symbol .field => true
  | .hasVariant, .symbol .enum, .symbol .variant => true
  | _, _, _ => false

/-- A node of the files has the key. -/
def Recorded (fs : FileSet) (k : Key) : Prop := ∃ f ∈ fs.files, k ∈ f.labels

structure Determined (P : Key → Prop) (id : Text) (candidates : List Label) (label : Label) :
    Prop where
  candidate : label ∈ candidates
  recorded : P (label, id)
  unique : ∀ other ∈ candidates, P (other, id) → other = label

/-- Both labels can be determined and their table is in the schema. -/
def Routable (P : Key → Prop) (rel : Text) (r : ExtractedRef) : Prop :=
  ∃ fromLabel toLabel, Determined P (r.origin.id rel) (fromCandidates r.kind) fromLabel ∧
    Determined P (r.target.id rel) (toCandidates r.kind) toLabel ∧
    isKnownTable r.kind fromLabel toLabel

def EndsRecorded (P : Key → Prop) (rel : Text) (r : ExtractedRef) : Prop :=
  match r.kind with
  | .hasMethod =>
      (∃ label, Determined P (r.origin.id rel) (fromCandidates r.kind) label) →
        P (.symbol .method, r.target.id rel)
  | .hasField =>
      (∃ label, Determined P (r.origin.id rel) (fromCandidates r.kind) label) →
        P (.symbol .field, r.target.id rel)
  | .hasVariant =>
      P (.symbol .enum, r.origin.id rel) ∧ P (.symbol .variant, r.target.id rel)
  | .defines | .deferred _ => True

/-- The same file with its declarations in another order. -/
structure SameFile (f g : ParsedFile) : Prop where
  rel : g.rel = f.rel
  language : g.language = f.language
  restrict : g.restrictToPublicApi = f.restrictToPublicApi
  nodes : g.nodes.Perm f.nodes
  refs : g.refs = f.refs

/-- The files in some order, and the declarations of each in some order. -/
def Reordered (files files' : List ParsedFile) : Prop :=
  ∃ gs, List.Forall₂ SameFile files gs ∧ gs.Perm files'

/-- Routing that is free of order and loses and makes up nothing. -/
structure RoutesRight (fs : FileSet) : Prop where
  orderFree : ∀ fs' : FileSet, Reordered fs.files fs'.files → stagedEdges fs' = stagedEdges fs
  dropped : ∀ x ∈ route fs.files unstarted,
    x.edge = none ↔ ¬Routable (Recorded fs) x.file.rel x.ref
  joins : ∀ e ∈ stagedEdges fs, Recorded fs e.src ∧ Recorded fs e.dst

/-! ## One lookup -/

variable {id : Text} {label : Label}

theorem lookupLabelAmong_eq_some {labels : Finset Key} {candidates : List Label}
    (hnodup : candidates.Nodup) : lookupLabelAmong labels id candidates = some label ↔
      Determined (· ∈ labels) id candidates label := by
  have hmem : ∀ l, l ∈ candidates.filter (fun label => (label, id) ∈ labels) ↔
      l ∈ candidates ∧ (l, id) ∈ labels := fun l => by simp
  rw [lookupLabelAmong]
  constructor
  · intro h
    split at h
    next found hfound =>
      cases h
      rw [hfound] at hmem
      obtain ⟨hc, hl⟩ := (hmem label).mp (mem_singleton_self label)
      exact ⟨hc, hl, fun other ho hol => mem_singleton.mp ((hmem other).mpr ⟨ho, hol⟩)⟩
    next => cases h
  · rintro ⟨hc, hl, hunique⟩
    have hfilter : candidates.filter (fun label => (label, id) ∈ labels) = [label] := by
      refine perm_singleton.mp ?_
      rw [perm_ext_iff_of_nodup (hnodup.filter _) (nodup_singleton label)]
      intro l
      rw [hmem, mem_singleton]
      exact ⟨fun h => hunique l h.1 h.2, fun h => h ▸ ⟨hc, hl⟩⟩
    rw [hfilter]

theorem fromCandidates_nodup (kind : RefKind) : (fromCandidates kind).Nodup := by
  cases kind <;> simp [fromCandidates, definesFrom]

theorem toCandidates_nodup (kind : RefKind) : (toCandidates kind).Nodup := by
  cases kind with
  | defines => exact List.Nodup.map (fun _ _ h => Label.symbol.inj h) (by decide)
  | hasMethod | hasField | hasVariant => exact nodup_singleton _
  | deferred => exact nodup_nil

variable {P Q : Key → Prop}

theorem Determined.congr {candidates : List Label}
    (h : ∀ label ∈ candidates, (P (label, id) ↔ Q (label, id))) :
    Determined P id candidates label ↔ Determined Q id candidates label := by
  constructor
  · rintro ⟨hc, hl, hunique⟩
    exact ⟨hc, (h _ hc).mp hl, fun o ho hq => hunique o ho ((h o ho).mpr hq)⟩
  · rintro ⟨hc, hl, hunique⟩
    exact ⟨hc, (h _ hc).mpr hl, fun o ho hq => hunique o ho ((h o ho).mp hq)⟩

theorem determined_singleton {only : Label} :
    Determined P id [only] label ↔ label = only ∧ P (only, id) := by
  constructor
  · rintro ⟨hc, hl, -⟩
    obtain rfl := mem_singleton.mp hc
    exact ⟨rfl, hl⟩
  · rintro ⟨rfl, hl⟩
    exact ⟨mem_singleton_self label, hl, fun o ho _ => mem_singleton.mp ho⟩

/-! ## One reference -/

section Reference

/-- The reference is dropped exactly when it has to be, and what is staged for it
joins recorded nodes. -/
def RightEdge (P : Key → Prop) (rel : Text) (r : ExtractedRef) (edge : Option Edge) : Prop :=
  (edge = none ↔ ¬Routable P rel r) ∧ ∀ e, edge = some e → P e.src ∧ P e.dst

variable {f : ParsedFile}

theorem rightEdge_defines (origin target : Endpoint) :
    RightEdge (· ∈ f.labels) f.rel ⟨.defines, origin, target⟩
      (f.edgeOf ⟨.defines, origin, target⟩) := by
  have hfrom : ∀ l, lookupLabelAmong f.labels (origin.id f.rel) definesFrom = some l ↔
      Determined (· ∈ f.labels) (origin.id f.rel) definesFrom l :=
    fun l => lookupLabelAmong_eq_some (fromCandidates_nodup .defines)
  have hto : ∀ l, lookupLabelAmong f.labels (target.id f.rel) definesTo = some l ↔
      Determined (· ∈ f.labels) (target.id f.rel) definesTo l :=
    fun l => lookupLabelAmong_eq_some (toCandidates_nodup .defines)
  have hsome : ∀ e, f.edgeOf ⟨.defines, origin, target⟩ = some e ↔
      ∃ l m, Determined (· ∈ f.labels) (origin.id f.rel) definesFrom l ∧
        Determined (· ∈ f.labels) (target.id f.rel) definesTo m ∧ isKnownDefines l m ∧
        e = ⟨.defines, (l, origin.id f.rel), (m, target.id f.rel), directAst⟩ := by
    intro e
    simp only [ParsedFile.edgeOf, refEdge, resolveEdgeTable, Option.bind_eq_bind,
      Option.map_eq_some_iff, Option.bind_eq_some_iff, hfrom, hto, Option.ite_none_right_eq_some,
      Option.some.injEq]
    constructor
    · rintro ⟨_, ⟨l, hl, m, hm, hknown, rfl⟩, rfl⟩
      exact ⟨l, m, hl, hm, hknown, rfl⟩
    · rintro ⟨l, m, hl, hm, hknown, rfl⟩
      exact ⟨_, ⟨l, hl, m, hm, hknown, rfl⟩, rfl⟩
  constructor
  · rw [Option.eq_none_iff_forall_ne_some, ← not_exists_not]
    refine not_congr ?_
    simp only [ne_eq, not_not, hsome]
    constructor
    · rintro ⟨_, l, m, hl, hm, hknown, rfl⟩
      exact ⟨l, m, hl, hm, hknown⟩
    · rintro ⟨l, m, hl, hm, hknown⟩
      exact ⟨_, l, m, hl, hm, hknown, rfl⟩
  · intro e he
    obtain ⟨l, m, hl, hm, -, rfl⟩ := (hsome e).mp he
    exact ⟨hl.recorded, hm.recorded⟩

theorem rightEdge_member {kind : RefKind} {origin target : Endpoint} (edgeKind : EdgeKind)
    {member : Label} (hto : toCandidates kind = [member])
    (hknown : ∀ l ∈ fromCandidates kind, isKnownTable kind l member)
    (hedge : f.edgeOf ⟨kind, origin, target⟩ =
      (lookupLabelAmong f.labels (origin.id f.rel) (fromCandidates kind)).map fun l =>
        ⟨edgeKind, (l, origin.id f.rel), (member, target.id f.rel), directAst⟩) :
    RightEdge (· ∈ f.labels) f.rel ⟨kind, origin, target⟩ (f.edgeOf ⟨kind, origin, target⟩) ↔
      ((∃ l, Determined (· ∈ f.labels) (origin.id f.rel) (fromCandidates kind) l) →
        (member, target.id f.rel) ∈ f.labels) := by
  have hlook : ∀ l, lookupLabelAmong f.labels (origin.id f.rel) (fromCandidates kind) = some l ↔
      Determined (· ∈ f.labels) (origin.id f.rel) (fromCandidates kind) l :=
    fun l => lookupLabelAmong_eq_some (fromCandidates_nodup kind)
  have hroutable : Routable (· ∈ f.labels) f.rel ⟨kind, origin, target⟩ ↔
      (∃ l, Determined (· ∈ f.labels) (origin.id f.rel) (fromCandidates kind) l) ∧
        (member, target.id f.rel) ∈ f.labels := by
    simp only [Routable, hto, determined_singleton]
    constructor
    · rintro ⟨l, m, hl, ⟨rfl, hm⟩, -⟩
      exact ⟨⟨l, hl⟩, hm⟩
    · rintro ⟨⟨l, hl⟩, hm⟩
      exact ⟨l, member, hl, ⟨rfl, hm⟩, hknown l hl.candidate⟩
  have hnone : f.edgeOf ⟨kind, origin, target⟩ = none ↔
      ¬∃ l, Determined (· ∈ f.labels) (origin.id f.rel) (fromCandidates kind) l := by
    rw [hedge, Option.map_eq_none_iff, Option.eq_none_iff_forall_ne_some, not_exists]
    exact forall_congr' fun l => not_congr (hlook l)
  rw [RightEdge, hnone, hroutable]
  constructor
  · rintro ⟨hdropped, -⟩ hl
    exact (not_not.mp (hdropped.not.mp (not_not.mpr hl))).2
  · refine fun hmember => ⟨?_, fun e he => ?_⟩
    · exact not_congr ⟨fun hl => ⟨hl, hmember hl⟩, And.left⟩
    · rw [hedge] at he
      obtain ⟨l, hl, rfl⟩ := Option.map_eq_some_iff.mp he
      exact ⟨((hlook l).mp hl).recorded, hmember ⟨l, (hlook l).mp hl⟩⟩

theorem rightEdge_variant (origin target : Endpoint) :
    RightEdge (· ∈ f.labels) f.rel ⟨.hasVariant, origin, target⟩
        (f.edgeOf ⟨.hasVariant, origin, target⟩) ↔
      (.symbol .enum, origin.id f.rel) ∈ f.labels ∧
        (.symbol .variant, target.id f.rel) ∈ f.labels := by
  have hedge : f.edgeOf ⟨.hasVariant, origin, target⟩ = some ⟨.hasVariant,
      (.symbol .enum, origin.id f.rel), (.symbol .variant, target.id f.rel), directAst⟩ := rfl
  have hroutable : Routable (· ∈ f.labels) f.rel ⟨.hasVariant, origin, target⟩ ↔
      (.symbol .enum, origin.id f.rel) ∈ f.labels ∧
        (.symbol .variant, target.id f.rel) ∈ f.labels := by
    simp only [Routable, fromCandidates, toCandidates, determined_singleton]
    constructor
    · rintro ⟨l, m, ⟨rfl, hl⟩, ⟨rfl, hm⟩, -⟩
      exact ⟨hl, hm⟩
    · rintro ⟨hl, hm⟩
      exact ⟨_, _, ⟨rfl, hl⟩, ⟨rfl, hm⟩, rfl⟩
  rw [RightEdge, hedge, hroutable]
  constructor
  · rintro ⟨-, hjoins⟩
    exact hjoins _ rfl
  · intro hends
    refine ⟨iff_of_false nofun (not_not.mpr hends), ?_⟩
    rintro e ⟨⟩
    exact hends

theorem rightEdge_deferred (text : Text) (origin target : Endpoint) :
    RightEdge (· ∈ f.labels) f.rel ⟨.deferred text, origin, target⟩
      (f.edgeOf ⟨.deferred text, origin, target⟩) := by
  have hedge : f.edgeOf ⟨.deferred text, origin, target⟩ = none := rfl
  rw [RightEdge, hedge]
  refine ⟨iff_of_true rfl ?_, fun _ he => nomatch he⟩
  rintro ⟨l, m, hl, -⟩
  exact absurd hl.candidate not_mem_nil

/-- A reference is routed as it should be just when the ends its kind takes for
granted are recorded. -/
theorem rightEdge_iff (r : ExtractedRef) :
    RightEdge (· ∈ f.labels) f.rel r (f.edgeOf r) ↔ EndsRecorded (· ∈ f.labels) f.rel r := by
  obtain ⟨kind, origin, target⟩ := r
  cases kind with
  | defines => exact iff_of_true (rightEdge_defines origin target) trivial
  | hasMethod =>
      refine rightEdge_member .hasMethod rfl (by decide) ?_
      simp only [ParsedFile.edgeOf, refEdge, resolveEdgeTable, fromCandidates]
      cases lookupLabelAmong _ _ _ <;> rfl
  | hasField =>
      refine rightEdge_member .hasField rfl (by decide) ?_
      simp only [ParsedFile.edgeOf, refEdge, resolveEdgeTable, fromCandidates]
      cases lookupLabelAmong _ _ _ <;> rfl
  | hasVariant => exact rightEdge_variant origin target
  | deferred text => exact iff_of_true (rightEdge_deferred text origin target) trivial

end Reference

/-! ## A set of files -/

theorem candidates_ne_directory (kind : RefKind) :
    (∀ l ∈ fromCandidates kind, l ≠ .directory) ∧ ∀ l ∈ toCandidates kind, l ≠ .directory := by
  cases kind with
  | defines | hasMethod | hasField | hasVariant => decide
  | deferred => exact ⟨nofun, nofun⟩

theorem routable_congr {rel : Text} (h : ∀ k, Near rel k → (P k ↔ Q k))
    (r : ExtractedRef) : Routable P rel r ↔ Routable Q rel r := by
  obtain ⟨hfrom, hto⟩ := candidates_ne_directory r.kind
  refine exists_congr fun l => exists_congr fun m => and_congr ?_ (and_congr_left' ?_)
  · exact Determined.congr fun l hl => h _ (r.origin.near rel (hfrom l hl))
  · exact Determined.congr fun l hl => h _ (r.target.near rel (hto l hl))

theorem endsRecorded_congr {rel : Text} (h : ∀ k, Near rel k → (P k ↔ Q k))
    (r : ExtractedRef) : EndsRecorded P rel r ↔ EndsRecorded Q rel r := by
  obtain ⟨kind, origin, target⟩ := r
  have hfrom : ∀ label, Determined P (origin.id rel) (fromCandidates kind) label ↔
      Determined Q (origin.id rel) (fromCandidates kind) label := fun label =>
    Determined.congr fun l hl => h _ (origin.near rel ((candidates_ne_directory kind).1 l hl))
  cases kind with
  | hasMethod | hasField =>
      exact imp_congr (exists_congr hfrom) (h _ (target.near rel nofun))
  | hasVariant => exact and_congr (h _ (origin.near rel nofun)) (h _ (target.near rel nofun))
  | defines | deferred => exact Iff.rfl

theorem rightEdge_recorded (fs : FileSet) {f : ParsedFile} (hf : f ∈ fs.files) (r : ExtractedRef) :
    RightEdge (Recorded fs) f.rel r (f.edgeOf r) ↔ EndsRecorded (Recorded fs) f.rel r := by
  have hnear : ∀ k, Near f.rel k → (Recorded fs k ↔ k ∈ f.labels) := fun k hk =>
    recorded_iff fs.distinct hf hk
  rw [endsRecorded_congr hnear, ← rightEdge_iff, RightEdge, RightEdge, routable_congr hnear]
  refine and_congr_right' (forall₂_congr fun e he => ?_)
  obtain ⟨hsrc, hdst, -⟩ := refEdge_ends he
  rw [hnear _ hsrc, hnear _ hdst]

/-! ## The order of the nodes -/

/-- Only a variant depends on what is filtered before it. -/
theorem mem_keepUnderPublicApi {language : Text} {nodes : List ExtractedNode}
    {dropped : Finset Text} {node : ExtractedNode} (hnode : node.label ≠ .variant) :
    node ∈ keepUnderPublicApi language nodes dropped ↔
      node ∈ nodes ∧ (!declaresVisibility node.label || isPublicSymbol language node.visibility) := by
  induction nodes generalizing dropped with
  | nil => simp [keepUnderPublicApi]
  | cons head nodes ih =>
      rw [keepUnderPublicApi, mem_cons, or_and_right]
      split
      next hvariant =>
        have hne : node ≠ head := fun h => hnode (h ▸ hvariant)
        split <;> simp [ih, hne]
      next hvariant =>
        split
        next hkept =>
          rw [mem_cons, ih]
          refine or_congr_left' fun _ => ?_
          exact ⟨fun h => ⟨h, h ▸ hkept⟩, And.left⟩
        next hlost =>
          have hne : ¬(node = head ∧
              (!declaresVisibility node.label || isPublicSymbol language node.visibility)) :=
            fun h => hlost (h.1 ▸ h.2)
          split <;> rw [ih, or_iff_right hne]

theorem SameFile.labels {f g : ParsedFile} (h : SameFile f g)
    (hk : k.1 ≠ .symbol .variant) : k ∈ g.labels ↔ k ∈ f.labels := by
  have hkept : ∀ node : ExtractedNode, node.label ≠ .variant → (node ∈ g.kept ↔ node ∈ f.kept) := by
    intro node hnode
    rw [ParsedFile.kept, ParsedFile.kept, h.restrict, h.language]
    split
    · rw [mem_keepUnderPublicApi hnode, mem_keepUnderPublicApi hnode, h.nodes.mem_iff]
    · exact h.nodes.mem_iff
  rw [ParsedFile.labels, ParsedFile.labels, ownLabels, ownLabels, Finset.mem_insert,
    Finset.mem_insert, mem_keysOf, mem_keysOf, h.rel]
  refine or_congr_right (exists_congr fun node => and_congr_left ?_)
  rintro rfl
  exact hkept node fun hv => hk (congrArg Label.symbol hv)

theorem SameFile.edgeOf {f g : ParsedFile} (h : SameFile f g) (r : ExtractedRef) :
    g.edgeOf r = f.edgeOf r := by
  have hlook : ∀ (id : Text) (candidates : List Label), .symbol .variant ∉ candidates →
      lookupLabelAmong g.labels id candidates = lookupLabelAmong f.labels id candidates :=
    fun id candidates hc => lookupLabelAmong_congr fun label hl =>
      h.labels fun hv => hc (hv ▸ hl)
  rw [ParsedFile.edgeOf, ParsedFile.edgeOf, refEdge, refEdge, h.rel]
  congr 1
  cases r.kind with
  | defines =>
      rw [resolveEdgeTable, resolveEdgeTable, hlook _ definesFrom (by decide),
        hlook _ definesTo (by decide)]
  | hasMethod | hasField => rw [resolveEdgeTable, resolveEdgeTable, hlook _ _ (by decide)]
  | hasVariant | deferred => rfl

theorem edges_of_same {gs : List ParsedFile} (h : List.Forall₂ SameFile files gs) :
    (gs.flatMap fun f => f.refs.filterMap f.edgeOf) =
      files.flatMap fun f => f.refs.filterMap f.edgeOf := by
  induction h with
  | nil => rfl
  | cons hhead _ ih =>
      rw [flatMap_cons, flatMap_cons, ih, hhead.refs]
      congr 1
      exact filterMap_congr fun r _ => hhead.edgeOf r

theorem orderFree {fs fs' : FileSet} (h : Reordered fs.files fs'.files) :
    stagedEdges fs' = stagedEdges fs := by
  obtain ⟨gs, hsame, hperm⟩ := h
  rw [stagedEdges_eq, stagedEdges_eq, ← edges_of_same hsame, Multiset.coe_eq_coe]
  exact (hperm.flatMap_right _).symm

/-- The edges staged never depend on the order of the nodes. A reference is
dropped just when it should be, and every edge joins recorded nodes, when the ends
that the kinds other than `Defines` take for granted are recorded. -/
theorem routing_exact (fs : FileSet) :
    RoutesRight fs ↔ ∀ f ∈ fs.files, ∀ r ∈ f.refs, EndsRecorded (Recorded fs) f.rel r := by
  have hroutes : RoutesRight fs ↔
      ∀ f ∈ fs.files, ∀ r ∈ f.refs, RightEdge (Recorded fs) f.rel r (f.edgeOf r) := by
    constructor
    · intro h f hf r hr
      refine ⟨h.dropped ⟨f, r, f.edgeOf r⟩ ?_, fun e he => h.joins e ?_⟩
      · rw [route_eq, mem_flatMap]
        exact ⟨f, hf, mem_map_of_mem hr⟩
      · rw [stagedEdges_eq, Multiset.mem_coe, mem_flatMap]
        exact ⟨f, hf, mem_filterMap.mpr ⟨r, hr, he⟩⟩
    · refine fun h => ⟨fun fs' hfs' => orderFree hfs', fun x hx => ?_, fun e he => ?_⟩
      · rw [route_eq, mem_flatMap] at hx
        obtain ⟨f, hf, hx⟩ := hx
        obtain ⟨r, hr, rfl⟩ := mem_map.mp hx
        exact (h f hf r hr).1
      · rw [stagedEdges_eq, Multiset.mem_coe, mem_flatMap] at he
        obtain ⟨f, hf, he⟩ := he
        obtain ⟨r, hr, he⟩ := mem_filterMap.mp he
        exact (h f hf r hr).2 e he
  rw [hroutes]
  exact forall₂_congr fun f hf => forall₂_congr fun r _ => rightEdge_recorded fs hf r

/-- A dependency whose public struct has a private field. -/
def secretField : FileSet where
  files := [{
    rel := "vendor/dep.rs".toList
    language := "rust".toList
    restrictToPublicApi := true
    nodes := [⟨.struct, "Key".toList, "Key".toList, 1, 1, "pub".toList, []⟩,
      ⟨.field, "secret".toList, "Key::secret".toList, 1, 1, [], []⟩]
    refs := [⟨.defines, .file, .symbol "Key".toList⟩,
      ⟨.hasField, .symbol "Key".toList, .symbol "Key::secret".toList⟩]
    plain := by decide }]
  distinct := nodup_singleton _

/-- The field is not recorded and the edge to it is staged. -/
theorem edge_to_dropped_field : ¬RoutesRight secretField := by
  intro h
  have hstaged : (⟨.hasField, (.symbol .struct, "vendor/dep.rs::Key".toList),
      (.symbol .field, "vendor/dep.rs::Key::secret".toList), directAst⟩ : Edge) ∈
        stagedEdges secretField := by
    rw [stagedEdges_eq]
    decide +kernel
  obtain ⟨-, f, hf, hk⟩ := h.joins _ hstaged
  obtain rfl := mem_singleton.mp hf
  revert hk
  decide +kernel

end EdgeRouting

end CodeGraph
