import CodeGraph.Text
import Mathlib.Data.List.Infix

/-!
# Import of a committed artifact

`artifact::import_artifact` unpacks a stored archive of a graph, and of the files that belong
to it, into an output directory. Unpacking is a sequence of writes that may stop anywhere; the
end of the input at the boundary of an entry is the end of the archive.
-/

namespace CodeGraph

namespace ArtifactImport

def graphName : Text := "graph".toList

def artifactManifestEntry : Text := "file_manifest.json".toList

def artifactCoverageEntry : Text := "index_coverage.json".toList

def sidecarNames : List Text := [artifactManifestEntry, artifactCoverageEntry]

def schemaVersion : ℕ := 1

def maxDecompressedBytes : ℕ := 64 * 1024 * 1024 * 1024

def blockSize : ℕ := 512

structure ArtifactMeta where
  schemaVersion : ℕ
  toolVersion : Text
  commit : Text
  nodeCount : ℕ
  edgeCount : ℕ
  originalBytes : ℕ
  compressedBytes : ℕ
  compressionLevel : ℤ
  deriving DecidableEq

/-! ## The output directory -/

abbrev Bytes := List UInt8

/-- What lies at a path. `imported` marks a file that an import has written. -/
inductive Node where
  | dir
  | file (content : Bytes) (imported : Bool)
  deriving DecidableEq

/-- Paths below the output directory, by their components. -/
abbrev Disk := List Text → Option Node

namespace Disk

def hasFile (d : Disk) (path : List Text) : Bool :=
  match d path with
  | some (.file _ _) => true
  | _ => false

/-- `remove_dir_all`, which fails on a file and on nothing. -/
def removeDirAll (d : Disk) (name : Text) : Disk :=
  match d [name] with
  | some .dir => fun p => if p.head? = some name then none else d p
  | _ => d

end Disk

/-- An output directory in which there is no graph yet, and nothing from an import. -/
structure OutputDir where
  disk : Disk
  noGraph : disk [graphName] = none
  notImported : ∀ path content, disk path ≠ some (.file content true)

/-! ## Archives -/

/-- An entry of an archive: a file, or a directory without a body. -/
structure Entry where
  path : List Text
  body : Option Bytes
  header : ℕ := blockSize
  header_pos : 0 < header := by decide

namespace Entry

def content (e : Entry) : Bytes := e.body.getD []

def padding (e : Entry) : ℕ := (blockSize - e.content.length % blockSize) % blockSize

/-- The bytes of the entry in the archive. -/
def size (e : Entry) : ℕ := e.header + e.content.length + e.padding

/-- The entry is the file of that name beside the graph, or the graph as a single file. -/
def IsFileAt (e : Entry) (name : Text) : Prop := e.path = [name] ∧ e.body.isSome

def IsUnder (e : Entry) (name : Text) : Prop := e.path.head? = some name

end Entry

/-- A graph on disk: a single file, or a directory with what is in it. -/
inductive Stored where
  | file (content : Bytes)
  | dir (children : List (Text × Stored))

mutual

/-- The entries of `append_dir_all` and `append_path_with_name`. -/
def archived (path : List Text) : Stored → List Entry
  | .file content => [{ path, body := some content }]
  | .dir children => { path, body := none } :: archivedAll path children

def archivedAll (path : List Text) : List (Text × Stored) → List Entry
  | [] => []
  | (name, node) :: children => archived (path ++ [name]) node ++ archivedAll path children

end

/-- The graph under its own name, then the sidecars that exist. -/
def writeArchive (graph : Stored) (manifest coverage : Option Bytes) : List Entry :=
  archived [graphName] graph ++
    ([(manifest, artifactManifestEntry), (coverage, artifactCoverageEntry)].filterMap
      fun (content, name) => content.map fun content => { path := [name], body := some content })

/-- Why unpacking fails. -/
inductive Fault where
  | endedEarly
  | decoder
  | refused

/-- An archive as an import reads it: the decoder gives so many bytes, and then the end or an
error. The write of an entry may be refused, at once or after some bytes. -/
structure Source where
  entries : List Entry
  delivered : ℕ
  broken : Bool
  refusal : ℕ → Option (Option ℕ)

/-! ## Unpacking -/

namespace Disk

/-- A file stands where a directory is needed, or the other way round. -/
def conflict (d : Disk) (e : Entry) : Bool :=
  (e.path.inits.any fun p => p ≠ e.path && d.hasFile p) ||
    match e.body, d e.path with
    | some _, some .dir => true
    | none, some (.file _ _) => true
    | _, _ => false

/-- The entry is written, with the directories that lead to it. -/
def place (d : Disk) (e : Entry) (content : Bytes) : Disk := fun p =>
  if p = e.path then some (if e.body.isSome then .file content true else .dir)
  else if d p = none ∧ p ≠ [] ∧ p <+: e.path then some .dir
  else d p

end Disk

/-- What unpacking leaves, and which entries it has written in full and in part. -/
structure Unpacked where
  disk : Disk
  whole : List Entry
  part : Option Entry
  error : Option Fault

namespace Unpacked

def written (u : Unpacked) : List Entry := u.whole ++ u.part.toList

def stopped (d : Disk) (error : Option Fault) : Unpacked := ⟨d, [], none, error⟩

def after (u : Unpacked) (e : Entry) : Unpacked := { u with whole := e :: u.whole }

end Unpacked

def cutShort (breaks : Bool) : Fault := if breaks then .decoder else .endedEarly

/-- The end of the input, at the boundary of an entry. -/
def atBoundary (breaks : Bool) : Option Fault := if breaks then some .decoder else none

def unpack (refusal : ℕ → Option (Option ℕ)) (breaks : Bool) :
    ℕ → List Entry → ℕ → Disk → Unpacked
  | _, [], left, d =>
      if left = 0 then .stopped d (atBoundary breaks)
      else if left < blockSize then .stopped d (some (cutShort breaks))
      else .stopped d none
  | i, e :: entries, left, d =>
      if left = 0 then .stopped d (atBoundary breaks)
      else if left < e.header then .stopped d (some (cutShort breaks))
      else if d.conflict e then .stopped d (some .refused)
      else match refusal i with
        | some none => .stopped d (some .refused)
        | some (some k) =>
            ⟨d.place e (e.content.take (min k (left - e.header))), [], some e, some .refused⟩
        | none =>
            if left < e.header + e.content.length then
              ⟨d.place e (e.content.take (left - e.header)), [], some e, some (cutShort breaks)⟩
            else if left < e.size then
              ⟨d.place e e.content, [e], none, some (cutShort breaks)⟩
            else
              (unpack refusal breaks (i + 1) entries (left - e.size) (d.place e e.content)).after e

/-- No more than the cap of the decoded bytes is read; the cap reads as the end of the input. -/
def Source.unpacked (source : Source) (d : Disk) : Unpacked :=
  unpack source.refusal (source.broken && decide (source.delivered < maxDecompressedBytes)) 0
    source.entries (min source.delivered maxDecompressedBytes) d

/-! ## The import -/

/-- What the steps before the unpacking give, and how their paths and errors are shown. -/
structure Attempt where
  readMeta : Except Text ArtifactMeta
  hasParent : Bool
  created : Except Text Unit
  opened : Except Text Unit
  decoder : Except Text Unit
  released : Except Text Unit
  source : Source
  destParent : Text
  artifactFile : Text
  graphPath : Text
  showFault : Fault → Text

def prefixed (pre : Text) : Except Text Unit → Except Text Unit :=
  Except.mapError (pre ++ ·)

def schemaTooNew (version : ℕ) : Text :=
  "artifact import: sidecar schema ".toList ++ Nat.toDigits 10 version ++
    " is newer than supported ".toList ++ Nat.toDigits 10 schemaVersion ++ " — refusing".toList

/-- Everything up to the unpacking. -/
def prepare (a : Attempt) : Except Text ArtifactMeta := do
  let committed ← a.readMeta
  if schemaVersion < committed.schemaVersion then throw (schemaTooNew committed.schemaVersion)
  if !a.hasParent then throw "artifact import: graph path has no parent".toList
  prefixed ("artifact import: create ".toList ++ a.destParent ++ ": ".toList) a.created
  prefixed ("artifact import: open ".toList ++ a.artifactFile ++ ": ".toList) a.opened
  prefixed "artifact import: zstd init: ".toList a.decoder
  a.released
  return committed

def noGraph (a : Attempt) : Text :=
  "artifact import: archive did not produce expected graph at ".toList ++ a.graphPath

def importArtifact (a : Attempt) (d : Disk) : Except Text ArtifactMeta × Disk :=
  match prepare a with
  | .error e => (.error e, d)
  | .ok committed =>
      let u := a.source.unpacked d
      match u.error with
      | some fault =>
          (.error ("artifact import: unpack: ".toList ++ a.showFault fault),
            u.disk.removeDirAll graphName)
      | none =>
          if (u.disk [graphName]).isNone then (.error (noGraph a), u.disk) else (.ok committed, u.disk)

/-! ## What one write changes -/

def Imported (node : Option Node) : Prop := ∃ content, node = some (.file content true)

namespace Disk

variable {d : Disk} {e : Entry} {name : Text}

theorem not_hasFile_of_not_conflict (h : d.conflict e = false) {p : List Text} (hp : p <+: e.path)
    (hne : p ≠ e.path) : d.hasFile p = false := by
  rw [conflict, Bool.or_eq_false_iff, List.any_eq_false] at h
  have := h.1 p ((List.mem_inits _ _).mpr hp)
  simpa [hne] using this

theorem eq_dir_of_not_conflict (h : d.conflict e = false) (hdir : e.body = none)
    {node : Node} (hnode : d e.path = some node) : node = .dir := by
  rw [conflict, Bool.or_eq_false_iff, hdir, hnode] at h
  cases node with
  | dir => rfl
  | file content imported => exact absurd h.2 (by simp)

/-- After a write the file beside the graph is one of the import if it was, or if the write was
of that file. -/
theorem imported_place (h : d.conflict e = false) (content : Bytes) :
    Imported (d.place e content [name]) ↔ Imported (d [name]) ∨ e.IsFileAt name := by
  by_cases hpath : [name] = e.path
  · have hplace : d.place e content [name] =
        some (if e.body.isSome then .file content true else .dir) := if_pos hpath
    rw [hplace]
    cases hbody : e.body with
    | some body =>
        refine iff_of_true ⟨content, rfl⟩ (.inr ⟨hpath.symm, ?_⟩)
        rw [hbody]
        rfl
    | none =>
        refine iff_of_false (fun ⟨_, hc⟩ => nomatch hc) ?_
        rintro (⟨c, hc⟩ | ⟨-, hfile⟩)
        · rw [hpath] at hc
          exact nomatch eq_dir_of_not_conflict h hbody hc
        · rw [hbody] at hfile
          exact nomatch hfile
  · have hnot : ¬ e.IsFileAt name := fun hfile => hpath hfile.1.symm
    rw [or_iff_left hnot, place, if_neg hpath]
    split
    · rename_i hnew
      refine iff_of_false (fun ⟨_, hc⟩ => nomatch hc) ?_
      rintro ⟨c, hc⟩
      rw [hnew.1] at hc
      nomatch hc
    · exact Iff.rfl

/-- A write leaves no other file beside the graph than there was. -/
theorem eq_of_place_not_imported {content c : Bytes}
    (hfile : d.place e content [name] = some (.file c false)) :
    d [name] = some (.file c false) := by
  rw [place] at hfile
  split at hfile
  · split at hfile
    · nomatch hfile
    · nomatch hfile
  · split at hfile
    · nomatch hfile
    · exact hfile

theorem isSome_place (content : Bytes) :
    (d.place e content [name]).isSome ↔ (d [name]).isSome ∨ e.IsUnder name := by
  by_cases hpath : [name] = e.path
  · refine iff_of_true ?_ (.inr ?_)
    · rw [place, if_pos hpath]
      rfl
    · rw [Entry.IsUnder, ← hpath]
      rfl
  · have hunder : [name] <+: e.path ↔ e.IsUnder name := by
      rw [Entry.IsUnder]
      cases e.path with
      | nil => simp
      | cons a path => simp [eq_comm]
    rw [place, if_neg hpath, ← hunder]
    cases hd : d [name] with
    | some node => simp
    | none => by_cases hpre : [name] <+: e.path <;> simp [hpre]

end Disk

/-! ## What unpacking leaves -/

/-- The files beside the graph are those that were there and those that were written. -/
structure Leaves (d : Disk) (u : Unpacked) : Prop where
  imported : ∀ name, Imported (u.disk [name]) ↔
    Imported (d [name]) ∨ ∃ e ∈ u.written, e.IsFileAt name
  other : ∀ name content, u.disk [name] = some (.file content false) →
    d [name] = some (.file content false)
  isSome : ∀ name, (u.disk [name]).isSome ↔ (d [name]).isSome ∨ ∃ e ∈ u.written, e.IsUnder name

namespace Leaves

variable {d : Disk} {e : Entry}

theorem stopped (d : Disk) (error : Option Fault) : Leaves d (.stopped d error) where
  imported name := by simp [Unpacked.stopped, Unpacked.written]
  other _ _ h := h
  isSome name := by simp [Unpacked.stopped, Unpacked.written]

/-- One write and then an error. -/
theorem placed (h : d.conflict e = false) (content : Bytes) {u : Unpacked}
    (hdisk : u.disk = d.place e content) (hwritten : u.written = [e]) : Leaves d u where
  imported name := by
    rw [hdisk, hwritten, d.imported_place h]
    simp
  other name c hfile := by
    rw [hdisk] at hfile
    exact Disk.eq_of_place_not_imported hfile
  isSome name := by
    rw [hdisk, hwritten, Disk.isSome_place]
    simp

theorem after (h : d.conflict e = false) {content : Bytes} {u : Unpacked}
    (hu : Leaves (d.place e content) u) : Leaves d (u.after e) where
  imported name := by
    have hwritten : (u.after e).written = e :: u.written := rfl
    rw [hwritten, List.exists_mem_cons_iff, ← or_assoc, ← d.imported_place h content]
    exact hu.imported name
  other name c hfile := Disk.eq_of_place_not_imported (hu.other name c hfile)
  isSome name := by
    have hwritten : (u.after e).written = e :: u.written := rfl
    rw [hwritten, List.exists_mem_cons_iff, ← or_assoc, ← Disk.isSome_place content]
    exact hu.isSome name

end Leaves

theorem leaves_unpack (refusal : ℕ → Option (Option ℕ)) (breaks : Bool) (i : ℕ)
    (entries : List Entry) (left : ℕ) (d : Disk) :
    Leaves d (unpack refusal breaks i entries left d) := by
  induction entries generalizing i left d with
  | nil =>
      rw [unpack]
      split_ifs <;> exact .stopped d _
  | cons e entries ih =>
      rw [unpack]
      split
      · exact .stopped d _
      split
      · exact .stopped d _
      split
      · exact .stopped d _
      rename_i hconflict
      have hfree : d.conflict e = false := Bool.eq_false_iff.mpr hconflict
      split
      · exact .stopped d _
      · exact .placed hfree _ rfl rfl
      split
      · exact .placed hfree _ rfl rfl
      split
      · exact .placed hfree _ rfl rfl
      · exact .after hfree (ih _ _ _)

/-- All entries are written in full, one after the other. -/
def writeAll (entries : List Entry) (d : Disk) : Disk :=
  entries.foldl (fun d e => d.place e e.content) d

theorem disk_of_no_error (refusal : ℕ → Option (Option ℕ)) (breaks : Bool) (i : ℕ)
    (entries : List Entry) (left : ℕ) (d : Disk)
    (h : (unpack refusal breaks i entries left d).error = none) :
    (unpack refusal breaks i entries left d).disk =
      writeAll (unpack refusal breaks i entries left d).whole d ∧
    (unpack refusal breaks i entries left d).part = none := by
  induction entries generalizing i left d with
  | nil =>
      rw [unpack] at h ⊢
      split_ifs <;> exact ⟨rfl, rfl⟩
  | cons e entries ih =>
      rw [unpack] at h ⊢
      split
      · exact ⟨rfl, rfl⟩
      rename_i hboundary
      rw [if_neg hboundary] at h
      split
      · exact ⟨rfl, rfl⟩
      rename_i hheader
      rw [if_neg hheader] at h
      split
      · exact ⟨rfl, rfl⟩
      rename_i hconflict
      rw [if_neg hconflict] at h
      cases hrefusal : refusal i with
      | some k =>
          rw [hrefusal] at h
          cases k <;> nomatch h
      | none =>
          simp only [hrefusal] at h ⊢
          split
          · rename_i hcontent
            rw [if_pos hcontent] at h
            nomatch h
          rename_i hcontent
          rw [if_neg hcontent] at h
          split
          · rename_i hsize
            rw [if_pos hsize] at h
            nomatch h
          · rename_i hsize
            rw [if_neg hsize] at h
            exact ih _ _ _ h

/-! ## All or nothing -/

/-- A failed import leaves no graph and no sidecar of the archive; one that succeeds has
unpacked every entry of the archive in full. -/
def AllOrNothing (a : Attempt) (d : Disk) : Prop :=
  match importArtifact a d with
  | (.error _, d') => d' [graphName] = none ∧ ∀ name ∈ sidecarNames, ¬ Imported (d' [name])
  | (.ok _, d') => (a.source.unpacked d).whole = a.source.entries ∧ d' = writeAll a.source.entries d

def WritesNoFileAt (u : Unpacked) (name : Text) : Prop := ∀ e ∈ u.written, ¬ e.IsFileAt name

/-- Nothing is unpacked; or the whole archive is, with the graph; or no sidecar is, and a
graph only as a directory that an error then removes. -/
def Spared (a : Attempt) (d : Disk) : Prop :=
  (∃ e, prepare a = .error e) ∨
    ((a.source.unpacked d).error = none ∧ (a.source.unpacked d).whole = a.source.entries ∧
      ∃ e ∈ a.source.entries, e.IsUnder graphName) ∨
    ((∀ name ∈ sidecarNames, WritesNoFileAt (a.source.unpacked d) name) ∧
      WritesNoFileAt (a.source.unpacked d) graphName ∧
      ((a.source.unpacked d).error = none →
        ∀ e ∈ (a.source.unpacked d).written, ¬ e.IsUnder graphName))

variable (a : Attempt) (out : OutputDir)

theorem leaves_unpacked (d : Disk) : Leaves d (a.source.unpacked d) := leaves_unpack _ _ _ _ _ _

theorem imported_unpacked (name : Text) : ¬ Imported ((a.source.unpacked out.disk).disk [name]) ↔
    WritesNoFileAt (a.source.unpacked out.disk) name := by
  have hbefore : ¬ Imported (out.disk [name]) := fun ⟨c, hc⟩ => out.notImported [name] c hc
  rw [(leaves_unpacked a out.disk).imported, or_iff_right hbefore, not_exists]
  exact forall_congr' fun e => not_and

theorem noGraph_unpacked : (a.source.unpacked out.disk).disk [graphName] = none ↔
    ∀ e ∈ (a.source.unpacked out.disk).written, ¬ e.IsUnder graphName := by
  have h := (leaves_unpacked a out.disk).isSome graphName
  rw [out.noGraph] at h
  rw [← Option.not_isSome_iff_eq_none, h]
  simp

theorem removeDirAll_graph : (a.source.unpacked out.disk).disk.removeDirAll graphName
    [graphName] = none ↔ WritesNoFileAt (a.source.unpacked out.disk) graphName := by
  rw [← imported_unpacked, Disk.removeDirAll]
  cases hnode : (a.source.unpacked out.disk).disk [graphName] with
  | none =>
      refine iff_of_true hnode ?_
      rintro ⟨c, hc⟩
      nomatch hc
  | some node =>
      cases node with
      | dir =>
          refine iff_of_true (if_pos rfl) ?_
          rintro ⟨c, hc⟩
          nomatch hc
      | file content imported =>
          cases imported with
          | true => exact iff_of_false (by simp [hnode]) (not_not.mpr ⟨content, rfl⟩)
          | false =>
              have := (leaves_unpacked a out.disk).other graphName content hnode
              rw [out.noGraph] at this
              nomatch this

theorem removeDirAll_sidecar (d : Disk) {name : Text} (hname : name ∈ sidecarNames) :
    d.removeDirAll graphName [name] = d [name] := by
  have hne : name ≠ graphName := by
    rintro rfl
    exact absurd hname (by decide)
  rw [Disk.removeDirAll]
  cases d [graphName] with
  | none => rfl
  | some node =>
      cases node with
      | dir => exact if_neg fun h => hne (Option.some.inj h)
      | file content imported => rfl

theorem allOrNothing_of_no_error {committed : ArtifactMeta} (hprepare : prepare a = .ok committed)
    (herror : (a.source.unpacked out.disk).error = none) : AllOrNothing a out.disk ↔
      if (a.source.unpacked out.disk).disk [graphName] = none then
        ∀ name ∈ sidecarNames, WritesNoFileAt (a.source.unpacked out.disk) name
      else (a.source.unpacked out.disk).whole = a.source.entries := by
  rw [AllOrNothing, importArtifact, hprepare]
  simp only [herror, Option.isNone_iff_eq_none]
  by_cases hgraph : (a.source.unpacked out.disk).disk [graphName] = none
  · rw [if_pos hgraph, if_pos hgraph]
    simp only [hgraph, true_and, imported_unpacked]
  · rw [if_neg hgraph, if_neg hgraph]
    refine and_iff_left_of_imp fun hwhole => ?_
    have hdisk := (disk_of_no_error _ _ _ _ _ _ herror).1
    exact hdisk.trans (congrArg (writeAll · out.disk) hwhole)

theorem allOrNothing_of_error {committed : ArtifactMeta} (hprepare : prepare a = .ok committed)
    {fault : Fault} (herror : (a.source.unpacked out.disk).error = some fault) :
    AllOrNothing a out.disk ↔ WritesNoFileAt (a.source.unpacked out.disk) graphName ∧
      ∀ name ∈ sidecarNames, WritesNoFileAt (a.source.unpacked out.disk) name := by
  rw [AllOrNothing, importArtifact, hprepare]
  simp only [herror]
  rw [removeDirAll_graph]
  refine and_congr_right fun _ => forall₂_congr fun name hname => ?_
  rw [removeDirAll_sidecar _ hname, imported_unpacked]

/-- A refusal before the unpacking leaves the directory as it is. -/
theorem allOrNothing_of_refused {e : Text} (hprepare : prepare a = .error e) :
    AllOrNothing a out.disk := by
  rw [AllOrNothing, importArtifact, hprepare]
  exact ⟨out.noGraph, fun name _ ⟨c, hc⟩ => out.notImported [name] c hc⟩

theorem IsFileAt.isUnder {e : Entry} {name : Text} (h : e.IsFileAt name) : e.IsUnder name := by
  rw [Entry.IsUnder, h.1]
  rfl

/-- An import is all or nothing just where it unpacks nothing, or the whole archive with a
graph, or neither a sidecar nor a graph that stays. -/
theorem allOrNothing_iff_spared (a : Attempt) (out : OutputDir) :
    AllOrNothing a out.disk ↔ Spared a out.disk := by
  cases hprepare : prepare a with
  | error e => exact iff_of_true (allOrNothing_of_refused a out hprepare) (.inl ⟨e, hprepare⟩)
  | ok committed =>
      have hrefused : ¬ ∃ e, prepare a = .error e := by
        rintro ⟨e, he⟩
        rw [hprepare] at he
        nomatch he
      rw [Spared, or_iff_right hrefused]
      cases herror : (a.source.unpacked out.disk).error with
      | some fault =>
          rw [allOrNothing_of_error a out hprepare herror]
          constructor
          · rintro ⟨hgraph, hsidecars⟩
            exact .inr ⟨hsidecars, hgraph, fun h => nomatch h⟩
          · rintro (⟨h, -⟩ | ⟨hsidecars, hgraph, -⟩)
            · nomatch h
            · exact ⟨hgraph, hsidecars⟩
      | none =>
          rw [allOrNothing_of_no_error a out hprepare herror]
          have hpart := (disk_of_no_error _ _ _ _ _ _ herror).2
          have hwritten : (a.source.unpacked out.disk).written =
              (a.source.unpacked out.disk).whole := by
            rw [Unpacked.written, show (a.source.unpacked out.disk).part = none from hpart]
            exact List.append_nil _
          split
          · rename_i hgraph
            have hnone := (noGraph_unpacked a out).mp hgraph
            constructor
            · intro hsidecars
              exact .inr ⟨hsidecars, fun e he hfile => hnone e he (IsFileAt.isUnder hfile),
                fun _ => hnone⟩
            · rintro (⟨-, hwhole, e, he, hunder⟩ | ⟨hsidecars, -⟩)
              · rw [hwritten, hwhole] at hnone
                exact absurd hunder (hnone e he)
              · exact hsidecars
          · rename_i hgraph
            have hsome := (noGraph_unpacked a out).not.mp hgraph
            push Not at hsome
            constructor
            · intro hwhole
              obtain ⟨e, he, hunder⟩ := hsome
              rw [hwritten, hwhole] at he
              exact .inl ⟨rfl, hwhole, e, he, hunder⟩
            · rintro (⟨-, hwhole, -⟩ | ⟨-, -, hnone⟩)
              · exact hwhole
              · obtain ⟨e, he, hunder⟩ := hsome
                exact absurd hunder (hnone rfl e he)

/-! ## A graph stored as a single file -/

namespace Sample

/-- The export of a single file and its manifest, of which the decoder gives a part. -/
def attempt (delivered : ℕ) (broken : Bool) : Attempt where
  readMeta := .ok ⟨1, "1.0.0".toList, [], 3, 5, 4, 900, 9⟩
  hasParent := true
  created := .ok ()
  opened := .ok ()
  decoder := .ok ()
  released := .ok ()
  source := ⟨writeArchive (.file [1, 2, 3, 4]) (some [5]) none, delivered, broken, fun _ => none⟩
  destParent := "/out".toList
  artifactFile := "/repo/.ai-architect-mcp-codebase/graph.zst".toList
  graphPath := "/out/graph".toList
  showFault _ := "failed to unpack".toList

def empty : OutputDir := ⟨fun _ => none, rfl, fun _ _ h => nomatch h⟩

end Sample

/-- An archive that breaks off in the manifest: the import fails, and the file of the graph
stays. -/
theorem single_file_stays : ¬ AllOrNothing (Sample.attempt 1100 true) Sample.empty.disk := by
  have hgraph : (importArtifact (Sample.attempt 1100 true) Sample.empty.disk).2 [graphName] =
      some (.file [1, 2, 3, 4] true) := by decide +kernel
  have herror : (importArtifact (Sample.attempt 1100 true) Sample.empty.disk).1.isOk = false := by
    decide +kernel
  rw [AllOrNothing]
  cases himport : importArtifact (Sample.attempt 1100 true) Sample.empty.disk with
  | mk result d =>
      rw [himport] at hgraph herror
      cases result with
      | error e =>
          rintro ⟨habsent, -⟩
          exact nomatch hgraph.symm.trans habsent
      | ok committed => nomatch herror

end ArtifactImport

end CodeGraph
