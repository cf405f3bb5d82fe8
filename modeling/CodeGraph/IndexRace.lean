import CodeGraph.ClassifyPartition
import CodeGraph.Lib.Runs

/-!
# Edits while the index runs

The full index reads its files to parse them, walks the tree again and stats each
file, and then reads each file once more for the hash of its manifest. Edits may
fall anywhere between. The machine below takes these steps one by one and keeps
what was last parsed of each file; an incremental pass, in one step, classifies
the tree against the manifest and reads again what the plan says.

The manifest is right about the graph when every file still has, at its hash, the
content it was parsed with. `Baseline` is what a manifest entry then says of the
parsed content, now and after any edit.
-/

namespace CodeGraph

open List

/-- A file on disk: its bytes, and its modification time as the manifest keeps
it. -/
structure DiskFile (Content : Type) where
  content : Content
  mtimeNs : Int
  deriving DecidableEq

/-- What the indexer reads files with: their length, their digest, and whether a
walk collects a file of this id and length. -/
structure FileReader (Content : Type) where
  len : Content → Nat
  sha256 : Content → Text
  collects : Text → Nat → Bool

/-- Where the indexer is. -/
inductive IndexPhase where
  | parsing (todo : List Text)
  | rewalking
  | stating (todo : List Text) (found : List Discovered)
  | hashing (todo : List Discovered) (manifest : FileManifest)
  | indexed (manifest : FileManifest)

/-- The files of the disk, the `(mtime, size)` pairs each has had so far, and what
was last parsed of each. The indexer does not read the pairs. -/
structure TrackedFiles (Content : Type) where
  disk : Finmap fun _ : Text => DiskFile Content
  seen : Text → List (Int × Nat)
  parsed : Text → Option Content

structure IndexRun (Content : Type) extends TrackedFiles Content where
  phase : IndexPhase

section IndexRace

variable {Content : Type} (reader : FileReader Content)

def FileReader.stat (file : DiskFile Content) : Int × Nat :=
  (file.mtimeNs, reader.len file.content)

/-! ## The indexer -/

def walkFiles (disk : Finmap fun _ : Text => DiskFile Content) : List Text :=
  (disk.keys.sort (· ≤ ·)).filter fun rel =>
    match disk.lookup rel with
    | some file => reader.collects rel (reader.len file.content)
    | none => false

/-- A walked file with its change signal, zeroes when it is gone. -/
def statFile (disk : Finmap fun _ : Text => DiskFile Content) (rel : Text) : Discovered :=
  match disk.lookup rel with
  | some file => ⟨rel, rel, file.mtimeNs, reader.len file.content⟩
  | none => ⟨rel, rel, 0, 0⟩

def discover (disk : Finmap fun _ : Text => DiskFile Content) : List Discovered :=
  (walkFiles reader disk).map (statFile reader disk)

def hashOnDisk (disk : Finmap fun _ : Text => DiskFile Content) (abs : Text) : Option Text :=
  (disk.lookup abs).map fun file => reader.sha256 file.content

/-- Reads a file for the parse; a file that is gone leaves what the graph has. -/
def readForParse (disk : Finmap fun _ : Text => DiskFile Content)
    (parsed : Text → Option Content) (rel : Text) : Text → Option Content :=
  match disk.lookup rel with
  | some file => Function.update parsed rel (some file.content)
  | none => parsed

def ChangeSet.reread (cs : ChangeSet) : List Discovered :=
  cs.changed ++ cs.added ++ cs.renamed.map Rename.newFile

/-- What the graph holds of each file once a change set is applied: deleted and
renamed files are purged, the others of the set are read again. -/
def parsedAfter (disk : Finmap fun _ : Text => DiskFile Content)
    (parsed : Text → Option Content) (cs : ChangeSet) : Text → Option Content :=
  let purged := (cs.deleted ++ cs.renamed.map Rename.oldRel).foldl
    (fun parsed rel => Function.update parsed rel none) parsed
  cs.reread.foldl (fun parsed d => readForParse disk parsed d.rel) purged

namespace IndexRun

/-- One step of the full index. -/
def advance (s : IndexRun Content) : IndexRun Content :=
  match s.phase with
  | .parsing [] => { s with phase := .rewalking }
  | .parsing (rel :: todo) =>
      { s with
        parsed := readForParse s.disk s.parsed rel
        phase := .parsing todo }
  | .rewalking => { s with phase := .stating (walkFiles reader s.disk) [] }
  | .stating (rel :: todo) found =>
      { s with phase := .stating todo (found ++ [statFile reader s.disk rel]) }
  | .stating [] found => { s with phase := .hashing found .new }
  | .hashing (d :: todo) m =>
      { s with
        phase := .hashing todo (m.insert d.rel (d.state (hashOf (hashOnDisk reader s.disk) d))) }
  | .hashing [] m => { s with phase := .indexed m }
  | .indexed _ => s

/-- The plan of an incremental pass over the disk as it is. -/
def plan (s : IndexRun Content) (m : FileManifest) : Plan :=
  classify (hashOnDisk reader s.disk) m (discover reader s.disk)

/-- An incremental pass, once the index has left a manifest. -/
def incremental (s : IndexRun Content) : IndexRun Content :=
  match s.phase with
  | .indexed m =>
      { s with
        parsed := parsedAfter s.disk s.parsed (s.plan reader m).changeSet
        phase := .indexed (s.plan reader m).nextManifest }
  | _ => s

/-- A file written, or removed. -/
def edit (s : IndexRun Content) (rel : Text) : Option (DiskFile Content) → IndexRun Content
  | some file =>
      { s with
        disk := s.disk.insert rel file
        seen := Function.update s.seen rel (reader.stat file :: s.seen rel) }
  | none => { s with disk := s.disk.erase rel }

/-- The index starts on an empty graph, with the walk of the disk as it is. -/
def start (disk : Finmap fun _ : Text => DiskFile Content) : IndexRun Content where
  disk := disk
  seen rel := (0, 0) :: ((disk.lookup rel).map reader.stat).toList
  parsed _ := none
  phase := .parsing (walkFiles reader disk)

end IndexRun

/-- Something that happens while files are indexed. -/
inductive IndexEvent (Content : Type) where
  | edit (rel : Text) (file : Option (DiskFile Content))
  | advance
  | incremental

def IndexRun.step (s : IndexRun Content) : IndexEvent Content → IndexRun Content
  | .edit rel file => s.edit reader rel file
  | .advance => s.advance reader
  | .incremental => s.incremental reader

/-- An edit changes the file's `(mtime, size)`, to a pair it has not had. -/
def EditsFresh (s : IndexRun Content) : IndexEvent Content → Prop
  | .edit rel (some file) => reader.stat file ∉ s.seen rel
  | _ => True

/-- When a file is hashed for the manifest, it has the content it was parsed with,
or is gone from the files a walk collects. -/
def HashedAsParsed (s : IndexRun Content) : IndexEvent Content → Prop
  | .advance =>
      ∀ d todo m, s.phase = .hashing (d :: todo) m →
        ∀ file, s.disk.lookup d.rel = some file →
          reader.collects d.rel (reader.len file.content) = true →
          s.parsed d.rel = some file.content
  | _ => True

/-- No current file whose content is another than the one last parsed is left out
of what the next pass reads again. -/
def NoStale (s : IndexRun Content) : Prop :=
  ∀ m, s.phase = .indexed m → ∀ d ∈ discover reader s.disk,
    ∀ file, s.disk.lookup d.rel = some file → s.parsed d.rel ≠ some file.content →
      d ∉ (s.plan reader m).unchanged
        ∧ (d ∈ (s.plan reader m).changeSet.changed ∨ d ∈ (s.plan reader m).changeSet.added
          ∨ d ∈ (s.plan reader m).changeSet.renamed.map Rename.newFile)

/-! ## Walks and passes -/

variable {disk : Finmap fun _ : Text => DiskFile Content} {rel : Text}

theorem mem_walkFiles : rel ∈ walkFiles reader disk ↔ ∃ file, disk.lookup rel = some file
        ∧ reader.collects rel (reader.len file.content) = true := by
  rw [walkFiles, mem_filter, Finset.mem_sort, Finmap.mem_keys, ← Finmap.lookup_isSome]
  cases disk.lookup rel with
  | none => simp
  | some file => simp

theorem nodup_walkFiles (disk : Finmap fun _ : Text => DiskFile Content) :
    (walkFiles reader disk).Nodup :=
  (Finset.sort_nodup _ _).filter _

@[simp] theorem statFile_rel (disk : Finmap fun _ : Text => DiskFile Content) (rel : Text) :
    (statFile reader disk rel).rel = rel := by
  unfold statFile
  cases disk.lookup rel <;> rfl

@[simp] theorem statFile_abs (disk : Finmap fun _ : Text => DiskFile Content) (rel : Text) :
    (statFile reader disk rel).abs = rel := by
  unfold statFile
  cases disk.lookup rel <;> rfl

theorem discover_rels (disk : Finmap fun _ : Text => DiskFile Content) :
    (discover reader disk).map Discovered.rel = walkFiles reader disk := by
  rw [discover, map_map]
  conv_rhs => rw [← map_id (walkFiles reader disk)]
  exact map_congr_left fun rel _ => statFile_rel reader disk rel

theorem discover_nodup (disk : Finmap fun _ : Text => DiskFile Content) :
    ((discover reader disk).map Discovered.rel).Nodup :=
  discover_rels reader disk ▸ nodup_walkFiles reader disk

variable {d : Discovered}

theorem mem_discover : d ∈ discover reader disk ↔ ∃ file, disk.lookup d.rel = some file
        ∧ reader.collects d.rel (reader.len file.content) = true
        ∧ d = ⟨d.rel, d.rel, file.mtimeNs, reader.len file.content⟩ := by
  rw [discover, mem_map]
  constructor
  · rintro ⟨rel, hrel, rfl⟩
    obtain ⟨file, hfile, hcol⟩ := (mem_walkFiles reader).mp hrel
    have hstat : statFile reader disk rel
        = ⟨rel, rel, file.mtimeNs, reader.len file.content⟩ := by
      rw [statFile, hfile]
    rw [hstat]
    exact ⟨file, hfile, hcol, rfl⟩
  · rintro ⟨file, hfile, hcol, hd⟩
    refine ⟨d.rel, (mem_walkFiles reader).mpr ⟨file, hfile, hcol⟩, ?_⟩
    rw [statFile, hfile]
    exact hd.symm

variable {file : DiskFile Content}

theorem hashOf_onDisk (hfile : disk.lookup d.abs = some file) :
    hashOf (hashOnDisk reader disk) d = reader.sha256 file.content := by
  rw [hashOf, hashOnDisk, hfile]
  rfl

theorem mem_reread_iff {hashFile : Text → Option Text} {prior : FileManifest}
    {current : List Discovered} (hids : (current.map Discovered.rel).Nodup) (hd : d ∈ current) :
    d ∈ (classify hashFile prior current).changeSet.reread ↔
      d ∉ (classify hashFile prior current).unchanged := by
  have hperm := classify_current_perm hashFile prior current
  have hsplit := nodup_append.mp (hperm.nodup_iff.mpr (hids.of_map _))
  have hmem := hperm.mem_iff.mpr hd
  rw [← append_assoc] at hmem hsplit
  constructor
  · intro hre hun
    exact hsplit.2.2 d hre d hun rfl
  · intro hun
    exact (mem_append.mp hmem).resolve_right hun

theorem readForParse_self {parsed : Text → Option Content} (hfile : disk.lookup rel = some file) :
    readForParse disk parsed rel rel = some file.content := by
  simp [readForParse, hfile]

variable {rel' : Text}

theorem readForParse_of_ne (disk : Finmap fun _ : Text => DiskFile Content)
    (parsed : Text → Option Content) (hne : rel' ≠ rel) :
    readForParse disk parsed rel rel' = parsed rel' := by
  unfold readForParse
  cases disk.lookup rel with
  | none => rfl
  | some file => exact Function.update_of_ne hne _ _

theorem foldl_readForParse_of_notMem (disk : Finmap fun _ : Text => DiskFile Content)
    (ds : List Discovered) (parsed : Text → Option Content) (h : rel ∉ ds.map Discovered.rel) :
    ds.foldl (fun parsed d => readForParse disk parsed d.rel) parsed rel = parsed rel := by
  induction ds generalizing parsed with
  | nil => rfl
  | cons d ds ih =>
      rw [map_cons, mem_cons, not_or] at h
      rw [foldl_cons, ih _ h.2, readForParse_of_ne disk parsed h.1]

theorem foldl_readForParse_of_mem
    (ds : List Discovered) (parsed : Text → Option Content) (hfile : disk.lookup rel = some file)
    (h : rel ∈ ds.map Discovered.rel) :
    ds.foldl (fun parsed d => readForParse disk parsed d.rel) parsed rel
      = some file.content := by
  induction ds generalizing parsed with
  | nil => exact absurd h not_mem_nil
  | cons d ds ih =>
      rw [foldl_cons]
      by_cases hrest : rel ∈ ds.map Discovered.rel
      · exact ih _ hrest
      · obtain rfl : rel = d.rel :=
          (mem_cons.mp (map_cons .. ▸ h)).resolve_right hrest
        rw [foldl_readForParse_of_notMem disk ds _ hrest, readForParse_self hfile]

theorem foldl_purge_of_notMem (rels : List Text) (parsed : Text → Option Content) (h : rel ∉ rels) :
    rels.foldl (fun parsed rel => Function.update parsed rel none) parsed rel = parsed rel := by
  induction rels generalizing parsed with
  | nil => rfl
  | cons r rels ih =>
      rw [mem_cons, not_or] at h
      rw [foldl_cons, ih _ h.2, Function.update_of_ne h.1]

/-! ## What the manifest says of the graph -/

/-- What an entry of the manifest says of the content its file was parsed with.
The pair it records belongs to the past of the file, so that an edit cannot bring
it back. -/
structure Baseline (s : TrackedFiles Content) (rel : Text) (state : FileState) : Prop where
  seen : (state.mtimeNs, state.size) ∈ s.seen rel
  signal : ∀ file, s.disk.lookup rel = some file →
    reader.collects rel (reader.len file.content) = true →
    reader.stat file = (state.mtimeNs, state.size) → s.parsed rel = some file.content
  content : state.contentHash ≠ [] → ∃ c, state.contentHash = reader.sha256 c
    ∧ (reader.collects rel (reader.len c) = true → s.parsed rel = some c)

/-- A file found by the second walk, with a pair of its past. -/
def Found (s : TrackedFiles Content) (d : Discovered) : Prop :=
  d.abs = d.rel ∧ (d.mtimeNs, d.size) ∈ s.seen d.rel

structure Sound (s : IndexRun Content) : Prop where
  zero : ∀ rel, (0, 0) ∈ s.seen rel
  now : ∀ rel file, s.disk.lookup rel = some file → reader.stat file ∈ s.seen rel
  phase : match s.phase with
    | .parsing _ | .rewalking => True
    | .stating _ found => ∀ d ∈ found, Found s.toTrackedFiles d
    | .hashing todo m =>
        (∀ d ∈ todo, Found s.toTrackedFiles d) ∧ m.All (Baseline reader s.toTrackedFiles)
    | .indexed m => m.All (Baseline reader s.toTrackedFiles)

theorem sound_start (disk : Finmap fun _ : Text => DiskFile Content) :
    Sound reader (IndexRun.start reader disk) := by
  refine ⟨?_, ?_, trivial⟩
  · intro rel
    exact mem_cons_self
  · intro rel file hfile
    have hfile : disk.lookup rel = some file := hfile
    simp [IndexRun.start, hfile]

variable {reader}

variable {s : IndexRun Content}

theorem mem_seen_edit {file : Option (DiskFile Content)} {p : Int × Nat} (h : p ∈ s.seen rel') :
    p ∈ (s.edit reader rel file).seen rel' := by
  cases file with
  | none => exact h
  | some file =>
      by_cases hrel : rel' = rel
      · subst hrel
        simp [IndexRun.edit, h]
      · simpa [IndexRun.edit, Function.update_of_ne hrel] using h

theorem lookup_edit {file : Option (DiskFile Content)}
    {f : DiskFile Content} (h : (s.edit reader rel file).disk.lookup rel' = some f) :
    (rel' = rel ∧ file = some f) ∨ s.disk.lookup rel' = some f := by
  cases file with
  | none =>
      by_cases hrel : rel' = rel
      · subst hrel
        simp [IndexRun.edit] at h
      · exact Or.inr (by simpa [IndexRun.edit, Finmap.lookup_erase_ne hrel] using h)
  | some file =>
      by_cases hrel : rel' = rel
      · subst hrel
        exact Or.inl ⟨rfl, by simpa [IndexRun.edit] using h⟩
      · exact Or.inr (by simpa [IndexRun.edit, Finmap.lookup_insert_of_ne _ hrel] using h)

theorem Baseline.edit {state : FileState}
    (h : Baseline reader s.toTrackedFiles rel' state) {file : Option (DiskFile Content)}
    (hfresh : EditsFresh reader s (.edit rel file)) :
    Baseline reader (s.edit reader rel file).toTrackedFiles rel' state := by
  have hparsed : (s.edit reader rel file).parsed = s.parsed := by cases file <;> rfl
  refine ⟨mem_seen_edit h.seen, ?_, ?_⟩
  · intro f hf hcol hstat
    obtain ⟨rfl, rfl⟩ | hold := lookup_edit hf
    · exact absurd (hstat ▸ h.seen) hfresh
    · rw [hparsed]
      exact h.signal f hold hcol hstat
  · rw [hparsed]
    exact h.content

theorem Found.edit (h : Found s.toTrackedFiles d) (rel : Text)
    (file : Option (DiskFile Content)) : Found (s.edit reader rel file).toTrackedFiles d :=
  ⟨h.1, mem_seen_edit h.2⟩

theorem Sound.edit (h : Sound reader s)
    {file : Option (DiskFile Content)} (hfresh : EditsFresh reader s (.edit rel file)) :
    Sound reader (s.edit reader rel file) := by
  have hphase : (s.edit reader rel file).phase = s.phase := by cases file <;> rfl
  refine ⟨fun rel' => mem_seen_edit (h.zero rel'), ?_, ?_⟩
  · intro rel' f hf
    obtain ⟨rfl, rfl⟩ | hold := lookup_edit hf
    · simp [IndexRun.edit]
    · exact mem_seen_edit (h.now rel' f hold)
  · rw [hphase]
    have hold := h.phase
    revert hold
    cases s.phase with
    | parsing todo => exact id
    | rewalking => exact id
    | stating todo found => exact fun hold d hd => (hold d hd).edit rel file
    | hashing todo m =>
        exact fun hold => ⟨fun d hd => (hold.1 d hd).edit rel file,
          fun rel' state hs => (hold.2 rel' state hs).edit hfresh⟩
    | indexed m => exact fun hold rel' state hs => (hold rel' state hs).edit hfresh

theorem found_statFile (h : Sound reader s) (rel : Text) :
    Found s.toTrackedFiles (statFile reader s.disk rel) := by
  refine ⟨by simp, ?_⟩
  rw [statFile_rel]
  unfold statFile
  cases hfile : s.disk.lookup rel with
  | none => exact h.zero rel
  | some file => exact h.now rel file hfile

theorem Found.baseline {s : TrackedFiles Content} (h : Found s d)
    (hparsed : ∀ file, s.disk.lookup d.rel = some file →
      reader.collects d.rel (reader.len file.content) = true → s.parsed d.rel = some file.content) :
    Baseline reader s d.rel (d.state (hashOf (hashOnDisk reader s.disk) d)) := by
  refine ⟨h.2, fun file hfile hcol _ => hparsed file hfile hcol, ?_⟩
  intro hne
  cases hfile : s.disk.lookup d.rel with
  | none =>
      have hfile : s.disk.lookup d.abs = none := h.1 ▸ hfile
      exact absurd (by simp [Discovered.state, hashOf, hashOnDisk, hfile]) hne
  | some file =>
      have hread : s.disk.lookup d.abs = some file := h.1 ▸ hfile
      exact ⟨file.content, hashOf_onDisk reader hread, hparsed file hfile⟩

theorem Sound.advance (h : Sound reader s)
    (hread : HashedAsParsed reader s .advance) : Sound reader (s.advance reader) := by
  have hold := h.phase
  unfold IndexRun.advance
  cases hphase : s.phase with
  | parsing todo =>
      cases todo with
      | nil => exact ⟨h.zero, h.now, trivial⟩
      | cons rel todo => exact ⟨h.zero, h.now, trivial⟩
  | rewalking => exact ⟨h.zero, h.now, fun d hd => absurd hd not_mem_nil⟩
  | stating todo found =>
      rw [hphase] at hold
      cases todo with
      | nil => exact ⟨h.zero, h.now, hold, FileManifest.all_new _⟩
      | cons rel todo =>
          refine ⟨h.zero, h.now, ?_⟩
          intro d hd
          rcases mem_append.mp hd with hd | hd
          · exact hold d hd
          · exact mem_singleton.mp hd ▸ found_statFile h rel
  | hashing todo m =>
      rw [hphase] at hold
      cases todo with
      | nil => exact ⟨h.zero, h.now, hold.2⟩
      | cons d todo =>
          refine ⟨h.zero, h.now, fun d' hd' => hold.1 d' (mem_cons_of_mem _ hd'), ?_⟩
          exact hold.2.insert ((hold.1 d mem_cons_self).baseline (hread d todo m hphase))
  | indexed m =>
      rw [hphase] at hold
      exact ⟨h.zero, h.now, by rw [hphase]; exact hold⟩

/-! ## Incremental passes -/

variable {m : FileManifest}

theorem parsed_of_unchanged (hinj : Function.Injective reader.sha256) (hm : m.All (Baseline reader s.toTrackedFiles))
    (hd : d ∈ (s.plan reader m).unchanged)
    (hfile : s.disk.lookup d.rel = some file) : s.parsed d.rel = some file.content := by
  obtain ⟨hcur, prev, hprev, hsame⟩ := mem_classify_unchanged.mp hd
  obtain ⟨file', hfile', hcol, hdeq⟩ := (mem_discover reader).mp hcur
  obtain rfl : file = file' := Option.some.inj (hfile.symm.trans hfile')
  have hbase := hm d.rel prev hprev
  rcases hsame with ⟨hm, hs⟩ | ⟨hne, hhash⟩
  · refine hbase.signal file hfile hcol ?_
    rw [hm, hs, hdeq]
    rfl
  · have habs : s.disk.lookup d.abs = some file := by
      rw [hdeq]
      exact hfile
    obtain ⟨c, hc, hparsed⟩ := hbase.content (hhash ▸ hne)
    rw [hashOf_onDisk reader habs] at hhash
    obtain rfl : file.content = c := hinj (hhash.trans hc)
    exact hparsed hcol

theorem noStale_of_baseline (hinj : Function.Injective reader.sha256)
    (h : Sound reader s) : NoStale reader s := by
  intro m hphase d hd file hfile hstale
  have hm := h.phase
  rw [hphase] at hm
  have hun : d ∉ (s.plan reader m).unchanged := by
    intro hun
    exact hstale (parsed_of_unchanged hinj hm hun hfile)
  have hre := (mem_reread_iff (discover_nodup reader s.disk) hd).mpr hun
  rw [ChangeSet.reread, mem_append, mem_append, or_assoc] at hre
  exact ⟨hun, hre⟩

theorem rel_inj_of_discover {d' : Discovered}
    (hd : d ∈ discover reader s.disk) (hd' : d' ∈ discover reader s.disk)
    (h : d.rel = d'.rel) : d = d' :=
  inj_on_of_nodup_map (discover_nodup reader s.disk) hd hd' h

/-- What a pass leaves alone: an unchanged file is neither purged nor read
again. -/
theorem parsedAfter_of_unchanged
    (hd : d ∈ discover reader s.disk) (hun : d ∈ (s.plan reader m).unchanged) :
    parsedAfter s.disk s.parsed (s.plan reader m).changeSet d.rel = s.parsed d.rel := by
  have hids := discover_nodup reader s.disk
  have hmem : d.rel ∈ (discover reader s.disk).map Discovered.rel := mem_map_of_mem hd
  have hkept : d.rel ∉ (s.plan reader m).changeSet.deleted
      ++ (s.plan reader m).changeSet.renamed.map Rename.oldRel := by
    rw [mem_append]
    rintro (h | h)
    · exact (mem_of_mem_priorOnly (c := .deleted) (hashOnDisk reader s.disk) h).2 hmem
    · exact (mem_of_mem_priorOnly (c := .renamedOld) (hashOnDisk reader s.disk) h).2 hmem
  have hnot : d.rel ∉ (s.plan reader m).changeSet.reread.map Discovered.rel := by
    intro h
    obtain ⟨d', hd', hrel⟩ := mem_map.mp h
    have hcur' : d' ∈ discover reader s.disk := by
      rw [ChangeSet.reread, mem_append, mem_append] at hd'
      rcases hd' with (hc | ha) | hr
      · exact mem_of_mem_class (c := .changed) (hashOnDisk reader s.disk) hc
      · exact mem_of_mem_class (c := .added) (hashOnDisk reader s.disk) ha
      · exact mem_of_mem_class (c := .renamedNew) (hashOnDisk reader s.disk) hr
    obtain rfl := rel_inj_of_discover hcur' hd hrel
    exact (mem_reread_iff hids hd).mp hd' hun
  rw [parsedAfter, foldl_readForParse_of_notMem _ _ _ hnot, foldl_purge_of_notMem _ _ hkept]

theorem parsedAfter_current (hinj : Function.Injective reader.sha256) (hm : m.All (Baseline reader s.toTrackedFiles))
    (hd : d ∈ discover reader s.disk) (hfile : s.disk.lookup d.rel = some file) :
    parsedAfter s.disk s.parsed (s.plan reader m).changeSet d.rel = some file.content := by
  by_cases hun : d ∈ (s.plan reader m).unchanged
  · rw [parsedAfter_of_unchanged hd hun]
    exact parsed_of_unchanged hinj hm hun hfile
  · have hre := (mem_reread_iff (discover_nodup reader s.disk) hd).mpr hun
    exact foldl_readForParse_of_mem _ _ hfile (mem_map_of_mem hre)

theorem Sound.incremental (hinj : Function.Injective reader.sha256)
    (h : Sound reader s) : Sound reader (s.incremental reader) := by
  unfold IndexRun.incremental
  cases hphase : s.phase with
  | indexed m =>
      have hm := h.phase
      rw [hphase] at hm
      refine ⟨h.zero, h.now, classify_nextManifest_all _ m _ ?_⟩
      intro d hd
      obtain ⟨file, hfile, hcol, hdeq⟩ := (mem_discover reader).mp hd
      have hparsed := parsedAfter_current hinj hm hd hfile
      have hfresh : Baseline reader
          ⟨s.disk, s.seen, parsedAfter s.disk s.parsed (s.plan reader m).changeSet⟩ d.rel
          (d.state (hashOf (hashOnDisk reader s.disk) d)) := by
        refine Found.baseline ⟨by rw [hdeq], ?_⟩ ?_
        · rw [hdeq]
          exact h.now d.rel file hfile
        · intro file' hfile' _
          obtain rfl : file = file' := Option.some.inj (hfile.symm.trans hfile')
          exact hparsed
      unfold nextState
      cases hprev : m.files.lookup d.rel with
      | none => exact hfresh
      | some prev =>
          by_cases hsig : prev.mtimeNs = d.mtimeNs ∧ prev.size = d.size
          · simp only [if_pos hsig]
            have hbase := hm d.rel prev hprev
            have hun : d ∈ (s.plan reader m).unchanged :=
              mem_classify_unchanged.mpr ⟨hd, prev, hprev, Or.inl hsig⟩
            have hkept := parsedAfter_of_unchanged hd hun
            refine ⟨hbase.seen, ?_, ?_⟩
            · intro file' hfile' hcol' hstat
              exact hkept.trans (hbase.signal file' hfile' hcol' hstat)
            · intro hne
              obtain ⟨c, hc, hc'⟩ := hbase.content hne
              exact ⟨c, hc, fun hcol' => hkept.trans (hc' hcol')⟩
          · simp only [if_neg hsig]
            exact hfresh
  | parsing todo => exact h
  | rewalking => exact h
  | stating todo found => exact h
  | hashing todo m => exact h

theorem Sound.step (hinj : Function.Injective reader.sha256) (s : IndexRun Content)
    (e : IndexEvent Content) (h : Sound reader s)
    (hc : EditsFresh reader s e ∧ HashedAsParsed reader s e) :
    Sound reader (s.step reader e) := by
  cases e with
  | edit rel file => exact h.edit hc.1
  | advance => exact h.advance hc.2
  | incremental => exact h.incremental hinj

theorem Sound.run (hinj : Function.Injective reader.sha256)
    (h : Sound reader s) {events : List (IndexEvent Content)}
    (hfresh : Runs.Along (IndexRun.step reader) (EditsFresh reader) events s)
    (hread : Runs.Along (IndexRun.step reader) (HashedAsParsed reader) events s) :
    Sound reader (Runs.run (IndexRun.step reader) events s) :=
  Runs.run_inv (fun s e hs hc => hs.step hinj s e hc) h (Runs.along_and hfresh hread)

/-! ## A hash of another content than the parsed one -/

/-- The manifest is being given each file once. -/
def Ordered (s : IndexRun Content) : Prop :=
  match s.phase with
  | .parsing _ | .rewalking | .indexed _ => True
  | .stating todo found => (found.map Discovered.rel ++ todo).Nodup ∧ ∀ d ∈ found, d.abs = d.rel
  | .hashing todo _ => (todo.map Discovered.rel).Nodup ∧ ∀ d ∈ todo, d.abs = d.rel

theorem Ordered.step (h : Ordered s) (e : IndexEvent Content) : Ordered (s.step reader e) := by
  cases e with
  | edit rel file => cases file <;> exact h
  | incremental =>
      unfold IndexRun.step IndexRun.incremental
      cases hphase : s.phase with
      | indexed m => trivial
      | parsing todo => exact h
      | rewalking => exact h
      | stating todo found => exact h
      | hashing todo m => exact h
  | advance =>
      unfold Ordered at h
      unfold IndexRun.step IndexRun.advance
      cases hphase : s.phase with
      | parsing todo => cases todo <;> trivial
      | rewalking =>
          exact ⟨nodup_walkFiles reader s.disk, fun d hd => absurd hd not_mem_nil⟩
      | stating todo found =>
          rw [hphase] at h
          cases todo with
          | nil => exact ⟨by simpa using h.1, h.2⟩
          | cons rel todo =>
              refine ⟨by simpa using h.1, ?_⟩
              intro d hd
              rcases mem_append.mp hd with hd | hd
              · exact h.2 d hd
              · obtain rfl := mem_singleton.mp hd
                simp
      | hashing todo m =>
          rw [hphase] at h
          cases todo with
          | nil => trivial
          | cons d todo => exact ⟨h.1.of_cons, fun d' hd' => h.2 d' (mem_cons_of_mem _ hd')⟩
      | indexed m => simp only [Ordered, hphase]

variable (reader) in
theorem Ordered.run (h : Ordered s) (events : List (IndexEvent Content)) :
    Ordered (Runs.run (IndexRun.step reader) events s) := by
  have hstep : ∀ s, ∀ e ∈ events, Ordered s → Ordered (IndexRun.step reader s e) :=
    fun s e _ hs => hs.step e
  exact Runs.run_inv_of_mem hstep h

variable (reader) in
/-- The manifest has, or will have, the hash of a content the file was not parsed
with. -/
def Misrecorded (rel : Text) (c : Content) (s : IndexRun Content) : Prop :=
  s.parsed rel ≠ some c ∧
    match s.phase with
    | .hashing todo m => rel ∉ todo.map Discovered.rel
        ∧ ∃ state, m.files.lookup rel = some state ∧ state.contentHash = reader.sha256 c
    | .indexed m => ∃ state, m.files.lookup rel = some state
        ∧ state.contentHash = reader.sha256 c
    | _ => False

variable {c : Content}

theorem Misrecorded.step
    (h : Misrecorded reader rel c s) {e : IndexEvent Content} (he : e ≠ .incremental) :
    Misrecorded reader rel c (s.step reader e) := by
  cases e with
  | edit rel' file => cases file <;> exact h
  | incremental => exact absurd rfl he
  | advance =>
      unfold Misrecorded at h
      unfold IndexRun.step IndexRun.advance
      cases hphase : s.phase with
      | parsing todo => simp [hphase] at h
      | rewalking => simp [hphase] at h
      | stating todo found => simp [hphase] at h
      | indexed m => exact ⟨h.1, by simpa only [hphase] using h.2⟩
      | hashing todo m =>
          rw [hphase] at h
          cases todo with
          | nil => exact ⟨h.1, h.2.2⟩
          | cons d todo =>
              obtain ⟨hparsed, hnot, state, hstate, hhash⟩ := h
              rw [map_cons, mem_cons, not_or] at hnot
              exact ⟨hparsed, hnot.2, state,
                (Finmap.lookup_insert_of_ne _ hnot.1).trans hstate, hhash⟩

theorem Misrecorded.run (h : Misrecorded reader rel c s) {events : List (IndexEvent Content)}
    (hevents : ∀ e ∈ events, e ≠ .incremental) :
    Misrecorded reader rel c (Runs.run (IndexRun.step reader) events s) := by
  have hstep : ∀ s, ∀ e ∈ events, Misrecorded reader rel c s →
      Misrecorded reader rel c (IndexRun.step reader s e) :=
    fun s e he hs => hs.step (hevents e he)
  exact Runs.run_inv_of_mem hstep h

theorem misrecorded_of_not_hashedAsParsed (hord : Ordered s)
    {e : IndexEvent Content} (h : ¬ HashedAsParsed reader s e) :
    ∃ rel c, reader.collects rel (reader.len c) = true
      ∧ Misrecorded reader rel c (s.step reader e) := by
  cases e with
  | edit rel file => exact absurd trivial h
  | incremental => exact absurd trivial h
  | advance =>
      simp only [HashedAsParsed, not_forall] at h
      obtain ⟨d, todo, m, hphase, file, hfile, hcol, hparsed⟩ := h
      rw [Ordered, hphase] at hord
      have habs : s.disk.lookup d.abs = some file := by
        rw [hord.2 d mem_cons_self]
        exact hfile
      refine ⟨d.rel, file.content, hcol, ?_⟩
      unfold IndexRun.step IndexRun.advance
      simp only [hphase]
      refine ⟨hparsed, (nodup_cons.mp hord.1).1, _, Finmap.lookup_insert _, ?_⟩
      exact hashOf_onDisk reader habs

theorem exists_fresh_mtime (seen : List (Int × Nat)) (size : Nat) :
    ∃ mtime : Int, (mtime, size) ∉ seen := by
  obtain ⟨mtime, hmtime⟩ := Infinite.exists_notMem_finset (seen.map Prod.fst).toFinset
  refine ⟨mtime, ?_⟩
  intro hmem
  exact hmtime (mem_toFinset.mpr (mem_map_of_mem hmem))

/-- A misrecorded content written back to its file is taken for the parsed one. -/
theorem stale_of_misrecorded (hne : ∀ c, reader.sha256 c ≠ []) (hcol : reader.collects rel (reader.len c) = true)
    (h : Misrecorded reader rel c s) (hphase : s.phase = .indexed m) :
    ∃ e, EditsFresh reader s e ∧ ¬ NoStale reader (s.step reader e) := by
  rw [Misrecorded, hphase] at h
  obtain ⟨hparsed, state, hstate, hhash⟩ := h
  obtain ⟨mtime, hfresh⟩ := exists_fresh_mtime (s.seen rel) (reader.len c)
  refine ⟨.edit rel (some ⟨c, mtime⟩), hfresh, ?_⟩
  intro hstale
  have hfile : (s.disk.insert rel ⟨c, mtime⟩).lookup rel = some ⟨c, mtime⟩ :=
    Finmap.lookup_insert _
  have hd : (⟨rel, rel, mtime, reader.len c⟩ : Discovered)
      ∈ discover reader (s.disk.insert rel ⟨c, mtime⟩) :=
    (mem_discover reader).mpr ⟨⟨c, mtime⟩, hfile, hcol, rfl⟩
  refine (hstale m hphase _ hd ⟨c, mtime⟩ hfile hparsed).1 ?_
  refine mem_classify_unchanged.mpr ⟨hd, state, hstate, Or.inr ?_⟩
  rw [hhash, hashOf_onDisk reader hfile]
  exact ⟨hne c, rfl⟩

variable (reader) in
theorem indexed_step (h : s.phase = .indexed m)
    (e : IndexEvent Content) : ∃ m', (s.step reader e).phase = .indexed m' := by
  cases e with
  | edit rel file => cases file <;> exact ⟨m, h⟩
  | advance => exact ⟨m, by simp [IndexRun.step, IndexRun.advance, h]⟩
  | incremental => exact ⟨_, by simp only [IndexRun.step, IndexRun.incremental, h]; rfl⟩

theorem hashedAsParsed_of_indexed (h : s.phase = .indexed m) (events : List (IndexEvent Content)) :
    Runs.Along (IndexRun.step reader) (HashedAsParsed reader) events s := by
  induction events generalizing s m with
  | nil => trivial
  | cons e events ih =>
      obtain ⟨m', hm'⟩ := indexed_step reader h e
      refine ⟨?_, ih hm'⟩
      cases e with
      | edit rel file => trivial
      | incremental => trivial
      | advance =>
          intro d todo m hphase
          rw [h] at hphase
          cases hphase

/-- After any index, no later edit or pass leaves a stale file unread, exactly when
each file was hashed with the content it was parsed with. -/
theorem no_stale_file_iff (reader : FileReader Content)
    (hinj : Function.Injective reader.sha256) (hne : ∀ c, reader.sha256 c ≠ [])
    (disk : Finmap fun _ : Text => DiskFile Content) (events : List (IndexEvent Content))
    (hindex : .incremental ∉ events)
    (hfresh : Runs.Along (IndexRun.step reader) (EditsFresh reader) events
      (IndexRun.start reader disk))
    (m : FileManifest)
    (hdone : (Runs.run (IndexRun.step reader) events (IndexRun.start reader disk)).phase
      = .indexed m) :
    (∀ later : List (IndexEvent Content),
        Runs.Along (IndexRun.step reader) (EditsFresh reader) later
          (Runs.run (IndexRun.step reader) events (IndexRun.start reader disk)) →
        NoStale reader (Runs.run (IndexRun.step reader) later
          (Runs.run (IndexRun.step reader) events (IndexRun.start reader disk))))
      ↔ Runs.Along (IndexRun.step reader) (HashedAsParsed reader) events
          (IndexRun.start reader disk) := by
  constructor
  · intro hstale
    by_contra hbad
    obtain ⟨before, e, after, rfl, -, hbad⟩ := Runs.exists_of_not_along hbad
    have hstart : Ordered (IndexRun.start reader disk) := trivial
    have hord := hstart.run reader before
    obtain ⟨rel, c, hcol, hmis⟩ := misrecorded_of_not_hashedAsParsed hord hbad
    have hafter : ∀ e' ∈ after, e' ≠ .incremental := by
      rintro e' he' rfl
      exact hindex (mem_append_right _ (mem_cons_of_mem _ he'))
    have hend := hmis.run hafter
    rw [Runs.run_append, Runs.run_cons] at hdone hstale
    obtain ⟨e', hfresh', hbad'⟩ := stale_of_misrecorded hne hcol hend hdone
    exact hbad' (hstale [e'] ⟨hfresh', trivial⟩)
  · intro hread later hlater
    have hsound := (sound_start reader disk).run hinj hfresh hread
    exact noStale_of_baseline hinj
      (hsound.run hinj hlater (hashedAsParsed_of_indexed hdone later))

end IndexRace

/-! ## One file -/

/-- Texts read as they are, hashed to themselves behind a mark. -/
def plainReader : FileReader Text where
  len := List.length
  sha256 c := 'h' :: c
  collects _ _ := true

def oneFile (content : Text) (mtime : Int) : Finmap fun _ : Text => DiskFile Text :=
  Finmap.singleton ['a'] ⟨content, mtime⟩

theorem walkFiles_oneFile (content : Text) (mtime : Int) :
    walkFiles plainReader (oneFile content mtime) = [['a']] := by
  simp [walkFiles, oneFile, plainReader]

theorem oneFile_insert (file : DiskFile Text) (content : Text) (mtime : Int) :
    (oneFile content mtime).insert ['a'] file = oneFile file.content file.mtimeNs :=
  Finmap.insert_singleton_eq

theorem statFile_oneFile (content : Text) (mtime : Int) :
    statFile plainReader (oneFile content mtime) ['a']
      = ⟨['a'], ['a'], mtime, content.length⟩ := by
  simp [statFile, oneFile, plainReader]

theorem readForParse_oneFile (content : Text) (mtime : Int) (parsed : Text → Option Text) :
    readForParse (oneFile content mtime) parsed ['a']
      = Function.update parsed ['a'] (some content) := by
  simp [readForParse, oneFile]

/-- The file is parsed, edited, and then taken into the manifest. -/
def editedIndex : List (IndexEvent Text) :=
  .advance :: .edit ['a'] (some ⟨['y'], 2⟩) :: List.replicate 6 .advance

theorem run_editedIndex :
    Runs.run (IndexRun.step plainReader) editedIndex
        (IndexRun.start plainReader (oneFile ['x'] 1))
      = { disk := oneFile ['y'] 2
          seen := Function.update
            (IndexRun.start plainReader (oneFile ['x'] 1)).seen ['a']
            ((2, 1) :: (IndexRun.start plainReader (oneFile ['x'] 1)).seen ['a'])
          parsed := Function.update (fun _ => none) ['a'] (some ['x'])
          phase := .indexed (FileManifest.new.insert ['a'] ⟨2, 1, ['h', 'y']⟩) } := by
  simp [editedIndex, List.replicate, IndexRun.step, IndexRun.advance, IndexRun.edit,
    IndexRun.start, walkFiles_oneFile, oneFile_insert, statFile_oneFile, readForParse_oneFile,
    FileReader.stat, Discovered.state, hashOf, hashOnDisk]
  simp [oneFile, plainReader]

theorem stale_after_editedIndex :
    Runs.Along (IndexRun.step plainReader) (EditsFresh plainReader) editedIndex
        (IndexRun.start plainReader (oneFile ['x'] 1))
      ∧ ¬ NoStale plainReader (Runs.run (IndexRun.step plainReader) editedIndex
        (IndexRun.start plainReader (oneFile ['x'] 1))) := by
  constructor
  · simp [editedIndex, List.replicate, Runs.Along, EditsFresh, IndexRun.step, IndexRun.advance,
      IndexRun.start, walkFiles_oneFile, FileReader.stat]
    simp [oneFile]
  · rw [run_editedIndex]
    intro hstale
    have hfile : (oneFile ['y'] 2).lookup ['a'] = some ⟨['y'], 2⟩ :=
      Finmap.lookup_singleton_eq
    have hd : (⟨['a'], ['a'], 2, 1⟩ : Discovered) ∈ discover plainReader (oneFile ['y'] 2) :=
      (mem_discover plainReader).mpr ⟨_, hfile, rfl, rfl⟩
    refine (hstale _ rfl _ hd _ hfile (by simp)).1 ?_
    exact mem_classify_unchanged.mpr ⟨hd, _, Finmap.lookup_insert _, Or.inl ⟨rfl, rfl⟩⟩

/-- The index of one file, with no edit. -/
def quietIndex : List (IndexEvent Text) := List.replicate 7 .advance

theorem no_stale_after_quietIndex :
    NoStale plainReader (Runs.run (IndexRun.step plainReader) [.edit ['a'] (some ⟨['y'], 2⟩)]
      (Runs.run (IndexRun.step plainReader) quietIndex
        (IndexRun.start plainReader (oneFile ['x'] 1)))) := by
  refine (no_stale_file_iff plainReader (fun c c' h => (List.cons.inj h).2)
    (fun c => cons_ne_nil _ _) (oneFile ['x'] 1) quietIndex (by simp [quietIndex]) ?_
    (FileManifest.new.insert ['a'] ⟨1, 1, ['h', 'x']⟩) ?_).mpr ?_
    [.edit ['a'] (some ⟨['y'], 2⟩)] ⟨?_, trivial⟩
  · simp [quietIndex, List.replicate, Runs.Along, EditsFresh]
  · simp [quietIndex, List.replicate, IndexRun.step, IndexRun.advance, IndexRun.start,
      walkFiles_oneFile, statFile_oneFile, Discovered.state, hashOf, hashOnDisk]
    simp [oneFile, plainReader]
  · simp [quietIndex, List.replicate, Runs.Along, HashedAsParsed, IndexRun.step,
      IndexRun.advance, IndexRun.start, walkFiles_oneFile, statFile_oneFile,
      readForParse_oneFile]
    simp [oneFile]
  · simp [quietIndex, List.replicate, EditsFresh, IndexRun.step, IndexRun.advance,
      IndexRun.start, FileReader.stat, walkFiles_oneFile]
    simp [oneFile]

end CodeGraph
