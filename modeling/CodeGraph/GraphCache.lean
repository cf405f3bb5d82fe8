import CodeGraph.Lib.OldestOut
import CodeGraph.Lib.Runs
import CodeGraph.Text

/-!
# The cache of opened graphs

`graph_cache`: handles of graphs that a server keeps between its requests. A lookup compares a
fingerprint of the files on disk with the one that is stored beside the handle. Another process
may write a graph between any two steps of a lookup.
-/

namespace CodeGraph

open List

namespace GraphCache

def maxCachedGraphs : ℕ := 8

/-! ## Fingerprints -/

/-- What lies at a path. `modified` is missing where the time is before the epoch or cannot be
read; an `unreadable` node is one whose metadata or listing cannot be read. -/
inductive DiskNode where
  | unreadable
  | file (modified : Option ℕ) (len : ℕ)
  | dir (modified : Option ℕ) (entries : List DiskNode)

@[ext]
structure GraphFingerprint where
  newestMtimeNanos : ℕ
  totalSizeBytes : ℕ
  deriving DecidableEq

namespace GraphFingerprint

def zero : GraphFingerprint := ⟨0, 0⟩

def sawMtime (fp : GraphFingerprint) : Option ℕ → GraphFingerprint
  | some nanos => { fp with newestMtimeNanos := max nanos fp.newestMtimeNanos }
  | none => fp

def addSize (fp : GraphFingerprint) (len : ℕ) : GraphFingerprint :=
  { fp with totalSizeBytes := min (fp.totalSizeBytes + len) (2 ^ 64 - 1) }

mutual

def accumulate (fp : GraphFingerprint) : DiskNode → Option GraphFingerprint
  | .unreadable => none
  | .file modified len => some ((fp.sawMtime modified).addSize len)
  | .dir modified entries => accumulateAll (fp.sawMtime modified) entries

def accumulateAll (fp : GraphFingerprint) : List DiskNode → Option GraphFingerprint
  | [] => some fp
  | entry :: entries =>
      match accumulate fp entry with
      | some fp => accumulateAll fp entries
      | none => none

end

def of (node : DiskNode) : Option GraphFingerprint := accumulate zero node

end GraphFingerprint

/-- The graphs on disk, as they are after each number of writes. A write changes the newest
time or the total size: no two generations of a graph have one fingerprint. -/
structure Timeline where
  node : Text → ℕ → DiskNode
  stamped : ∀ graph i j fp, GraphFingerprint.of (node graph i) = some fp →
    GraphFingerprint.of (node graph j) = some fp → i = j

/-- `canonicalize`, where it succeeds. -/
structure Paths where
  canonical : Text → Text
  canonical_canonical : ∀ path, canonical (canonical path) = canonical path

/-! ## The cache -/

/-- A handle of a graph. It sees the generation that was there when it was opened. -/
structure GraphStore where
  graph : Text
  generation : ℕ
  deriving DecidableEq

structure CacheEntry where
  store : GraphStore
  fingerprint : GraphFingerprint
  openedSeq : ℕ

/-- The entries in any order; a map has an entry for a key once. -/
structure Cache where
  entries : List (Text × CacheEntry)
  nextSeq : ℕ
  nodup : (entries.map Prod.fst).Nodup
  numbered : ∀ e ∈ entries, e.2.openedSeq < nextSeq

namespace Cache

def new : Cache := ⟨[], 0, nodup_nil, by simp⟩

def get (cache : Cache) (key : Text) : Option CacheEntry :=
  (cache.entries.find? fun e => e.1 = key).map Prod.snd

def removeKey (cache : Cache) (key : Text) : Cache where
  entries := cache.entries.filter fun e => e.1 ≠ key
  nextSeq := cache.nextSeq
  nodup := cache.nodup.sublist (filter_sublist.map _)
  numbered e he := cache.numbered e (mem_filter.mp he).1

/-- A new entry, with the next number. -/
def insert (cache : Cache) (key : Text) (store : GraphStore) (fingerprint : GraphFingerprint) :
    Cache where
  entries := (key, ⟨store, fingerprint, cache.nextSeq⟩) :: (cache.removeKey key).entries
  nextSeq := cache.nextSeq + 1
  nodup := by
    refine nodup_cons.mpr ⟨fun hmem => ?_, (cache.removeKey key).nodup⟩
    obtain ⟨e, he, rfl⟩ := mem_map.mp hmem
    exact of_decide_eq_true (mem_filter.mp he).2 rfl
  numbered := by
    intro e he
    rcases mem_cons.mp he with rfl | he
    · exact Nat.lt_succ_self _
    · exact ((cache.removeKey key).numbered e he).trans (Nat.lt_succ_self _)

def evictIfOverCapacity (cache : Cache) : Cache where
  entries := OldestOut.evict Prod.fst (fun e => e.2.openedSeq) maxCachedGraphs
    cache.entries.length cache.entries
  nextSeq := cache.nextSeq
  nodup := cache.nodup.sublist ((OldestOut.evict_sublist _ _ _).map _)
  numbered e he := cache.numbered e ((OldestOut.evict_sublist _ _ _).subset he)

variable {cache : Cache} {key : Text}

theorem get_eq_some_iff {entry : CacheEntry} :
    cache.get key = some entry ↔ (key, entry) ∈ cache.entries := by
  rw [get, Option.map_eq_some_iff]
  constructor
  · rintro ⟨e, he, rfl⟩
    have hkey : e.1 = key := by simpa using find?_some he
    exact hkey ▸ mem_of_find?_eq_some he
  · intro hmem
    cases hfind : cache.entries.find? fun e => e.1 = key with
    | none => exact absurd (find?_eq_none.mp hfind _ hmem) (by simp)
    | some e =>
        have hkey : e.1 = key := by simpa using find?_some hfind
        have heq := inj_on_of_nodup_map cache.nodup (mem_of_find?_eq_some hfind) hmem hkey
        exact ⟨e, rfl, congrArg Prod.snd heq⟩

theorem mem_removeKey {e : Text × CacheEntry}
    (h : e ∈ (cache.removeKey key).entries) : e ∈ cache.entries := (mem_filter.mp h).1

theorem length_removeKey_le (cache : Cache) (key : Text) :
    (cache.removeKey key).entries.length ≤ cache.entries.length := length_filter_le _ _

theorem newest_insert (cache : Cache) (key : Text) (store : GraphStore) (fp : GraphFingerprint) :
    OldestOut.Newest (fun x : Text × CacheEntry => x.2.openedSeq)
      (key, ⟨store, fp, cache.nextSeq⟩) (cache.insert key store fp).entries := by
  refine ⟨mem_cons_self, fun x hx hne => ?_⟩
  rcases mem_cons.mp hx with rfl | hx
  · exact absurd rfl hne
  · exact cache.numbered x (mem_removeKey hx)

theorem length_evict_le (cache : Cache) :
    cache.evictIfOverCapacity.entries.length ≤ maxCachedGraphs :=
  OldestOut.length_evict_le le_rfl

theorem mem_of_mem_evict {e : Text × CacheEntry}
    (h : e ∈ cache.evictIfOverCapacity.entries) : e ∈ cache.entries :=
  (OldestOut.evict_sublist _ _ _).subset h

def busy (path : Text) : Text :=
  "graph_cache_busy: the handle cache was borrowed while releasing ".toList ++ path

def inUse (path : Text) : Text :=
  "graph_handle_in_use: ".toList ++ path ++ (" is held by a running request, and a ".toList ++
    "write through another handle would be overwritten when it closes".toList)

/-- Drops the handle of a graph that is about to be written, where no request has it. -/
def release (cache : Cache) (borrowed : Bool) (strongCount : CacheEntry → ℕ) (path key : Text) :
    Except Text Cache :=
  if borrowed then .error (busy path)
  else match cache.get key with
    | some entry =>
        if 1 < strongCount entry then .error (inUse path) else .ok (cache.removeKey key)
    | none => .ok cache

theorem release_cases {cache' : Cache} {borrowed : Bool} {strongCount : CacheEntry → ℕ}
    {path : Text} (h : cache.release borrowed strongCount path key = .ok cache') :
    borrowed = false ∧ (cache' = cache ∨ cache' = cache.removeKey key) := by
  rw [release] at h
  split at h
  · nomatch h
  rename_i hfree
  refine ⟨Bool.eq_false_iff.mpr hfree, ?_⟩
  split at h
  · split at h
    · nomatch h
    · exact .inr (Except.ok.inj h).symm
  · exact .inl (Except.ok.inj h).symm

end Cache

/-! ## Lookups and writes -/

/-- How far a lookup of a path is. -/
inductive Phase where
  | idle
  | keyed (path key : Text)
  | missed (path key : Text)
  | opened (path key : Text) (store : GraphStore)
  | printed (path key : Text) (store : GraphStore) (fingerprint : GraphFingerprint)
  | inserted (key : Text) (store : GraphStore)

/-- What the last step gave back. -/
inductive Answer where
  | hit (path : Text) (store : GraphStore)
  | opened (key : Text) (store : GraphStore)
  | failed
  deriving DecidableEq

structure World where
  generation : Text → ℕ
  cache : Cache
  phase : Phase
  answer : Option Answer

inductive Event where
  /-- Another process writes a graph. -/
  | write (graph : Text)
  /-- A lookup begins; `canonicalize` succeeds or not. -/
  | lookup (path : Text) (resolved : Bool)
  /-- The fingerprint before the open, and the comparison. -/
  | fingerprint
  /-- The opener runs, and succeeds or not. -/
  | openGraph (succeeds : Bool)
  /-- The fingerprint after the open. -/
  | fingerprintAgain
  | insert
  | evict
  /-- This process is about to write a graph. -/
  | release (path : Text) (resolved : Bool) (strongCount : CacheEntry → ℕ)

variable (paths : Paths) (timeline : Timeline)

/-- The key of a path: the literal path where it cannot be made canonical. -/
def keyOf (path : Text) (resolved : Bool) : Text := if resolved then paths.canonical path else path

def fingerprintOf (w : World) (path : Text) : Option GraphFingerprint :=
  GraphFingerprint.of (timeline.node (paths.canonical path) (w.generation (paths.canonical path)))

def openStore (w : World) (path : Text) : GraphStore :=
  ⟨paths.canonical path, w.generation (paths.canonical path)⟩

/-- The handle of a hit: there is a fingerprint, and it is the one that is stored. -/
def hit? (w : World) (path key : Text) : Option GraphStore :=
  match fingerprintOf paths timeline w path, w.cache.get key with
  | some current, some entry => if entry.fingerprint = current then some entry.store else none
  | _, _ => none

/-- One step of the server or of the other process. A step that is not the next one of the
lookup does nothing. -/
def step (w : World) : Event → World
  | .write graph =>
      { w with
        generation := Function.update w.generation graph (w.generation graph + 1)
        answer := none }
  | .lookup path resolved =>
      match w.phase with
      | .idle => { w with phase := .keyed path (keyOf paths path resolved), answer := none }
      | _ => w
  | .fingerprint =>
      match w.phase with
      | .keyed path key =>
          match hit? paths timeline w path key with
          | some store => { w with phase := .idle, answer := some (.hit path store) }
          | none => { w with phase := .missed path key, answer := none }
      | _ => w
  | .openGraph succeeds =>
      match w.phase with
      | .missed path key =>
          if succeeds then
            { w with phase := .opened path key (openStore paths w path), answer := none }
          else { w with phase := .idle, answer := some .failed }
      | _ => w
  | .fingerprintAgain =>
      match w.phase with
      | .opened path key store =>
          let fp := (fingerprintOf paths timeline w path).getD .zero
          { w with phase := .printed path key store fp, answer := none }
      | _ => w
  | .insert =>
      match w.phase with
      | .printed _ key store fp =>
          { w with cache := w.cache.insert key store fp, phase := .inserted key store, answer := none }
      | _ => w
  | .evict =>
      match w.phase with
      | .inserted key store =>
          { w with
            cache := w.cache.evictIfOverCapacity
            phase := .idle
            answer := some (.opened key store) }
      | _ => w
  | .release path resolved strongCount =>
      match w.cache.release (match w.phase with | .idle => false | _ => true) strongCount path
          (keyOf paths path resolved) with
      | .ok cache => { w with cache, answer := none }
      | .error _ => w

/-- The cache is empty, and no lookup runs. -/
def start (generation : Text → ℕ) : World := ⟨generation, .new, .idle, none⟩

/-! ## What a stored fingerprint vouches for -/

variable {paths timeline}

/-- The only generation of the graph with the fingerprint is the one that the handle sees. -/
def Vouches (timeline : Timeline) (fp : GraphFingerprint) (store : GraphStore) : Prop :=
  ∀ i, GraphFingerprint.of (timeline.node store.graph i) = some fp → i = store.generation

theorem vouches_of {store : GraphStore} {fp : GraphFingerprint}
    (h : GraphFingerprint.of (timeline.node store.graph store.generation) = some fp) :
    Vouches timeline fp store :=
  fun i hi => timeline.stamped store.graph i store.generation fp hi h

theorem canonical_keyOf (path : Text) (resolved : Bool) :
    paths.canonical (keyOf paths path resolved) = paths.canonical path := by
  rw [keyOf]
  split
  · exact paths.canonical_canonical path
  · rfl

/-- The entry is under a key of its graph, and its fingerprint vouches for its handle. -/
def EntrySound (paths : Paths) (timeline : Timeline) (e : Text × CacheEntry) : Prop :=
  paths.canonical e.1 = e.2.store.graph ∧ Vouches timeline e.2.fingerprint e.2.store

namespace Phase

/-- What the running lookup has read so far is still as it has read it. -/
def Sound (paths : Paths) (timeline : Timeline) (w : World) : Phase → Prop
  | idle => True
  | keyed path key => paths.canonical key = paths.canonical path
  | missed path key => paths.canonical key = paths.canonical path
  | opened path key store =>
      paths.canonical key = paths.canonical path ∧ store = openStore paths w path
  | printed _ key store fp => EntrySound paths timeline (key, ⟨store, fp, 0⟩)
  | inserted _ _ => True

/-- The cache fits its bound, except between the insertion and the eviction. Then the new
entry is the newest. -/
def Bounded (cache : Cache) : Phase → Prop
  | inserted key store =>
      ∃ e, e.1 = key ∧ e.2.store = store ∧
        OldestOut.Newest (fun x : Text × CacheEntry => x.2.openedSeq) e cache.entries
  | _ => cache.entries.length ≤ maxCachedGraphs

end Phase

/-! ## What a step preserves -/

variable (paths timeline)

/-- No write to a graph lands between its open and the fingerprint that is stored; and that
fingerprint can be read, or the graph never has the fingerprint that is stored instead. -/
def Undisturbed (w : World) : Event → Prop
  | .write graph => ∀ path key store, w.phase = .opened path key store → graph ≠ store.graph
  | .fingerprintAgain => ∀ path key store, w.phase = .opened path key store →
      fingerprintOf paths timeline w path ≠ none ∨
        ∀ i, GraphFingerprint.of (timeline.node store.graph i) ≠ some .zero
  | _ => True

/-- A handle of a hit sees the generation that is on disk. No more entries are kept than the
bound, and an entry of the graph just opened is one of them. -/
structure Serves (w : World) : Prop where
  current : ∀ path store, w.answer = some (.hit path store) → store = openStore paths w path
  bounded : (∀ key store, w.phase ≠ .inserted key store) → w.cache.entries.length ≤ maxCachedGraphs
  kept : ∀ key store, w.answer = some (.opened key store) →
    ∃ entry, w.cache.get key = some entry ∧ entry.store = store

structure Inv (w : World) : Prop where
  entries : ∀ e ∈ w.cache.entries, EntrySound paths timeline e
  phase : w.phase.Sound paths timeline w
  bounded : w.phase.Bounded w.cache
  current : ∀ path store, w.answer = some (.hit path store) → store = openStore paths w path
  kept : ∀ key store, w.answer = some (.opened key store) →
    ∃ entry, w.cache.get key = some entry ∧ entry.store = store

variable {paths timeline}

variable {w : World}

theorem Inv.serves (h : Inv paths timeline w) : Serves paths w where
  current := h.current
  bounded hphase := by
    have hb := h.bounded
    cases hp : w.phase with
    | inserted key store => exact absurd hp (hphase key store)
    | _ =>
        rw [hp] at hb
        exact hb
  kept := h.kept

theorem inv_start (generation : Text → ℕ) : Inv paths timeline (start generation) where
  entries _ he := nomatch he
  phase := trivial
  bounded := Nat.zero_le _
  current _ _ h := nomatch h
  kept _ _ h := nomatch h

theorem hit?_current (hentries : ∀ e ∈ w.cache.entries, EntrySound paths timeline e)
    {path key : Text} (hkey : paths.canonical key = paths.canonical path) {store : GraphStore}
    (h : hit? paths timeline w path key = some store) : store = openStore paths w path := by
  rw [hit?] at h
  split at h
  · rename_i current entry hcurrent hget
    split at h
    · rename_i hsame
      obtain rfl := Option.some.inj h
      obtain ⟨hgraph, hvouches⟩ := hentries _ (Cache.get_eq_some_iff.mp hget)
      have hpath : entry.store.graph = paths.canonical path := hgraph.symm.trans hkey
      rw [fingerprintOf, ← hpath, ← hsame] at hcurrent
      have hgeneration := hvouches _ hcurrent
      rw [openStore, ← hpath, hgeneration]
    · nomatch h
  · nomatch h

theorem inv_write (h : Inv paths timeline w) {graph : Text}
    (hc : Undisturbed paths timeline w (.write graph)) :
    Inv paths timeline (step paths timeline w (.write graph)) where
  entries := h.entries
  phase := by
    have hphase := h.phase
    rw [step]
    cases hp : w.phase with
    | opened path key store =>
        rw [hp] at hphase
        obtain ⟨hkey, hstore⟩ := hphase
        have hne : graph ≠ paths.canonical path := by
          have := hc path key store hp
          rwa [hstore] at this
        refine ⟨hkey, hstore.trans ?_⟩
        simp only [openStore]
        rw [Function.update_of_ne hne.symm]
    | _ =>
        rw [hp] at hphase
        exact hphase
  bounded := h.bounded
  current _ _ h := nomatch h
  kept _ _ h := nomatch h

theorem inv_lookup (h : Inv paths timeline w) (path : Text) (resolved : Bool) :
    Inv paths timeline (step paths timeline w (.lookup path resolved)) := by
  rw [step]
  split
  · rename_i hp
    have hbounded := h.bounded
    rw [hp] at hbounded
    exact ⟨h.entries, canonical_keyOf path resolved, hbounded, fun _ _ h => (nomatch h),
      fun _ _ h => (nomatch h)⟩
  · exact h

theorem inv_fingerprint (h : Inv paths timeline w) :
    Inv paths timeline (step paths timeline w .fingerprint) := by
  rw [step]
  split
  · rename_i path key hp
    have hphase := h.phase
    have hbounded := h.bounded
    rw [hp] at hphase hbounded
    split
    · rename_i store hhit
      refine ⟨h.entries, trivial, hbounded, ?_, fun _ _ h => (nomatch h)⟩
      rintro _ _ ⟨⟩
      exact hit?_current h.entries hphase hhit
    · exact ⟨h.entries, hphase, hbounded, fun _ _ h => (nomatch h), fun _ _ h => (nomatch h)⟩
  · exact h

theorem inv_openGraph (h : Inv paths timeline w) (succeeds : Bool) :
    Inv paths timeline (step paths timeline w (.openGraph succeeds)) := by
  rw [step]
  split
  · rename_i path key hp
    have hphase := h.phase
    have hbounded := h.bounded
    rw [hp] at hphase hbounded
    split
    · exact ⟨h.entries, ⟨hphase, rfl⟩, hbounded, fun _ _ h => (nomatch h), fun _ _ h => (nomatch h)⟩
    · exact ⟨h.entries, trivial, hbounded, fun _ _ h => (nomatch h), fun _ _ h => (nomatch h)⟩
  · exact h

theorem inv_fingerprintAgain (h : Inv paths timeline w)
    (hc : Undisturbed paths timeline w .fingerprintAgain) :
    Inv paths timeline (step paths timeline w .fingerprintAgain) := by
  rw [step]
  split
  · rename_i path key store hp
    have hphase := h.phase
    have hbounded := h.bounded
    rw [hp] at hphase hbounded
    obtain ⟨hkey, hstore⟩ := hphase
    refine ⟨h.entries, ⟨hkey.trans (hstore ▸ rfl), ?_⟩, hbounded, fun _ _ h => (nomatch h),
      fun _ _ h => (nomatch h)⟩
    cases hread : fingerprintOf paths timeline w path with
    | some fp =>
        rw [hstore]
        exact vouches_of hread
    | none =>
        rcases hc path key store hp with hsome | hnever
        · exact absurd hread hsome
        · exact fun i hi => absurd hi (hnever i)
  · exact h

theorem inv_insert (h : Inv paths timeline w) :
    Inv paths timeline (step paths timeline w .insert) := by
  rw [step]
  split
  · rename_i path key store fp hp
    have hphase := h.phase
    rw [hp] at hphase
    refine ⟨?_, trivial, ⟨_, rfl, rfl, Cache.newest_insert w.cache key store fp⟩,
      fun _ _ h => (nomatch h), fun _ _ h => (nomatch h)⟩
    intro e he
    rcases mem_cons.mp he with rfl | he
    · exact hphase
    · exact h.entries e (Cache.mem_removeKey he)
  · exact h

theorem inv_evict (h : Inv paths timeline w) :
    Inv paths timeline (step paths timeline w .evict) := by
  rw [step]
  split
  · rename_i key store hp
    have hbounded := h.bounded
    rw [hp] at hbounded
    obtain ⟨e, rfl, rfl, hnewest⟩ := hbounded
    refine ⟨fun x hx => h.entries x (Cache.mem_of_mem_evict hx), trivial, w.cache.length_evict_le,
      fun _ _ h => (nomatch h), ?_⟩
    rintro _ _ ⟨⟩
    have hmem : e ∈ w.cache.evictIfOverCapacity.entries :=
      hnewest.mem_evict w.cache.entries.length (by decide) w.cache.nodup
    exact ⟨e.2, Cache.get_eq_some_iff.mpr hmem, rfl⟩
  · exact h

theorem inv_release (h : Inv paths timeline w) (path : Text) (resolved : Bool)
    (strongCount : CacheEntry → ℕ) :
    Inv paths timeline (step paths timeline w (.release path resolved strongCount)) := by
  rw [step]
  split
  · rename_i cache hcache
    obtain ⟨hidle, hcases⟩ := Cache.release_cases hcache
    have hp : w.phase = .idle := by
      split at hidle
      · assumption
      · nomatch hidle
    have hbounded := h.bounded
    rw [hp] at hbounded
    rcases hcases with rfl | rfl
    · exact ⟨h.entries, h.phase, h.bounded, fun _ _ h => (nomatch h), fun _ _ h => (nomatch h)⟩
    · refine ⟨fun e he => h.entries e (Cache.mem_removeKey he), ?_, ?_, fun _ _ h => (nomatch h),
        fun _ _ h => (nomatch h)⟩
      · rw [hp]
        trivial
      · rw [hp]
        exact (Cache.length_removeKey_le _ _).trans hbounded
  · exact h

theorem inv_step (w : World) (event : Event) (h : Inv paths timeline w)
    (hc : Undisturbed paths timeline w event) : Inv paths timeline (step paths timeline w event) := by
  cases event with
  | write graph => exact inv_write h hc
  | lookup path resolved => exact inv_lookup h path resolved
  | fingerprint => exact inv_fingerprint h
  | openGraph succeeds => exact inv_openGraph h succeeds
  | fingerprintAgain => exact inv_fingerprintAgain h hc
  | insert => exact inv_insert h
  | evict => exact inv_evict h
  | release path resolved strongCount => exact inv_release h path resolved strongCount

/-! ## A graph that is written once -/

namespace Sample

/-- A file that every write leaves with a later time. -/
def writtenFile : Timeline where
  node _ i := .file (some (i + 1)) 1
  stamped := by
    intro _ i j fp hi hj
    have := congrArg GraphFingerprint.newestMtimeNanos (Option.some.inj (hi.trans hj.symm))
    simpa [GraphFingerprint.sawMtime, GraphFingerprint.addSize, GraphFingerprint.zero] using this

def plainPaths : Paths := ⟨id, fun _ => rfl⟩

def graph : Text := "/out/graph".toList

/-- A lookup that opens the graph, with what the other process does after the open, and a
second lookup. -/
def twoLookups (others : List Event) : List Event :=
  [.lookup graph true, .fingerprint, .openGraph true] ++ others ++
    [.fingerprintAgain, .insert, .evict, .lookup graph true, .fingerprint]

def after (others : List Event) : World :=
  Runs.run (step plainPaths writtenFile) (twoLookups others) (start fun _ => 0)

end Sample

/-- In a run in which no write lands between an open and the fingerprint that is stored, every
hit gives the generation on disk, and the cache keeps its bound with the graph just opened. -/
theorem serves_current_graph (paths : Paths) (timeline : Timeline) (generation : Text → ℕ)
    (events : List Event)
    (h : Runs.Along (step paths timeline) (Undisturbed paths timeline) events (start generation)) :
    ∀ before after, events = before ++ after →
      Serves paths (Runs.run (step paths timeline) before (start generation)) := by
  rintro before after rfl
  exact (Runs.run_inv inv_step (inv_start generation) (Runs.along_append.mp h).1).serves

theorem serves_twice : (Sample.after []).answer = some (.hit Sample.graph ⟨Sample.graph, 0⟩) ∧
    Serves Sample.plainPaths (Sample.after []) := by
  refine ⟨by decide, serves_current_graph Sample.plainPaths Sample.writtenFile (fun _ => 0)
    (Sample.twoLookups []) ?_ (Sample.twoLookups []) [] rfl⟩
  refine ⟨trivial, trivial, trivial, ?_, trivial, trivial, trivial, trivial, trivial⟩
  rintro _ _ _ ⟨⟩
  exact .inl (by decide)

/-- A write between the open and the second fingerprint: the next lookup gives the handle of
the generation before it. -/
theorem write_after_open_is_hidden :
    ¬ Serves Sample.plainPaths (Sample.after [.write Sample.graph]) := by
  intro h
  have hit : (Sample.after [.write Sample.graph]).answer =
      some (.hit Sample.graph ⟨Sample.graph, 0⟩) := by decide
  have hstale := congrArg GraphStore.generation (h.current _ _ hit)
  exact absurd hstale (by decide)

end GraphCache

end CodeGraph
