import CodeGraph.ManifestFiles

/-!
# The identity of a manifest

The flat scan against the tree. A value is told by its path: it is the manifest's name or its
namespace, or a reference, whatever lines come before it. The scan tells it by those lines.
The two agree for all values of a document exactly when they agree on every line (`Clean`).
-/

namespace CodeGraph

open List

namespace ManifestScan

open BlockTree

/-! ## What a path is told by -/

def nameKey : Key := ⟨"name".toList, isPlain_of_letters rfl, by decide⟩

def namespaceKey : Key := ⟨"namespace".toList, isPlain_of_letters rfl, by decide⟩

def metadataKey : Key := ⟨"metadata".toList, isPlain_of_letters rfl, by decide⟩

def metadataName : Path := [.key metadataKey, .key nameKey]

def metadataNamespace : Path := [.key metadataKey, .key namespaceKey]

/-- The kind of the resource that the scalar at a path refers to: `secretName`, `serviceName`,
or the `name` right below a reference marker. -/
def refKindAt (path : Path) : Option Text :=
  match path.reverse with
  | .key k :: rest =>
      if k.text = "secretName".toList then some "Secret".toList
      else if k.text = "serviceName".toList then some "Service".toList
      else if k = nameKey then
        match rest with
        | .key marker :: _ => refKindOf marker.text
        | _ => none
      else none
  | _ => none

def roleOf (path : Path) : Option Role :=
  if path = metadataName then some .name
  else if path = metadataNamespace then some .namespc
  else (refKindAt path).map .ref

namespace Manifest

/-- The references of a document, in the order they are written, each once and up to the bound
on their number. -/
def refs (doc : Manifest) : List ConfigRef :=
  (doc.root.scalars.filterMap fun e => (refKindAt e.1).map (⟨·, e.2.value⟩)).foldl
    (fun refs r => pushRef r refs) []

/-- What a document was read as is what its tree says. -/
structure ReadAs (doc : Manifest) (read : K8sDoc) : Prop where
  name : read.name = doc.valueAt metadataName
  namespc : read.namespc = doc.valueAt metadataNamespace
  configRefs : read.configRefs = doc.refs

/-- In every file of manifests with this one among them, it is read as its tree says. -/
def Scanned (doc : Manifest) : Prop :=
  ∀ before after, (∀ other ∈ before ++ after, HasKind other) →
    ∃ read, (scan (fileText (before ++ doc :: after))).docs[before.length]? = some read ∧
      doc.ReadAs read

def Clean (doc : Manifest) : Prop :=
  ∀ above line below, doc.rows = above ++ line :: below → line.key.isSome → line.scalar.isSome →
    ∀ indent key, headOf line = some (indent, key) →
      ∀ role, TakenAs (above.filterMap headOf) indent key role ↔ roleOf line.path = some role

end Manifest

/-! ## What the paths tell -/

/-- What some rows tell by their paths. -/
def toldByPath (rows : List Line) : List (Role × Text) :=
  rows.flatMap fun row =>
    ((roleOf row.path).filter fun _ => valueOf row ≠ []).toList.map (·, valueOf row)

theorem fieldIn_eq {role : Role} {told : List (Role × Text)} {value : Text}
    (hall : ∀ e ∈ told, e.1 = role → e.2 = value) (hmem : value ≠ [] → (role, value) ∈ told) :
    fieldIn role told = value := by
  rw [fieldIn]
  cases hfind : told.find? (·.1 = role) with
  | some e =>
      exact hall e (mem_of_find?_eq_some hfind)
        (by simpa using find?_some hfind)
  | none =>
      by_contra hne
      have hvalue : value ≠ [] := fun h => hne h.symm
      have := find?_eq_none.mp hfind (role, value) (hmem hvalue)
      simp at this

theorem toldByPath_append (above below : List Line) :
    toldByPath (above ++ below) = toldByPath above ++ toldByPath below := flatMap_append

theorem toldByPath_cons (row : Line) (rows : List Line) : toldByPath (row :: rows)
    = ((roleOf row.path).filter fun _ => valueOf row ≠ []).toList.map (·, valueOf row) ++
      toldByPath rows := flatMap_cons

theorem mem_toldByPath {rows : List Line} {role : Role} {value : Text} :
    (role, value) ∈ toldByPath rows ↔
      ∃ row ∈ rows, roleOf row.path = some role ∧ valueOf row = value ∧ value ≠ [] := by
  rw [toldByPath, mem_flatMap]
  refine exists_congr fun row => and_congr_right fun _ => ?_
  rw [mem_map]
  constructor
  · rintro ⟨r, hr, heq⟩
    obtain ⟨hrole, hne⟩ := Option.filter_eq_some_iff.mp (Option.mem_toList.mp hr)
    cases heq
    exact ⟨hrole, rfl, of_decide_eq_true hne⟩
  · rintro ⟨hrole, rfl, hne⟩
    exact ⟨role, Option.mem_toList.mpr (Option.filter_eq_some_iff.mpr ⟨hrole, decide_eq_true hne⟩),
      rfl⟩

theorem eq_of_path {doc : Manifest} {row row' : Line} (h : row ∈ doc.rows) (h' : row' ∈ doc.rows)
    (hpath : row.path = row'.path) : row = row' :=
  inj_on_of_nodup_map (Entries.nodup_paths doc.distinct) h h' hpath

theorem valueAt_eq {doc : Manifest} {row : Line} (h : row ∈ doc.rows) :
    doc.valueAt row.path = valueOf row := by
  cases hscalar : row.scalar with
  | some a =>
      rw [valueAt_of_holds ⟨row, h, rfl, hscalar⟩, valueOf, hscalar]
      rfl
  | none =>
      rw [valueAt_of_not_holds, valueOf, hscalar]
      · rfl
      · rintro a ⟨row', hrow', hpath, ha⟩
        rw [eq_of_path hrow' h hpath, hscalar] at ha
        cases ha

theorem fieldIn_toldByPath {doc : Manifest} {role : Role} {path : Path}
    (hrole : ∀ p, roleOf p = some role ↔ p = path) :
    fieldIn role (toldByPath doc.rows) = doc.valueAt path := by
  refine fieldIn_eq ?_ fun hne => ?_
  · rintro ⟨r, value⟩ he rfl
    obtain ⟨row, hrow, hpath, rfl, -⟩ := mem_toldByPath.mp he
    rw [← (hrole _).mp hpath]
    exact (valueAt_eq hrow).symm
  · by_cases hrow : ∃ row ∈ doc.rows, row.path = path
    · obtain ⟨row, hrow, rfl⟩ := hrow
      exact mem_toldByPath.mpr ⟨row, hrow, (hrole _).mpr rfl, (valueAt_eq hrow).symm, hne⟩
    · refine absurd (valueAt_of_not_holds fun a => ?_) hne
      rintro ⟨row, hmem, hpath, -⟩
      exact hrow ⟨row, hmem, hpath⟩

theorem roleOf_eq_name {path : Path} : roleOf path = some .name ↔ path = metadataName := by
  rw [roleOf]
  split_ifs with hname hnamespc
  · exact iff_of_true rfl hname
  · exact iff_of_false nofun hname
  · refine iff_of_false (fun h => ?_) hname
    obtain ⟨_, -, h⟩ := Option.map_eq_some_iff.mp h
    cases h

theorem roleOf_eq_namespc {path : Path} :
    roleOf path = some .namespc ↔ path = metadataNamespace := by
  rw [roleOf]
  split_ifs with hname hnamespc
  · refine iff_of_false nofun fun h => ?_
    rw [hname] at h
    exact absurd h (by decide)
  · exact iff_of_true rfl hnamespc
  · refine iff_of_false (fun h => ?_) hnamespc
    obtain ⟨_, -, h⟩ := Option.map_eq_some_iff.mp h
    cases h

theorem pushRole_roleOf (path : Path) (value : Text) (refs : List ConfigRef) :
    pushRole (roleOf path) value refs
      = ((refKindAt path).map fun kind => pushRef ⟨kind, value⟩ refs).getD refs := by
  rw [roleOf]
  split_ifs with hname hnamespc
  · rw [hname]
    rfl
  · rw [hnamespc]
    rfl
  · cases refKindAt path <;> rfl

theorem refsIn_append (told told' : List (Role × Text)) (refs : List ConfigRef) :
    refsIn (told ++ told') refs = refsIn told' (refsIn told refs) := foldl_append

theorem refsIn_told (role : Option Role) (value : Text) (refs : List ConfigRef) :
    refsIn ((role.filter fun _ => value ≠ []).toList.map (·, value)) refs
      = pushRole role value refs := by
  cases role with
  | none => rfl
  | some role =>
      by_cases hvalue : value = []
      · subst hvalue
        rw [pushRole_nil]
        rfl
      · have hsome : (some role).filter (fun _ => value ≠ []) = some role := by simp [hvalue]
        rw [hsome]
        rfl

theorem refsIn_toldByPath (doc : Manifest) : refsIn (toldByPath doc.rows) [] = doc.refs := by
  rw [Manifest.refs, ← Entries.held doc.root 0 0]
  generalize ([] : List ConfigRef) = refs
  change refsIn (toldByPath doc.rows) refs
    = ((doc.rows.filterMap BlockTree.Row.held).filterMap _).foldl _ refs
  induction doc.rows generalizing refs with
  | nil => rfl
  | cons row rows ih =>
      rw [toldByPath_cons, refsIn_append, refsIn_told, ih, pushRole_roleOf]
      cases hscalar : row.scalar with
      | none =>
          have hheld : row.held = none := by rw [Row.held, hscalar, Option.map_none]
          have hvalue : valueOf row = [] := by rw [valueOf, hscalar]; rfl
          have hpush : ((refKindAt row.path).map fun kind =>
              pushRef ⟨kind, valueOf row⟩ refs).getD refs = refs := by
            rw [← pushRole_roleOf, hvalue, pushRole_nil]
          rw [hpush, filterMap_cons_none hheld]
      | some a =>
          have hheld : row.held = some (row.path, a) := by
            rw [Row.held, hscalar, Option.map_some]
          have hvalue : valueOf row = a.value := by rw [valueOf, hscalar]; rfl
          rw [filterMap_cons_some hheld, hvalue]
          cases hkind : refKindAt row.path with
          | none =>
              rw [filterMap_cons_none (by rw [hkind, Option.map_none])]
              rfl
          | some kind =>
              rw [filterMap_cons_some (by rw [hkind, Option.map_some])]
              rfl

/-! ## Where the lines and the paths agree -/

theorem takenRow_iff (above : List Line) {line : Line} {indent : ℕ} {key : Text}
    (hhead : headOf line = some (indent, key)) (role : Role) :
    (above.foldl Control.row {}).takenRow line = some role ↔
      TakenAs (above.filterMap headOf) indent key role := by
  rw [← taken_iff, ← foldl_row, Control.takenRow, hhead, Option.bind_some]

/-- `Clean`, said of what the scan remembers. -/
theorem clean_iff (doc : Manifest) : doc.Clean ↔ ∀ above line below,
    doc.rows = above ++ line :: below → line.key.isSome → line.scalar.isSome →
      (above.foldl Control.row {}).takenRow line = roleOf line.path := by
  constructor
  · intro h above line below hrows hkey hscalar
    obtain ⟨key, hkey'⟩ := Option.isSome_iff_exists.mp hkey
    refine Option.ext fun role => ?_
    rw [takenRow_iff above (headOf_key hkey')]
    exact h above line below hrows hkey hscalar _ _ (headOf_key hkey') role
  · intro h above line below hrows hkey hscalar indent key hhead role
    rw [← takenRow_iff above hhead, h above line below hrows hkey hscalar]

theorem ends_of_mem {doc : Manifest} {row : Line} (h : row ∈ doc.rows) : row.Ends :=
  Entries.ends row h

theorem roleOf_item {row : Line} (hends : row.Ends) (hkey : row.key = none) :
    roleOf row.path = none := by
  have hlast : ∀ k, row.path.getLast? ≠ some (.key k) := by
    rw [BlockTree.Row.Ends, hkey] at hends
    exact hends
  have href : refKindAt row.path = none := by
    rw [refKindAt]
    have hrev : ∀ k, row.path.reverse.head? ≠ some (.key k) := by
      simpa only [head?_reverse] using hlast
    split
    · next k rest heq => exact absurd (by rw [heq]; rfl) (hrev k)
    · rfl
  rw [roleOf, href, if_neg fun h => hlast nameKey (by rw [h]; rfl),
    if_neg fun h => hlast namespaceKey (by rw [h]; rfl), Option.map_none]

theorem toldBy_of_clean {doc : Manifest} (h : doc.Clean) :
    toldBy {} doc.rows = toldByPath doc.rows := by
  have hsuffix (below above : List Line) (hrows : doc.rows = above ++ below) :
      toldBy (above.foldl Control.row {}) below = toldByPath below := by
    induction below generalizing above with
    | nil => rfl
    | cons row below ih =>
        have hrest := ih (above ++ [row]) (by rw [hrows, append_assoc]; rfl)
        rw [foldl_append] at hrest
        have hmem : row ∈ doc.rows := hrows ▸ mem_append_right _ mem_cons_self
        have hrole : ((above.foldl Control.row {}).takenRow row).filter (fun _ => valueOf row ≠ [])
            = (roleOf row.path).filter fun _ => valueOf row ≠ [] := by
          cases hkey : row.key with
          | none => rw [takenRow_item hkey, roleOf_item (ends_of_mem hmem) hkey]
          | some key =>
              cases hscalar : row.scalar with
              | none =>
                  have hvalue : valueOf row = [] := by rw [valueOf, hscalar]; rfl
                  rw [filter_of_empty hvalue, filter_of_empty hvalue]
              | some a =>
                  rw [(clean_iff doc).mp h above row below hrows (by rw [hkey]; rfl)
                    (by rw [hscalar]; rfl)]
        rw [toldBy, toldByPath_cons, hrole, ← hrest]
        rfl
  exact hsuffix doc.rows [] rfl

/-! ## One document among others -/

/-- Some values told of a document are those of its tree. -/
structure Manifest.Tells (doc : Manifest) (told : List (Role × Text)) : Prop where
  name : fieldIn .name told = doc.valueAt metadataName
  namespc : fieldIn .namespc told = doc.valueAt metadataNamespace
  refs : refsIn told [] = doc.refs

theorem tells_byPath (doc : Manifest) : doc.Tells (toldByPath doc.rows) where
  name := fieldIn_toldByPath fun _ => roleOf_eq_name
  namespc := fieldIn_toldByPath fun _ => roleOf_eq_namespc
  refs := refsIn_toldByPath doc

theorem state_eq (doc : Manifest) : (doc.state.name, doc.state.namespc, doc.state.configRefs)
    = (fieldIn .name (toldBy {} doc.rows), fieldIn .namespc (toldBy {} doc.rows),
      refsIn (toldBy {} doc.rows) []) := by
  obtain ⟨-, hname, hnamespc, hrefs⟩ := foldl_line_spec doc.rows {}
  exact Prod.ext hname (Prod.ext hnamespc hrefs)

theorem read_in_file {doc : Manifest} {before after : List Manifest}
    (h : ∀ d ∈ before ++ doc :: after, d.HasKind) :
    ∃ read, (scan (fileText (before ++ doc :: after))).docs[before.length]? = some read ∧
      (read.name, read.namespc, read.configRefs)
        = (fieldIn .name (toldBy {} doc.rows), fieldIn .namespc (toldBy {} doc.rows),
          refsIn (toldBy {} doc.rows) []) := by
  have hread := congrArg (fun l => l[before.length]?) (scan_docs h)
  have hdoc : (before ++ doc :: after)[before.length]? = some doc := by simp
  rw [getElem?_map, getElem?_map, hdoc, Option.map_some, state_eq,
    Option.map_eq_some_iff] at hread
  exact hread

theorem scanned_iff {doc : Manifest} (h : doc.HasKind) :
    doc.Scanned ↔ doc.Tells (toldBy {} doc.rows) := by
  constructor
  · intro hscanned
    obtain ⟨read, hread, hname, hnamespc, hrefs⟩ := hscanned [] [] nofun
    obtain ⟨read', hread', hfacts⟩ := @read_in_file doc [] [] fun d hd => by
      rw [mem_singleton.mp hd]
      exact h
    obtain rfl := Option.some.inj (hread.symm.trans hread')
    simp only [Prod.mk.injEq] at hfacts
    exact ⟨hfacts.1 ▸ hname, hfacts.2.1 ▸ hnamespc, hfacts.2.2 ▸ hrefs⟩
  · intro htells before after hothers
    have hkinds : ∀ d ∈ before ++ doc :: after, d.HasKind := by
      intro d hd
      rcases mem_append.mp hd with hd | hd
      · exact hothers d (mem_append_left _ hd)
      · rcases mem_cons.mp hd with rfl | hd
        · exact h
        · exact hothers d (mem_append_right _ hd)
    obtain ⟨read, hread, hfacts⟩ := read_in_file hkinds
    simp only [Prod.mk.injEq] at hfacts
    exact ⟨read, hread, hfacts.1.trans htells.name, hfacts.2.1.trans htells.namespc,
      hfacts.2.2.trans htells.refs⟩

/-! ## Other values -/

theorem rows_refill (doc : Manifest) (f : Path → Scalar) :
    (doc.refill f).rows = doc.rows.map (BlockTree.Row.refill f) :=
  Entries.rows_refill f doc.root 0 0

theorem refill_item {row : Line} (f : Path → Scalar) (h : row.key = none) : row.refill f = row := by
  obtain ⟨indent, dashes, path, key, scalar⟩ := row
  cases h
  rfl

theorem headOf_refill (f : Path → Scalar) (row : Line) : headOf (row.refill f) = headOf row := by
  cases hkey : row.key with
  | none => rw [refill_item f hkey]
  | some key => rw [headOf_key hkey, headOf_key (show (row.refill f).key = some key from hkey)]; rfl

theorem filterMap_headOf_refill (f : Path → Scalar) (rows : List Line) :
    (rows.map (BlockTree.Row.refill f)).filterMap headOf = rows.filterMap headOf := by
  rw [filterMap_map]
  exact filterMap_congr fun row _ => headOf_refill f row

theorem isSome_scalar_refill (f : Path → Scalar) (row : Line) :
    (row.refill f).scalar.isSome = row.scalar.isSome := by
  obtain ⟨indent, dashes, path, key, scalar⟩ := row
  cases key <;> cases scalar <;> rfl

theorem Manifest.Clean.refill {doc : Manifest} (h : doc.Clean) (f : Path → Scalar) :
    (doc.refill f).Clean := by
  intro above' line' below' hrows hkey hscalar indent key hhead role
  rw [rows_refill] at hrows
  obtain ⟨above, rest, hsplit, rfl, hrest⟩ := map_eq_append_iff.mp hrows
  obtain ⟨line, below, rfl, rfl, rfl⟩ := map_eq_cons_iff.mp hrest
  rw [filterMap_headOf_refill]
  rw [isSome_scalar_refill] at hscalar
  rw [headOf_refill] at hhead
  exact h above line below hsplit hkey hscalar indent key hhead role

theorem Manifest.Clean.scanned {doc : Manifest} (h : doc.Clean) (hkind : doc.HasKind) :
    doc.Scanned := by
  rw [scanned_iff hkind, toldBy_of_clean h]
  exact tells_byPath doc

/-! ## One value among empty ones -/

def someScalar : Scalar := .plain "x".toList (isPlain_of_letters rfl)

/-- A value at one path and for the kind, and none elsewhere. -/
def onlyAt (path : Path) : Path → Scalar := fun p =>
  if p = path ∨ p = [.key kindKey] then someScalar else .empty

theorem scalar_refill {row : Line} {key : Key} (hkey : row.key = some key) (f : Path → Scalar) :
    (row.refill f).scalar = row.scalar.map fun _ => f row.path := by
  obtain ⟨indent, dashes, path, key', scalar⟩ := row
  cases hkey
  rfl

theorem valueOf_onlyAt {row : Line} {path : Path} {key : Key} (hkey : row.key = some key)
    (h : valueOf (row.refill (onlyAt path)) ≠ []) :
    row.path = path ∨ row.path = [.key kindKey] := by
  by_contra hno
  refine h ?_
  rw [valueOf, scalar_refill hkey, onlyAt, if_neg hno]
  cases row.scalar <;> rfl

theorem takenRow_refill (c : Control) (f : Path → Scalar) (row : Line) :
    c.takenRow (row.refill f) = c.takenRow row := by
  rw [Control.takenRow, headOf_refill, Control.takenRow]

theorem toldBy_eq_nil {c : Control} {rows : List Line}
    (h : ∀ row ∈ rows, valueOf row = [] ∨ ∀ c : Control, c.takenRow row = none) :
    toldBy c rows = [] := by
  induction rows generalizing c with
  | nil => rfl
  | cons row rows ih =>
      rw [toldBy, ih fun r hr => h r (mem_cons_of_mem row hr), append_nil]
      rcases h row mem_cons_self with hvalue | htaken
      · rw [filter_of_empty hvalue]
        rfl
      · rw [htaken c]
        rfl

theorem toldByPath_eq_nil {rows : List Line}
    (h : ∀ row ∈ rows, valueOf row = [] ∨ roleOf row.path = none) : toldByPath rows = [] := by
  refine flatMap_eq_nil_iff.mpr fun row hrow => ?_
  rcases h row hrow with hvalue | hrole
  · rw [filter_of_empty hvalue]
    rfl
  · rw [hrole]
    rfl

/-- A row that tells nothing, to the scan or by its path. -/
def Quiet (row : Line) : Prop :=
  valueOf row = [] ∨ (∀ c : Control, c.takenRow row = none) ∧ roleOf row.path = none

theorem quiet_onlyAt {doc : Manifest} {row : Line} (h : row ∈ doc.rows) {path : Path}
    (hpath : row.path ≠ path) : Quiet (row.refill (onlyAt path)) := by
  cases hkey : row.key with
  | none =>
      rw [refill_item _ hkey]
      exact .inr ⟨takenRow_item hkey, roleOf_item (ends_of_mem h) hkey⟩
  | some key =>
      by_cases hvalue : valueOf (row.refill (onlyAt path)) = []
      · exact .inl hvalue
      · have hkind := (valueOf_onlyAt hkey hvalue).resolve_left hpath
        obtain ⟨hindent, hdashes, hkey'⟩ := Entries.row_of_key h hkind
        have hhead : headOf row = some (row.indent, "kind".toList) := by
          rw [headOf_key hkey', hdashes]
          rfl
        refine .inr ⟨fun c => ?_, ?_⟩
        · rw [takenRow_refill, Control.takenRow, hhead]
          exact Control.taken_other (by decide) (by decide) (by decide) (by decide) _ _
        · change roleOf row.path = none
          rw [hkind]
          decide

theorem role_eq {doc : Manifest} {role role' : Option Role} {value : Text} (hne : value ≠ [])
    (h : doc.Tells (role.toList.map (·, value))) (h' : doc.Tells (role'.toList.map (·, value))) :
    role = role' := by
  have hname := h.name.trans h'.name.symm
  have hnamespc := h.namespc.trans h'.namespc.symm
  have hrefs := h.refs.trans h'.refs.symm
  have hpush (kind : Text) : pushRef ⟨kind, value⟩ [] = [⟨kind, value⟩] := by
    rw [pushRef, if_neg (by simp [hne, maxRefs]), if_pos not_mem_nil]
    rfl
  rcases role with _ | _ | _ | kind <;> rcases role' with _ | _ | _ | kind' <;>
    simp_all [fieldIn, refsIn, pushRole]

theorem hasKind_onlyAt {doc : Manifest} (h : doc.HasKind) (path : Path) :
    (doc.refill (onlyAt path)).HasKind := by
  obtain ⟨a, ⟨row, hrow, hpath, ha⟩, -⟩ := exists_of_valueAt h
  obtain ⟨-, -, hkey⟩ := Entries.row_of_key hrow hpath
  have hholds : BlockTree.Holds (doc.refill (onlyAt path)).rows [.key kindKey] someScalar := by
    refine ⟨row.refill (onlyAt path), ?_, hpath, ?_⟩
    · rw [rows_refill]
      exact mem_map_of_mem hrow
    · rw [scalar_refill hkey, ha, Option.map_some, onlyAt, if_pos (.inr hpath)]
  rw [Manifest.HasKind, valueAt_of_holds hholds]
  decide

/-- Where every refilled document is scanned as its tree says, lines and paths agree: a document
with one value shows what that value is taken for. -/
theorem clean_of_scanned {doc : Manifest} (hkind : doc.HasKind)
    (h : ∀ f, (doc.refill f).HasKind → (doc.refill f).Scanned) : doc.Clean := by
  rw [clean_iff]
  intro above line below hrows hkey hscalar
  have hk := hasKind_onlyAt hkind line.path
  have htells := (scanned_iff hk).mp (h _ hk)
  have hpaths := tells_byPath (doc.refill (onlyAt line.path))
  obtain ⟨key, hkey⟩ := Option.isSome_iff_exists.mp hkey
  obtain ⟨a, ha⟩ := Option.isSome_iff_exists.mp hscalar
  have hvalue : valueOf (line.refill (onlyAt line.path)) = "x".toList := by
    rw [valueOf, scalar_refill hkey, ha, onlyAt, if_pos (.inl rfl)]
    rfl
  have hnodup : (doc.rows.map BlockTree.Row.path).Nodup := Entries.nodup_paths doc.distinct
  rw [hrows, map_append, map_cons, nodup_middle, nodup_cons,
    ← map_append] at hnodup
  have hquiet : ∀ row ∈ above ++ below, Quiet (row.refill (onlyAt line.path)) := by
    intro row hrow
    refine @quiet_onlyAt doc _ ?_ _ fun heq => hnodup.1 (heq ▸ mem_map_of_mem hrow)
    rw [hrows]
    rcases mem_append.mp hrow with hrow | hrow
    · exact mem_append_left _ hrow
    · exact mem_append_right _ (mem_cons_of_mem line hrow)
  have hside {rows : List Line} (hsub : rows ⊆ above ++ below) : ∀ row ∈
      rows.map (BlockTree.Row.refill (onlyAt line.path)), Quiet row := by
    intro row hrow
    obtain ⟨row, hmem, rfl⟩ := mem_map.mp hrow
    exact hquiet row (hsub hmem)
  have htold {rows : List Line} (hsub : rows ⊆ above ++ below) (c : Control) :
      toldBy c (rows.map (BlockTree.Row.refill (onlyAt line.path))) = [] :=
    toldBy_eq_nil fun row hrow => (hside hsub row hrow).imp_right And.left
  have hpath {rows : List Line} (hsub : rows ⊆ above ++ below) :
      toldByPath (rows.map (BlockTree.Row.refill (onlyAt line.path))) = [] :=
    toldByPath_eq_nil fun row hrow => (hside hsub row hrow).imp_right And.right
  have hmark (role : Option Role) :
      role.filter (fun _ => valueOf (line.refill (onlyAt line.path)) ≠ []) = role := by
    rw [hvalue]
    cases role <;> rfl
  rw [rows_refill, hrows, map_append, map_cons] at htells hpaths
  rw [toldBy_append, htold (subset_append_left above below), toldBy,
    htold (subset_append_right above below), takenRow_refill, hmark, hvalue, nil_append,
    append_nil, foldl_row, filterMap_headOf_refill, ← foldl_row] at htells
  rw [toldByPath_append, toldByPath_cons, hpath (subset_append_left above below),
    hpath (subset_append_right above below), BlockTree.Row.refill_path, hmark, hvalue,
    nil_append, append_nil] at hpaths
  exact role_eq (by decide) htells hpaths

def word (text : Text) (h : IsPlain text) : Block Key Scalar := .scalar (.plain text h)

/-- A pod whose name stands below its labels, one of which is a `name` as well. -/
def labelledPod : Manifest where
  layout := ⟨2, 2, by decide⟩
  root :=
    .cons kindKey (word "Pod".toList (isPlain_of_letters rfl)) <|
    .cons metadataKey (.mapping <|
      .cons ⟨"labels".toList, isPlain_of_letters rfl, by decide⟩
        (.mapping (.cons nameKey (word "frontend".toList (isPlain_of_letters rfl)) .nil)) <|
      .cons nameKey (word "web".toList (isPlain_of_letters rfl)) .nil) .nil
  distinct := ⟨by decide, trivial, by decide, ⟨by decide, ⟨by decide, trivial, trivial⟩,
    by decide, trivial, trivial⟩, trivial⟩

example : fileText [labelledPod]
    = "kind: Pod\nmetadata:\n  labels:\n    name: frontend\n  name: web\n".toList := by decide

theorem labelledPod_hasKind : labelledPod.HasKind := by
  rw [Manifest.HasKind]
  decide

/-- A pod with no labels above its name. -/
def namedPod : Manifest where
  layout := ⟨2, 2, by decide⟩
  root :=
    .cons kindKey (word "Pod".toList (isPlain_of_letters rfl)) <|
    .cons metadataKey (.mapping <|
      .cons nameKey (word "web".toList (isPlain_of_letters rfl)) .nil) .nil
  distinct := ⟨by decide, trivial, by decide, ⟨by decide, trivial, trivial⟩, trivial⟩

theorem namedPod_hasKind : namedPod.HasKind := by
  rw [Manifest.HasKind]
  decide

theorem namedPod_clean : namedPod.Clean := by
  rw [clean_iff]
  intro above line below hrows _ hscalar
  rw [show namedPod.rows = [_, _, _] from rfl] at hrows
  rcases above with _ | ⟨_, _ | ⟨_, _ | ⟨_, above⟩⟩⟩
  · cases hrows
    decide
  · cases hrows
    cases hscalar
  · cases hrows
    decide
  · simp at hrows

end ManifestScan

end CodeGraph
