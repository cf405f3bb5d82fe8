import CodeGraph.ModuleImports

/-!
# The receiver of a write macro

`write!` calls the `write_fmt` of its destination's type. Which one is decided
from the type as it was declared, placed by the `use` items of its file. A target
is determined when every meaning these items give the name selects it, in any
order of the items; that is so exactly where the items agree
(`determined_iff_agreeing`).
-/

namespace CodeGraph

open List

namespace MacroReceiver

/-! ## The scope of a file -/

/-- A `use` item: its path without the `::*` of a glob, and its alias, empty when
it has none. -/
structure UseItem where
  path : Text
  rename : Text
  isGlob : Bool

/-- The name an item binds and the path it stands for. -/
structure Import where
  name : Text
  path : Text

def lastSegment (path : Text) : Text := lastPiece colons path

def Import.new (item : UseItem) : Import where
  name := if item.isGlob then [] else if item.rename = [] then lastSegment item.path else item.rename
  path := item.path

inductive TypeOrigin where
  | std
  | other
  | ambiguous
  | unknown
  deriving DecidableEq

def stdRoots : List Text := ["std".toList, "core".toList, "alloc".toList]

def preludeTypes : List Text := ["String".toList, "Vec".toList]

def isStdPath (path : Text) : Bool := (splitOn colons path).head?.any (· ∈ stdRoots)

/-- What the origins of some bindings come to. -/
def agreed : List Bool → Option TypeOrigin
  | [] => none
  | first :: rest =>
      if rest.any (· ≠ first) then some .ambiguous else some (if first then .std else .other)

/-- The origin of the bindings of `name`, `none` when nothing binds it. -/
def boundOrigin (name : Text) (imports : List Import) : Option TypeOrigin :=
  agreed ((imports.filter (·.name = name)).map (isStdPath ·.path))

def typeOrigin (declared : Text) (imports : List Import) (definedInFile : Bool) : TypeOrigin :=
  if declared = [] then .unknown
  else
    match breakOn colons declared with
    | some (root, _) =>
        if root ∈ stdRoots then .std else (boundOrigin root imports).getD .other
    | none =>
        if definedInFile then .other
        else
          match boundOrigin declared imports with
          | some origin => origin
          | none => if declared ∈ preludeTypes then .std else .unknown

/-- The type's own name, read from the first binding of a bare name. -/
def originalName (declared : Text) (imports : List Import) : Text :=
  match breakOn colons declared, imports.find? (·.name = declared) with
  | none, some found => lastSegment found.path
  | _, _ => lastSegment declared

/-! ## The decision -/

/-- A target, with the type names that select it. -/
structure Alternative where
  canonical : Text
  receiverTypes : List Text

inductive Basis where
  | receiverType
  | argShape

inductive Decision where
  | target (canonical : Text) (basis : Basis)
  | noStableTarget
  | calleeByArguments
  | typeNotDetermined

/-- The declared type of a destination, and whether its file defines one of that
name. -/
structure Destination where
  declared : Text
  definedInFile : Bool

def decideByReceiver (alternatives : List Alternative) (dest : Destination)
    (imports : List Import) : Decision :=
  if typeOrigin dest.declared imports dest.definedInFile ≠ .std then .typeNotDetermined
  else
    match alternatives.filter (originalName dest.declared imports ∈ ·.receiverTypes) with
    | [only] => .target only.canonical .receiverType
    | _ => .typeNotDetermined

/-! ## What a name means -/

section Meaning

variable (alternatives : List Alternative) (members : Text → Text → Bool)
  (items : List UseItem) (defined : Finset Text) (declared : Text)

/-- The decision in a file with these items and type definitions. -/
def decideIn : Decision :=
  decideByReceiver alternatives ⟨declared, declared ∈ defined⟩ (items.map Import.new)

/-- The one alternative a type name selects. -/
def selection (name : Text) : Option Text :=
  match alternatives.filter (name ∈ ·.receiverTypes) with
  | [only] => some only.canonical
  | _ => none

/-- The item binds `name`, by its own name or as a glob of a module that has it. -/
def Brings (item : UseItem) (name : Text) : Prop :=
  if item.isGlob then members item.path name = true else (Import.new item).name = name

/-- A meaning of the declared name: whether it is a type of std, core or alloc,
and its name there. A path means what its root does; with a leading `::` its root
is a crate. -/
inductive Means : Bool → Text → Prop
  | crate {rest : Text} (h : breakOn colons declared = some ([], rest)) :
      Means (isStdPath rest) (lastSegment declared)
  | path {root rest : Text} {item : UseItem} (h : breakOn colons declared = some (root, rest))
      (hroot : root ≠ []) (hitem : item ∈ items) (hbrings : Brings members item root) :
      Means (isStdPath item.path) (lastSegment declared)
  | bound {item : UseItem} (h : breakOn colons declared = none) (hitem : item ∈ items)
      (hglob : item.isGlob = false) (hname : (Import.new item).name = declared) :
      Means (isStdPath item.path) (lastSegment item.path)
  | member {item : UseItem} (h : breakOn colons declared = none) (hitem : item ∈ items)
      (hglob : item.isGlob = true) (hmember : members item.path declared = true) :
      Means (isStdPath item.path) (lastSegment declared)
  | ofFile (h : breakOn colons declared = none) (hdefined : declared ∈ defined) :
      Means false (lastSegment declared)

/-- A target is what every meaning selects, and no order of the items changes the
decision. -/
structure Determined : Prop where
  meant : ∀ canonical basis, decideIn alternatives items defined declared = .target canonical basis →
    ∀ std name, Means members items defined declared std name →
      std = true ∧ selection alternatives name = some canonical
  ordered : ∀ items', items'.Perm items →
    decideIn alternatives items' defined declared = decideIn alternatives items defined declared

abbrev TakenForStd : Prop := typeOrigin declared (items.map Import.new) (declared ∈ defined) = .std

def selected : Option Text :=
  selection alternatives (originalName declared (items.map Import.new))

/-- The names a bare name is read under: those its bindings import, or itself. -/
def readAs : List Text :=
  match items.filter fun item => (Import.new item).name = declared with
  | [] => [lastSegment declared]
  | bound => bound.map (lastSegment ·.path)

/-- Of a name taken for one of std: a path's root is brought by items of std only,
and a root that is a crate is one of std; the bindings of a bare name select alike,
and a glob that has the name is of std and selects the same. -/
def Agreeing : Prop :=
  TakenForStd items defined declared →
    match breakOn colons declared with
    | some (root, rest) => selection alternatives (lastSegment declared) ≠ none →
        if root = [] then isStdPath rest = true
        else ∀ item ∈ items, Brings members item root → isStdPath item.path = true
    | none => ∀ name ∈ readAs items declared,
        (∀ other ∈ readAs items declared, selection alternatives other = selection alternatives name) ∧
        (selection alternatives name ≠ none → ∀ item ∈ items, item.isGlob = true →
          members item.path declared = true →
          isStdPath item.path = true ∧
            selection alternatives (lastSegment declared) = selection alternatives name)

end Meaning

/-! ## Any order of the items -/

theorem agreed_perm {origins origins' : List Bool} (h : origins.Perm origins') :
    agreed origins = agreed origins' := by
  induction h with
  | nil => rfl
  | cons first h ih => rw [agreed, agreed, h.any_eq]
  | swap a b rest => cases a <;> cases b <;> simp [agreed]
  | trans _ _ ih ih' => exact ih.trans ih'

variable {alternatives : List Alternative} {members : Text → Text → Bool}
  {items items' : List UseItem} {defined : Finset Text} {declared : Text}

theorem takenForStd_perm (h : items'.Perm items) :
    TakenForStd items' defined declared ↔ TakenForStd items defined declared := by
  have hbound : ∀ name, boundOrigin name (items'.map Import.new) =
      boundOrigin name (items.map Import.new) := fun name =>
    agreed_perm (((h.map _).filter _).map _)
  simp only [TakenForStd, typeOrigin, hbound]

theorem agreed_eq_std {origins : List Bool} (h : agreed origins = some .std) :
    ∀ origin ∈ origins, origin = true := by
  match origins with
  | [] => cases h
  | first :: rest =>
      rw [agreed] at h
      split at h
      · cases h
      · next hsame =>
        cases first
        · cases h
        · simpa using hsame

/-- The decision, by what the name it is read under selects. -/
theorem decideIn_eq : decideIn alternatives items defined declared =
    if TakenForStd items defined declared then
      match selected alternatives items declared with
      | some canonical => .target canonical .receiverType
      | none => .typeNotDetermined
    else .typeNotDetermined := by
  simp only [decideIn, decideByReceiver, selected, selection, ne_eq, ite_not]
  congr 1
  rcases alternatives.filter _ with _ | ⟨only, _ | _⟩ <;> rfl

theorem decideIn_eq_target {canonical : Text} {basis : Basis} :
    decideIn alternatives items defined declared = .target canonical basis ↔
      TakenForStd items defined declared ∧
        selected alternatives items declared = some canonical ∧
          basis = .receiverType := by
  rw [decideIn_eq]
  split
  · next hstd =>
    rw [and_iff_right hstd]
    cases selected alternatives items declared <;>
      simp [eq_comm]
  · next hstd => exact iff_of_false nofun fun h => hstd h.1

/-! ## The name read -/

theorem selected_path {path : Text × Text} (h : breakOn colons declared = some path) :
    selected alternatives items declared = selection alternatives (lastSegment declared) := by
  rw [selected, originalName, h]

theorem originalName_cons (hbare : breakOn colons declared = none) {item : UseItem}
    (hname : (Import.new item).name = declared) :
    originalName declared ((item :: items).map Import.new) = lastSegment item.path := by
  rw [originalName, hbare, map_cons, find?_cons_of_pos (by simpa using hname)]
  rfl

theorem mem_readAs {name : Text} : name ∈ readAs items declared ↔
    (∃ item ∈ items, (Import.new item).name = declared ∧ lastSegment item.path = name) ∨
      (∀ item ∈ items, (Import.new item).name ≠ declared) ∧ name = lastSegment declared := by
  rw [readAs]
  split
  · next hnil =>
    have hnone : ∀ item ∈ items, (Import.new item).name ≠ declared := fun item hitem hname =>
      filter_eq_nil_iff.mp hnil item hitem (decide_eq_true hname)
    rw [mem_singleton, and_iff_right hnone, or_iff_right]
    rintro ⟨item, hitem, hname, -⟩
    exact hnone item hitem hname
  · next hne =>
    rw [or_iff_left]
    · simp [mem_map, mem_filter, and_assoc]
    · exact fun h => hne (filter_eq_nil_iff.mpr fun item hitem => by simpa using h.1 item hitem)

theorem originalName_mem (hbare : breakOn colons declared = none) :
    originalName declared (items.map Import.new) ∈ readAs items declared := by
  rw [originalName, hbare, mem_readAs]
  cases hfind : (items.map Import.new).find? (·.name = declared) with
  | none =>
      refine Or.inr ⟨fun item hitem hname => ?_, rfl⟩
      exact find?_eq_none.mp hfind _ (mem_map_of_mem hitem) (decide_eq_true hname)
  | some found =>
      obtain ⟨item, hitem, rfl⟩ := mem_map.mp (mem_of_find?_eq_some hfind)
      have hname := find?_some hfind
      exact Or.inl ⟨item, hitem, of_decide_eq_true hname, rfl⟩

theorem readAs_perm (h : items'.Perm items) {name : Text} :
    name ∈ readAs items' declared ↔ name ∈ readAs items declared := by
  simp only [mem_readAs, h.mem_iff]

/-- Every binding of a bare name can be read first. -/
theorem exists_perm_read (hbare : breakOn colons declared = none) {name : Text}
    (hname : name ∈ readAs items declared) :
    ∃ items' : List UseItem, items'.Perm items ∧ originalName declared (items'.map Import.new) = name := by
  rcases mem_readAs.mp hname with ⟨item, hitem, hbinds, rfl⟩ | ⟨hnone, rfl⟩
  · obtain ⟨before, after, rfl⟩ := mem_iff_append.mp hitem
    exact ⟨_, perm_middle.symm, originalName_cons hbare hbinds⟩
  · refine ⟨items, .refl _, ?_⟩
    rcases mem_readAs.mp (originalName_mem hbare) with ⟨item, hitem, hbinds, -⟩ | ⟨-, hread⟩
    · exact absurd hbinds (hnone item hitem)
    · exact hread

/-! ## Determined targets -/

theorem isStdPath_of_bound (hbare : breakOn colons declared = none)
    (hstd : TakenForStd items defined declared) :
    declared ∉ defined ∧ ∀ item ∈ items, (Import.new item).name = declared →
      isStdPath item.path = true := by
  rw [TakenForStd, typeOrigin, hbare] at hstd
  dsimp only at hstd
  rw [ite_eq_iff, or_iff_right (fun h => TypeOrigin.noConfusion h.2), ite_eq_iff,
    or_iff_right (fun h => TypeOrigin.noConfusion h.2)] at hstd
  obtain ⟨-, hdefined, hstd⟩ := hstd
  refine ⟨fun h => hdefined (decide_eq_true h), fun item hitem hname => ?_⟩
  have hmem : isStdPath item.path ∈
      ((items.map Import.new).filter (·.name = declared)).map (isStdPath ·.path) :=
    mem_map.mpr ⟨Import.new item,
      mem_filter.mpr ⟨mem_map_of_mem hitem, decide_eq_true hname⟩, rfl⟩
  cases hbound : boundOrigin declared (items.map Import.new) with
  | some origin =>
      rw [hbound] at hstd
      exact agreed_eq_std (hbound.trans (congrArg some hstd)) _ hmem
  | none =>
      rw [boundOrigin] at hbound
      generalize ((items.map Import.new).filter (·.name = declared)).map (isStdPath ·.path) =
        origins at hbound hmem
      cases origins with
      | nil => cases hmem
      | cons first rest =>
          rw [agreed] at hbound
          split at hbound <;> cases hbound

/-- Where the name is taken for one of std, the order of the items matters through
the name that is read. -/
theorem decideIn_perm (hstd : TakenForStd items defined declared)
    (hperm : items'.Perm items) :
    decideIn alternatives items' defined declared = decideIn alternatives items defined declared ↔
      selected alternatives items' declared =
        selected alternatives items declared := by
  rw [decideIn_eq, decideIn_eq, if_pos ((takenForStd_perm hperm).mpr hstd), if_pos hstd]
  cases selected alternatives items' declared <;>
    cases selected alternatives items declared <;> simp

theorem determined_iff_of_path {root rest : Text} (h : breakOn colons declared = some (root, rest))
    (hstd : TakenForStd items defined declared) :
    Determined alternatives members items defined declared ↔
      (selection alternatives (lastSegment declared) ≠ none → if root = [] then isStdPath rest = true
        else ∀ item ∈ items, Brings members item root → isStdPath item.path = true) := by
  constructor
  · intro hdet hsel
    obtain ⟨canonical, hcanonical⟩ := Option.ne_none_iff_exists'.mp hsel
    have hmeant := hdet.meant canonical .receiverType
      (decideIn_eq_target.mpr ⟨hstd, by rwa [selected_path h], rfl⟩)
    split
    · next hroot => exact (hmeant _ _ (.crate (hroot ▸ h))).1
    · next hroot => exact fun item hitem hbrings => (hmeant _ _ (.path h hroot hitem hbrings)).1
  · intro hcond
    refine ⟨fun canonical basis htarget std name hmeans => ?_, fun items' hperm => ?_⟩
    · obtain ⟨-, hsel, -⟩ := decideIn_eq_target.mp htarget
      rw [selected_path h] at hsel
      have hthere := hcond (Option.ne_none_iff_exists'.mpr ⟨_, hsel⟩)
      cases hmeans with
      | crate h' =>
          cases h.symm.trans h'
          exact ⟨hthere, hsel⟩
      | path h' hroot hitem hbrings =>
          cases h.symm.trans h'
          rw [if_neg hroot] at hthere
          exact ⟨hthere _ hitem hbrings, hsel⟩
      | bound h' => cases h.symm.trans h'
      | member h' => cases h.symm.trans h'
      | ofFile h' => cases h.symm.trans h'
    · rw [decideIn_perm hstd hperm, selected_path h, selected_path h]

theorem determined_iff_of_bare (h : breakOn colons declared = none)
    (hstd : TakenForStd items defined declared) :
    Determined alternatives members items defined declared ↔ ∀ name ∈ readAs items declared,
      (∀ other ∈ readAs items declared, selection alternatives other = selection alternatives name) ∧
      (selection alternatives name ≠ none → ∀ item ∈ items, item.isGlob = true →
        members item.path declared = true → isStdPath item.path = true ∧
          selection alternatives (lastSegment declared) = selection alternatives name) := by
  constructor
  · intro hdet
    have hread : ∀ name ∈ readAs items declared, selection alternatives name =
        selected alternatives items declared := by
      intro name hname
      obtain ⟨items', hperm, rfl⟩ := exists_perm_read h hname
      exact (decideIn_perm hstd hperm).mp (hdet.ordered items' hperm)
    refine fun name hname => ⟨fun other hother => (hread other hother).trans (hread name hname).symm, ?_⟩
    intro hsel item hitem hglob hmember
    obtain ⟨canonical, hcanonical⟩ := Option.ne_none_iff_exists'.mp hsel
    have hmeant := hdet.meant canonical .receiverType
      (decideIn_eq_target.mpr ⟨hstd, (hread name hname).symm.trans hcanonical, rfl⟩)
    rw [hcanonical]
    exact hmeant _ _ (.member h hitem hglob hmember)
  · intro hcond
    have hown := hcond _ (originalName_mem h)
    refine ⟨fun canonical basis htarget std name hmeans => ?_, fun items' hperm => ?_⟩
    · obtain ⟨-, hsel, -⟩ := decideIn_eq_target.mp htarget
      obtain ⟨hdefined, hbound⟩ := isStdPath_of_bound h hstd
      cases hmeans with
      | crate h' => cases h.symm.trans h'
      | path h' => cases h.symm.trans h'
      | bound h' hitem hglob hname =>
          refine ⟨hbound _ hitem hname, (hown.1 _ ?_).trans hsel⟩
          exact mem_readAs.mpr (Or.inl ⟨_, hitem, hname, rfl⟩)
      | member h' hitem hglob hmember =>
          have hthere := hown.2 (Option.ne_none_iff_exists'.mpr ⟨_, hsel⟩) _ hitem hglob hmember
          exact ⟨hthere.1, hthere.2.trans hsel⟩
      | ofFile h' hmem => exact absurd hmem hdefined
    · exact (decideIn_perm hstd hperm).mpr
        (hown.1 _ ((readAs_perm hperm).mp (originalName_mem h)))

/-- A target is determined exactly where the items that give the name agree. -/
theorem determined_iff_agreeing (alternatives : List Alternative) (members : Text → Text → Bool)
    (items : List UseItem) (defined : Finset Text) (declared : Text) :
    Determined alternatives members items defined declared ↔
      Agreeing alternatives members items defined declared := by
  by_cases hstd : TakenForStd items defined declared
  · rw [Agreeing, forall_prop_of_true hstd]
    split
    · next root rest h => exact determined_iff_of_path h hstd
    · next h => exact determined_iff_of_bare h hstd
  · refine iff_of_true ⟨fun canonical basis h => absurd (decideIn_eq_target.mp h).1 hstd, ?_⟩
      fun h => absurd h hstd
    intro items' hperm
    rw [decideIn_eq, decideIn_eq, if_neg (hstd ∘ (takenForStd_perm hperm).mp), if_neg hstd]

section Example

private def writeFmt : List Alternative :=
  [⟨"core::fmt::Formatter::write_fmt".toList, ["Formatter".toList]⟩,
    ⟨"std::io::Write::write_fmt".toList, ["File".toList]⟩]

/-- `W` is a file in one inline module and a formatter in another. -/
private def twoMeanings : List UseItem :=
  [⟨"std::fs::File".toList, "W".toList, false⟩, ⟨"std::fmt::Formatter".toList, "W".toList, false⟩]

theorem two_std_bindings_not_determined :
    ¬ ∀ (alternatives : List Alternative) (members : Text → Text → Bool) (items : List UseItem)
      (defined : Finset Text) (declared : Text),
      Determined alternatives members items defined declared := by
  intro h
  have hdet := h writeFmt (fun _ _ => false) twoMeanings ∅ "W".toList
  have hmeant := hdet.meant "std::io::Write::write_fmt".toList .receiverType
    (decideIn_eq_target.mpr ⟨by decide +kernel, by decide +kernel, rfl⟩) _ _
    (.bound (by decide +kernel) (mem_cons_of_mem _ mem_cons_self) rfl (by decide))
  exact absurd hmeant.2 (by decide +kernel)

end Example

end MacroReceiver

end CodeGraph
