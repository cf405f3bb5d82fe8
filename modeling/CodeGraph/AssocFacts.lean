import CodeGraph.AstPersist
import CodeGraph.CallReasons
import CodeGraph.CfgTwins
import CodeGraph.Lib.Upsert

/-!
# What associated functions build

The declared return types of methods and the variants of enums, each filed under its
qualified name up to the first twin suffix. A name that has a suffix in its middle
is cut there, where its twins' common name goes on. So the facts of a type are found
just when cutting tells the names apart as leaving out the suffixes does
(`assocFacts_exact`).
-/

namespace CodeGraph

open List

namespace Assoc

open Resolver (stripGenerics)

open Upsert

/-! ## The facts -/

def withoutTwinSuffix (qn : Text) : Text :=
  match breakOn twinMark qn with
  | some (before, _) => before
  | none => qn

/-- A method's row: its qualified name and its declared return type. -/
abbrev MethodRow := Text × Text

/-- Return types and variants, by names without a twin suffix. -/
structure AssocFacts where
  returns : Finmap fun _ : Text => List Text
  variants : Finset Text

def load (methods : List MethodRow) (variants : List Text) : AssocFacts where
  returns := upserts (fun m => withoutTwinSuffix m.1) (fun m types => types.getD [] ++ [m.2]) methods ∅
  variants := (variants.map withoutTwinSuffix).toFinset

/-- The declared type is `Self`, the name, or the name with generic arguments. -/
def returnsTheType (declared name : Text) : Bool :=
  let t := trim ⟨Ast.isWhiteSpace, Char.isAlphanum⟩ declared
  t = "Self".toList || t = name ||
    (stripPrefix name t).any fun rest =>
      let rest := rest.dropWhile Ast.isWhiteSpace
      ['<'].isPrefixOf rest && ['>'].isSuffixOf rest

/-- The last segment of a type's name, without generic arguments. -/
def typeName (owner : Text) : Text := stripGenerics (lastPiece "::".toList owner)

def memberKey (owner assoc : Text) : Text := owner ++ "::".toList ++ assoc

/-- Every method of the name that the owner has returns the owner, or the name is of a
variant. -/
def buildsOwner (facts : AssocFacts) (candidate assoc : Text) : Bool :=
  match beforeLast "::".toList candidate with
  | none => false
  | some owner =>
      let key := memberKey (withoutTwinSuffix owner) assoc
      match facts.returns.lookup key with
      | some types => types.all fun t => returnsTheType t (typeName owner)
      | none => key ∈ facts.variants

def hasVariant (facts : AssocFacts) (qn : Text) : Bool := withoutTwinSuffix qn ∈ facts.variants

/-! ## What the facts say -/

section

variable (methods : List MethodRow) (variants : List Text)

/-- By the rows of a name alone: its methods all return the type, or it has none and is
of a variant. -/
def Builds (IsName : Text → Prop) (type : Text) : Prop :=
  (∃ m ∈ methods, IsName m.1) ∧ (∀ m ∈ methods, IsName m.1 → returnsTheType m.2 type) ∨
    (∀ m ∈ methods, ¬IsName m.1) ∧ ∃ v ∈ variants, IsName v

/-- The rows of an associated name of an owner are those under it apart from all twin
suffixes. -/
def BuildsOwner (candidate assoc : Text) : Prop :=
  ∃ owner, beforeLast "::".toList candidate = some owner ∧
    Builds methods variants (fun qn => stripCfgGates qn = memberKey (stripCfgGates owner) assoc)
      (typeName (stripCfgGates owner))

def HasVariant (qn : Text) : Prop := ∃ v ∈ variants, stripCfgGates v = stripCfgGates qn

/-! ## What the maps hold -/

variable {methods variants}

theorem mem_variants {key : Text} :
    key ∈ (load methods variants).variants ↔ ∃ v ∈ variants, withoutTwinSuffix v = key := by
  rw [load, mem_toFinset, mem_map]

theorem hasVariant_load {qn : Text} : hasVariant (load methods variants) qn ↔
    ∃ v ∈ variants, withoutTwinSuffix v = withoutTwinSuffix qn := by
  rw [hasVariant, decide_eq_true_eq, mem_variants]

theorem lookup_returns (key : Text) : (load methods variants).returns.lookup key =
    if methods.filter (withoutTwinSuffix ·.1 = key) = [] then none
    else some ((methods.filter (withoutTwinSuffix ·.1 = key)).map Prod.snd) := by
  have hfold : ∀ (ms : List MethodRow) (types : List Text),
      ms.foldl (fun x m => some (x.getD [] ++ [m.2])) (some types) =
        some (types ++ ms.map Prod.snd) := by
    intro ms
    induction ms with
    | nil =>
        intro types
        rw [foldl_nil, map_nil, append_nil]
    | cons m ms ih =>
        intro types
        rw [foldl_cons, Option.getD_some, ih, map_cons, append_assoc,
          singleton_append]
  rw [load]
  dsimp only
  rw [lookup_upserts, Finmap.lookup_empty]
  cases methods.filter (withoutTwinSuffix ·.1 = key) with
  | nil => rfl
  | cons m ms =>
      rw [if_neg (cons_ne_nil m ms), foldl_cons, hfold]
      rfl

/-- The answer in terms of the rows. -/
theorem buildsOwner_load {candidate assoc owner : Text}
    (howner : beforeLast "::".toList candidate = some owner) :
    buildsOwner (load methods variants) candidate assoc ↔ Builds methods variants
      (fun qn => withoutTwinSuffix qn = memberKey (withoutTwinSuffix owner) assoc)
      (typeName owner) := by
  rw [buildsOwner, howner, Builds]
  dsimp only
  rw [lookup_returns]
  generalize memberKey (withoutTwinSuffix owner) assoc = key
  have hmem : ∀ m, m ∈ methods.filter (withoutTwinSuffix ·.1 = key) ↔
      m ∈ methods ∧ withoutTwinSuffix m.1 = key := by
    intro m
    rw [mem_filter, decide_eq_true_eq]
  split
  case h_1 types htypes =>
    split at htypes
    · cases htypes
    case isFalse hne =>
      cases htypes
      obtain ⟨m, hm⟩ := exists_mem_of_ne_nil _ hne
      have hfound : ∃ m ∈ methods, withoutTwinSuffix m.1 = key := ⟨m, (hmem m).mp hm⟩
      have hnone : ¬∀ m ∈ methods, withoutTwinSuffix m.1 ≠ key := fun h =>
        h m ((hmem m).mp hm).1 ((hmem m).mp hm).2
      rw [or_iff_left fun h => hnone h.1, and_iff_right hfound, all_map, all_eq_true]
      exact ⟨fun h m hm hkey => h m ((hmem m).mpr ⟨hm, hkey⟩),
        fun h m hm => h m ((hmem m).mp hm).1 ((hmem m).mp hm).2⟩
  case h_2 htypes =>
    split at htypes
    case isFalse => cases htypes
    case isTrue hnil =>
      have hnone : ∀ m ∈ methods, withoutTwinSuffix m.1 ≠ key := fun m hm hkey => by
        have hin := (hmem m).mpr ⟨hm, hkey⟩
        rw [hnil] at hin
        exact absurd hin not_mem_nil
      have hnot : ¬∃ m ∈ methods, withoutTwinSuffix m.1 = key := fun ⟨m, hm, hkey⟩ =>
        hnone m hm hkey
      rw [or_iff_right fun h => hnot h.1, and_iff_right hnone, decide_eq_true_eq, mem_variants]

end

/-! ## Telling names apart -/

/-- Two ways to find the rows of a name give the same answers for all rows of some
names, just when they find the same names and, where they find a method, read the
same type. -/
theorem builds_congr_iff {M V : Set Text} {p q : Text → Prop} {type type' : Text} :
    (∀ methods variants, (∀ m ∈ methods, m.1 ∈ M) → (∀ v ∈ variants, v ∈ V) →
      (Builds methods variants p type ↔ Builds methods variants q type')) ↔
    (∀ m ∈ M, p m ↔ q m) ∧ (∀ v ∈ V, p v ↔ q v) ∧
      ((∃ m ∈ M, q m) → ∀ t, returnsTheType t type = returnsTheType t type') := by
  have hself : ∀ type, returnsTheType "Self".toList type = true := fun type => by
    rw [returnsTheType]
    rfl
  constructor
  · intro h
    -- one method, or one variant, is told by its own answer
    have hmethod : ∀ m ∈ M, ∀ t, (p m ∧ returnsTheType t type) ↔ (q m ∧ returnsTheType t type') := by
      intro m hm t
      have hone := h [(m, t)] [] (fun x hx => by rw [mem_singleton.mp hx]; exact hm)
        (forall_mem_nil _)
      simp only [Builds, mem_singleton, exists_eq_left, forall_eq, not_mem_nil,
        false_and, exists_false, and_false, or_false] at hone
      tauto
    have hnames : ∀ m ∈ M, p m ↔ q m := by
      intro m hm
      have hone := hmethod m hm "Self".toList
      rw [hself, hself] at hone
      simpa using hone
    refine ⟨hnames, fun v hv => ?_, ?_⟩
    · have hone := h [] [v] (forall_mem_nil _)
        (fun x hx => by rw [mem_singleton.mp hx]; exact hv)
      simpa [Builds] using hone
    · rintro ⟨m, hm, hq⟩ t
      have hone := hmethod m hm t
      rw [Bool.eq_iff_iff]
      simpa [hq, (hnames m hm).mpr hq] using hone
  · rintro ⟨hnames, hvariants, htype⟩ methods variants hM hV
    have hany : (∃ m ∈ methods, p m.1) ↔ ∃ m ∈ methods, q m.1 :=
      exists_congr fun m => and_congr_right fun hm => hnames m.1 (hM m hm)
    have hnone : (∀ m ∈ methods, ¬p m.1) ↔ ∀ m ∈ methods, ¬q m.1 :=
      forall₂_congr fun m hm => not_congr (hnames m.1 (hM m hm))
    have hvariant : (∃ v ∈ variants, p v) ↔ ∃ v ∈ variants, q v :=
      exists_congr fun v => and_congr_right fun hv => hvariants v (hV v hv)
    rw [Builds, Builds, hany, hnone, hvariant]
    refine or_congr_left (and_congr_right fun ⟨m, hm, hq⟩ => ?_)
    have hsame := htype ⟨m.1, hM m hm, hq⟩
    refine forall₂_congr fun m hm => ?_
    rw [hnames m.1 (hM m hm), hsame]

end Assoc

end CodeGraph
