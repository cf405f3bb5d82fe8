import Mathlib.Data.Finset.Insert
import CodeGraph.CfgLex
import CodeGraph.Lib.Kleene
import CodeGraph.Lib.Percent
import CodeGraph.Lib.SortDedup

/-!
# `#[cfg]` predicates

The predicate of a `#[cfg(...)]` attribute: its parser, its three-valued
evaluation under a build profile, its canonical form, and the compact text
that ends up inside item ids.
-/

namespace CodeGraph

open Kleene (Truth)

/-! ## Predicates -/

def kwFeature : Text := "feature".toList

def kwAll : Text := "all".toList

def kwAny : Text := "any".toList

def kwNot : Text := "not".toList

/-- A parsed configuration predicate. `option` is any option other than
`feature = "..."`; its value is `none` for a bare name (`unix`, `kani`). -/
inductive CfgPredicate where
  | feature (name : Text)
  | option (key : Text) (value : Option Text)
  | all (items : List CfgPredicate)
  | any (items : List CfgPredicate)
  | not (inner : CfgPredicate)
  deriving Repr

namespace CfgPredicate

mutual

def decEq : (p q : CfgPredicate) → Decidable (p = q)
  | .feature a, .feature b =>
      if h : a = b then isTrue (h ▸ rfl) else isFalse fun e => h (by injection e)
  | .option a v, .option b w =>
      if h : a = b ∧ v = w then isTrue (h.1 ▸ h.2 ▸ rfl)
      else isFalse fun e => h (by injection e; exact ⟨‹_›, ‹_›⟩)
  | .all ps, .all qs =>
      match decEqList ps qs with
      | isTrue h => isTrue (h ▸ rfl)
      | isFalse h => isFalse fun e => h (by injection e)
  | .any ps, .any qs =>
      match decEqList ps qs with
      | isTrue h => isTrue (h ▸ rfl)
      | isFalse h => isFalse fun e => h (by injection e)
  | .not p, .not q =>
      match decEq p q with
      | isTrue h => isTrue (h ▸ rfl)
      | isFalse h => isFalse fun e => h (by injection e)
  | .feature _, .option .. | .feature _, .all _ | .feature _, .any _ | .feature _, .not _
  | .option .., .feature _ | .option .., .all _ | .option .., .any _ | .option .., .not _
  | .all _, .feature _ | .all _, .option .. | .all _, .any _ | .all _, .not _
  | .any _, .feature _ | .any _, .option .. | .any _, .all _ | .any _, .not _
  | .not _, .feature _ | .not _, .option .. | .not _, .all _ | .not _, .any _ =>
      isFalse nofun

def decEqList : (ps qs : List CfgPredicate) → Decidable (ps = qs)
  | [], [] => isTrue rfl
  | [], _ :: _ => isFalse nofun
  | _ :: _, [] => isFalse nofun
  | p :: ps, q :: qs =>
      match decEq p q, decEqList ps qs with
      | isTrue h, isTrue hs => isTrue (h ▸ hs ▸ rfl)
      | isFalse h, _ => isFalse fun e => h (by injection e)
      | _, isFalse hs => isFalse fun e => hs (by injection e)

end

instance : DecidableEq CfgPredicate := decEq

/-- `all` or `any`, by a flag. -/
def group (isAll : Bool) (items : List CfgPredicate) : CfgPredicate :=
  if isAll then .all items else .any items

@[simp] theorem group_true (items : List CfgPredicate) : group true items = .all items := rfl

@[simp] theorem group_false (items : List CfgPredicate) : group false items = .any items := rfl

theorem groupInduction {motive : CfgPredicate → Prop}
    (feature : ∀ name, motive (.feature name))
    (option : ∀ key value, motive (.option key value))
    (group : ∀ isAll items, (∀ p ∈ items, motive p) → motive (group isAll items))
    (not : ∀ inner, motive inner → motive (.not inner)) (p : CfgPredicate) : motive p :=
  @CfgPredicate.rec motive (fun items => ∀ p ∈ items, motive p) feature option
    (fun items ih => group true items ih) (fun items ih => group false items ih) not
    (fun _ h => absurd h List.not_mem_nil)
    (fun _ _ hhead htail _ hp => by
      rcases List.mem_cons.mp hp with rfl | hp
      · exact hhead
      · exact htail _ hp) p

/-! ## Evaluation -/

mutual

def evalWith (enabled : Finset Text) (options : Text → Option Bool) : CfgPredicate → Truth
  | .feature f => if f ∈ enabled then .true else .false
  | .option key none =>
      match options key with
      | some true => .true
      | some false => .false
      | none => .unknown
  | .option _ (some _) => .unknown
  | .all items => fold enabled options .false .true items
  | .any items => fold enabled options .true .false items
  | .not inner =>
      match inner.evalWith enabled options with
      | .true => .false
      | .false => .true
      | .unknown => .unknown

/-- The loop over the items of a group; `result` is what it holds so far. -/
def fold (enabled : Finset Text) (options : Text → Option Bool) (absorbing : Truth) :
    (result : Truth) → List CfgPredicate → Truth
  | result, [] => result
  | result, item :: items =>
      let t := item.evalWith enabled options
      if t = absorbing then absorbing
      else if t = .unknown then fold enabled options absorbing .unknown items
      else fold enabled options absorbing result items

end

/-- The loop is the short-circuiting loop over the items' values. -/
theorem fold_eq (enabled : Finset Text) (options : Text → Option Bool) (absorbing : Truth) :
    ∀ (items : List CfgPredicate) (result : Truth),
      fold enabled options absorbing result items =
        Truth.fold absorbing result (items.map (evalWith enabled options))
  | [], _ => rfl
  | item :: items, result => by
      simp only [fold, List.map_cons, Truth.fold, fold_eq _ _ _ items]

theorem evalWith_group (enabled : Finset Text) (options : Text → Option Bool) (isAll : Bool)
    (items : List CfgPredicate) : (group isAll items).evalWith enabled options =
      Truth.connect isAll (items.map (evalWith enabled options)) := by
  cases isAll with
  | true => exact (fold_eq _ _ _ items .true).trans (Truth.fold_conj _)
  | false => exact (fold_eq _ _ _ items .false).trans (Truth.fold_disj _)

theorem evalWith_not (enabled : Finset Text) (options : Text → Option Bool) (p : CfgPredicate) :
    (CfgPredicate.not p).evalWith enabled options = (p.evalWith enabled options).neg := by
  rw [evalWith]
  cases p.evalWith enabled options <;> rfl

end CfgPredicate

/-- The bare options no plain build sets, whatever the target or the features. -/
def neverSetByAPlainBuild : List Text :=
  ["kani".toList, "miri".toList, "doc".toList, "doctest".toList]

/-- One build the graph can be read under: the features it enables and the
bare options it decides; an option it does not decide is `none`. -/
structure BuildProfile where
  features : Finset Text
  options : Text → Option Bool

/-- The default profile: the options no plain build sets are fixed to false. -/
def BuildProfile.withFeatures (features : Finset Text) : BuildProfile where
  features := features
  options := fun name => if name ∈ neverSetByAPlainBuild then some false else none

theorem BuildProfile.withFeatures_options {features : Finset Text} {name : Text}
    (h : name ∈ neverSetByAPlainBuild) : (withFeatures features).options name = some false := by
  simp [withFeatures, h]

namespace CfgPredicate

/-- Evaluation that decides no option: the reading of a module reported as
compiled out by a disabled feature. -/
def eval (p : CfgPredicate) (enabled : Finset Text) : Truth :=
  p.evalWith enabled fun _ => none

def evalIn (p : CfgPredicate) (profile : BuildProfile) : Truth :=
  p.evalWith profile.features profile.options

/-! ## The compact text -/

/-- The bytes `encode` keeps as they are. -/
def isPlainByte (byte : UInt8) : Bool :=
  (48 ≤ byte && byte ≤ 57) || (65 ≤ byte && byte ≤ 90) || (97 ≤ byte && byte ≤ 122) ||
    byte = 95 || byte = 45

/-- Percent-encodes every byte outside `[A-Za-z0-9_-]`. -/
def encode (text : Text) : Text := Percent.encode isPlainByte text

mutual

def compact : CfgPredicate → Text
  | .feature name => kwFeature ++ '=' :: encode name
  | .option key none => encode key
  | .option key (some v) => encode key ++ '=' :: encode v
  | .all items => kwAll ++ '(' :: (compactList items ++ [')'])
  | .any items => kwAny ++ '(' :: (compactList items ++ [')'])
  | .not inner => kwNot ++ '(' :: (inner.compact ++ [')'])

def compactList : List CfgPredicate → Text
  | [] => []
  | [item] => item.compact
  | item :: items => item.compact ++ ',' :: compactList items

end

/-! ## The canonical form -/

/-- The end of `join`: sort, drop repetitions, unwrap a group of one. -/
def joinFlat (isAll : Bool) (flat : List CfgPredicate) : CfgPredicate :=
  match SortDedup.sortDedup compact flat with
  | [only] => only
  | flat => group isAll flat

/-- What one canonical item of a group adds to its flat list. -/
def spliced (isAll : Bool) : CfgPredicate → List CfgPredicate
  | .all inner => if isAll then inner else [.all inner]
  | .any inner => if isAll then [.any inner] else inner
  | other => [other]

mutual

/-- The canonical form: nested groups of one kind flattened, items sorted,
repetitions removed, a one-item group unwrapped, double negations folded. -/
def canonical : CfgPredicate → CfgPredicate
  | .all items => joinFlat true (flatten true items)
  | .any items => joinFlat false (flatten false items)
  | .not inner =>
      match inner.canonical with
      | .not twice => twice
      | other => .not other
  | .feature name => .feature name
  | .option key value => .option key value

/-- The loop of `join`. -/
def flatten (isAll : Bool) : List CfgPredicate → List CfgPredicate
  | [] => []
  | item :: items => spliced isAll item.canonical ++ flatten isAll items

end

/-! ## The parser -/

mutual

def parsePredicate : Nat → List Token → Option (CfgPredicate × List Token)
  | _ + 1, .ident name :: .eq :: .str value :: rest =>
      if name = kwFeature then some (.feature value, rest)
      else some (.option name (some value), rest)
  | _ + 1, .ident _ :: .eq :: _ => none
  | fuel + 1, .ident name :: .open :: rest => do
      let (items, rest) ← parseList fuel rest
      if name = kwAll then some (.all items, rest)
      else if name = kwAny then some (.any items, rest)
      else if name = kwNot then
        match items with
        | [inner] => some (.not inner, rest)
        | _ => none
      else none
  | _ + 1, .ident name :: rest => some (.option name none, rest)
  | _, _ => none

/-- A comma-separated predicate list after `(`, trailing comma allowed,
consuming the closing `)`. -/
def parseList : Nat → List Token → Option (List CfgPredicate × List Token)
  | _ + 1, .close :: rest => some ([], rest)
  | fuel + 1, tokens => do
      let (item, rest) ← parsePredicate fuel tokens
      match rest with
      | .comma :: rest =>
          let (items, rest) ← parseList fuel rest
          some (item :: items, rest)
      | .close :: rest => some ([item], rest)
      | _ => none
  | 0, _ => none

end

/-- Fuel enough for every call: a list and the predicate that opens it read
the same tokens, everything else reads strictly fewer. -/
def parseFuel (tokens : List Token) : Nat := 2 * tokens.length + 2

/-- Parses the argument text of a `cfg` attribute, parentheses included. -/
def parseCfgArguments (cc : CharClass) (text : Text) : Option CfgPredicate := do
  let tokens ← tokenize cc (withoutComments text)
  match tokens with
  | .open :: tokens =>
      let (predicate, rest) ← parsePredicate (parseFuel tokens) tokens
      match rest with
      | [.comma, .close] => some predicate
      | [.close] => some predicate
      | _ => none
  | _ => none

/-! ### What the parser reads -/

theorem group_cases {α : Type} {name : Text} {items : List CfgPredicate} {rest after : List α}
    {p : CfgPredicate}
    (h : (if name = kwAll then some (.all items, after)
      else if name = kwAny then some (.any items, after)
      else if name = kwNot then
        match items with
        | [inner] => some (.not inner, after)
        | _ => none
      else none) = some (p, rest)) :
    after = rest ∧
      ((∃ isAll, p = group isAll items) ∨ ∃ inner, items = [inner] ∧ p = .not inner) := by
  split at h
  · cases h
    exact ⟨rfl, Or.inl ⟨true, rfl⟩⟩
  · split at h
    · cases h
      exact ⟨rfl, Or.inl ⟨false, rfl⟩⟩
    · split at h
      · split at h
        · next inner =>
          cases h
          exact ⟨rfl, Or.inr ⟨inner, rfl, rfl⟩⟩
        · cases h
      · cases h

/-- What a successful call read: a leaf, a group or a negation. -/
theorem parsePredicate_cases {fuel : Nat} {tokens rest : List Token} {p : CfgPredicate}
    (h : parsePredicate (fuel + 1) tokens = some (p, rest)) :
    (∃ value, tokens = .ident kwFeature :: .eq :: .str value :: rest ∧
      p = .feature value) ∨
    (∃ name value, tokens = .ident name :: .eq :: .str value :: rest ∧
      name ≠ kwFeature ∧ p = .option name (some value)) ∨
    (∃ name tail items, tokens = .ident name :: .open :: tail ∧
      parseList fuel tail = some (items, rest) ∧
      ((∃ isAll, p = group isAll items) ∨ ∃ inner, items = [inner] ∧ p = .not inner)) ∨
    (∃ name, tokens = .ident name :: rest ∧ p = .option name none) := by
  rw [parsePredicate.eq_def] at h
  split at h
  · next name value tail heq =>
    cases heq
    split at h
    · next hname =>
      cases h
      exact Or.inl ⟨value, by rw [hname], rfl⟩
    · next hname =>
      cases h
      exact Or.inr (Or.inl ⟨name, value, rfl, hname, rfl⟩)
  · cases h
  · next name tail heq =>
    cases heq
    obtain ⟨⟨items, after⟩, hlist, h⟩ := Option.bind_eq_some_iff.mp h
    refine Or.inr (Or.inr (Or.inl ⟨name, tail, items, rfl, ?_⟩))
    obtain ⟨rfl, hgroup⟩ := group_cases h
    exact ⟨hlist, hgroup⟩
  · next name tail _ _ _ heq =>
    cases heq
    cases h
    exact Or.inr (Or.inr (Or.inr ⟨name, rfl, rfl⟩))
  · cases h

theorem parseList_cases {fuel : Nat} {tokens rest : List Token} {items : List CfgPredicate}
    (h : parseList (fuel + 1) tokens = some (items, rest)) :
    (tokens = .close :: rest ∧ items = []) ∨
    ∃ item items' tail, parsePredicate fuel tokens = some (item, tail) ∧ items = item :: items' ∧
      ((tail = .close :: rest ∧ items' = []) ∨
        ∃ tail', tail = .comma :: tail' ∧ parseList fuel tail' = some (items', rest)) := by
  rw [parseList.eq_def] at h
  split at h
  · next heq =>
    cases heq
    cases h
    exact Or.inl ⟨rfl, rfl⟩
  · next hfuel _ =>
    cases hfuel
    obtain ⟨⟨item, tail⟩, hitem, h⟩ := Option.bind_eq_some_iff.mp h
    refine Or.inr ⟨item, ?_⟩
    dsimp only at h
    split at h
    · next tail' =>
      obtain ⟨⟨items', after⟩, hlist, h⟩ := Option.bind_eq_some_iff.mp h
      cases h
      exact ⟨items', _, hitem, rfl, Or.inr ⟨tail', rfl, hlist⟩⟩
    · cases h
      exact ⟨[], _, hitem, rfl, Or.inl ⟨rfl, rfl⟩⟩
    · cases h
  · cases h

/-! ### Leaves

The options a predicate is made of, and what the parser guarantees of each. -/

mutual

/-- The leaves of a predicate, from left to right. -/
def leaves : CfgPredicate → List CfgPredicate
  | .feature name => [.feature name]
  | .option key value => [.option key value]
  | .all items => leavesOf items
  | .any items => leavesOf items
  | .not inner => inner.leaves

def leavesOf : List CfgPredicate → List CfgPredicate
  | [] => []
  | item :: items => item.leaves ++ leavesOf items

end

theorem leavesOf_eq : ∀ items : List CfgPredicate, leavesOf items = items.flatMap leaves
  | [] => rfl
  | item :: items => by rw [leavesOf, leavesOf_eq items, List.flatMap_cons]

@[simp] theorem mem_leaves_group {isAll : Bool} {items : List CfgPredicate} {leaf : CfgPredicate} :
    leaf ∈ (group isAll items).leaves ↔ ∃ p ∈ items, leaf ∈ p.leaves := by
  cases isAll <;> simp [leaves, leavesOf_eq]

/-- A leaf the parser can write: a key is an identifier, and `feature = "..."`
is never kept as an option. -/
def LeafOK : CfgPredicate → Prop
  | .option key value => key ≠ [] ∧ (value ≠ none → key ≠ kwFeature)
  | _ => True

/-- Every leaf is one the parser can write. -/
def WellFormed (p : CfgPredicate) : Prop := ∀ leaf ∈ p.leaves, LeafOK leaf

@[simp] theorem wellFormed_group {isAll : Bool} {items : List CfgPredicate} :
    (group isAll items).WellFormed ↔ ∀ p ∈ items, p.WellFormed := by
  simp only [WellFormed, mem_leaves_group]
  exact ⟨fun h p hp leaf hl => h leaf ⟨p, hp, hl⟩, fun h leaf ⟨p, hp, hl⟩ => h p hp leaf hl⟩

@[simp] theorem wellFormed_not {inner : CfgPredicate} :
    (CfgPredicate.not inner).WellFormed ↔ inner.WellFormed := Iff.rfl

theorem wellFormed_of_nil : ∀ all ∈ some ([] : List CfgPredicate), ∀ p ∈ all, p.WellFormed := by
  rintro all ⟨⟩ p hp
  cases hp

theorem wellFormed_feature (name : Text) : (CfgPredicate.feature name).WellFormed := by
  simp [WellFormed, leaves, LeafOK]

theorem wellFormed_option {key : Text} {value : Option Text} :
    (CfgPredicate.option key value).WellFormed ↔
      key ≠ [] ∧ (value ≠ none → key ≠ kwFeature) := by
  simp [WellFormed, leaves, LeafOK]

/-- The parser reads a suffix of its tokens, and well-formed predicates from
identifiers that are not empty. -/
theorem parse_wellFormed : ∀ (fuel : Nat) {tokens rest : List Token},
    (∀ name, .ident name ∈ tokens → name ≠ []) →
    (∀ {p : CfgPredicate}, parsePredicate fuel tokens = some (p, rest) →
      p.WellFormed ∧ rest <:+ tokens) ∧
    (∀ {items : List CfgPredicate}, parseList fuel tokens = some (items, rest) →
      (∀ p ∈ items, p.WellFormed) ∧ rest <:+ tokens)
  | 0, _, _, _ => ⟨nofun, nofun⟩
  | fuel + 1, tokens, rest, hident => by
      refine ⟨fun h => ?_, fun h => ?_⟩
      · obtain ⟨value, rfl, rfl⟩ | ⟨name, value, rfl, hname, rfl⟩ |
          ⟨name, tail, items, rfl, hlist, hp⟩ | ⟨name, rfl, rfl⟩ := parsePredicate_cases h
        · exact ⟨wellFormed_feature value, ⟨_ :: _ :: _ :: [], rfl⟩⟩
        · refine ⟨wellFormed_option.mpr ⟨hident _ (by simp), fun _ => hname⟩, ?_⟩
          exact ⟨_ :: _ :: _ :: [], rfl⟩
        · have htail : ∀ name, .ident name ∈ tail → name ≠ [] := fun name hn =>
            hident name (by simp [hn])
          obtain ⟨hitems, hsuffix⟩ := (parse_wellFormed fuel htail).2 hlist
          refine ⟨?_, hsuffix.trans ⟨_ :: _ :: [], rfl⟩⟩
          obtain ⟨isAll, rfl⟩ | ⟨inner, rfl, rfl⟩ := hp
          · exact wellFormed_group.mpr hitems
          · exact hitems inner (by simp)
        · refine ⟨wellFormed_option.mpr ⟨hident _ (by simp), fun h => absurd rfl h⟩, ?_⟩
          exact ⟨_ :: [], rfl⟩
      · obtain ⟨rfl, rfl⟩ | ⟨item, items', tail, hitem, rfl, htail⟩ := parseList_cases h
        · exact ⟨by simp, ⟨_ :: [], rfl⟩⟩
        · obtain ⟨hwf, hsuffix⟩ := (parse_wellFormed fuel hident).1 hitem
          obtain ⟨rfl, rfl⟩ | ⟨tail', rfl, hlist⟩ := htail
          · exact ⟨by simpa using hwf, (List.suffix_cons _ _).trans hsuffix⟩
          · have hsuffix' : tail' <:+ tokens := (List.suffix_cons _ _).trans hsuffix
            obtain ⟨hitems, hrest⟩ := (parse_wellFormed fuel
              fun name hn => hident name (hsuffix'.subset hn)).2 hlist
            refine ⟨fun p hp => ?_, hrest.trans hsuffix'⟩
            rcases List.mem_cons.mp hp with rfl | hp
            · exact hwf
            · exact hitems p hp

theorem parseCfgArguments_wellFormed {cc : CharClass} {text : Text} {p : CfgPredicate}
    (h : parseCfgArguments cc text = some p) : p.WellFormed := by
  obtain ⟨tokens, htokens, h⟩ := Option.bind_eq_some_iff.mp h
  match tokens, h with
  | .open :: tokens, h =>
      obtain ⟨⟨q, rest⟩, hq, h⟩ := Option.bind_eq_some_iff.mp h
      have hwf : q.WellFormed := ((parse_wellFormed _ fun name hn =>
        tokenize_ident_ne_nil htokens (List.mem_cons_of_mem _ hn)).1 hq).1
      have hpq : p = q := by
        dsimp only at h
        split at h <;> simp_all
      exact hpq ▸ hwf

end CfgPredicate

end CodeGraph
