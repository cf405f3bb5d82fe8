import CodeGraph.CfgCompact

/-!
# The canonical form

`canonical` flattens, sorts, drops repetitions, unwraps and folds double
negations in one pass. The one fact behind everything here is that a group's
canonical form depends on the *set* of its members alone: `joinFlat` sorts by
the compact text, which tells well-formed predicates apart, so two flat lists
with the same members join to the same predicate (`joinFlat_congr`).

`Canon` is what comes out: no group of one, no group directly inside a group
of its kind, members strictly sorted, no double negation.
-/

namespace CodeGraph

open List

namespace CfgPredicate

open Kleene (Truth)

/-! ## Groups -/

theorem spliced_group (isAll : Bool) (items : List CfgPredicate) :
    spliced isAll (group isAll items) = items := by
  cases isAll <;> rfl

/-- `p` is not a group of the given kind. -/
def NotGroup (isAll : Bool) (p : CfgPredicate) : Prop := ∀ items, p ≠ group isAll items

theorem spliced_of_notGroup {isAll : Bool} {p : CfgPredicate} (h : NotGroup isAll p) :
    spliced isAll p = [p] := by
  cases isAll with
  | true =>
      cases p with
      | all items => exact absurd rfl (h items)
      | _ => rfl
  | false =>
      cases p with
      | any items => exact absurd rfl (h items)
      | _ => rfl

theorem group_or_notGroup (isAll : Bool) (p : CfgPredicate) :
    (∃ items, p = group isAll items) ∨ NotGroup isAll p := by
  by_cases h : ∃ items, p = group isAll items
  · exact Or.inl h
  · exact Or.inr fun items he => h ⟨items, he⟩

theorem canonical_group (isAll : Bool) (items : List CfgPredicate) :
    (group isAll items).canonical =
      joinFlat isAll (items.flatMap fun p => spliced isAll p.canonical) := by
  have hflatten : ∀ items : List CfgPredicate,
      flatten isAll items = items.flatMap fun p => spliced isAll p.canonical := by
    intro items
    induction items with
    | nil => rfl
    | cons p items ih => rw [flatten, ih, flatMap_cons]
  cases isAll <;> simp only [group_true, group_false, canonical, hflatten]

theorem canonical_not (p : CfgPredicate) :
    (∃ q, p.canonical = .not q ∧ (CfgPredicate.not p).canonical = q) ∨
      ((∀ q, p.canonical ≠ .not q) ∧ (CfgPredicate.not p).canonical = .not p.canonical) := by
  cases h : p.canonical with
  | not q => exact Or.inl ⟨q, rfl, by simp [canonical, h]⟩
  | _ => exact Or.inr ⟨nofun, by simp [canonical, h]⟩

/-! ## The join of a flat list -/

/-- A list of well-formed predicates: what the sort by compact text needs. -/
def AllWellFormed (l : List CfgPredicate) : Prop := ∀ p ∈ l, p.WellFormed

theorem AllWellFormed.keyInjective {l : List CfgPredicate} (h : AllWellFormed l) :
    SortDedup.KeyInjective compact l :=
  fun p hp q hq => compact_injective (h p hp) (h q hq)

theorem joinFlat_congr {isAll : Bool} {l m : List CfgPredicate} (hl : AllWellFormed l)
    (h : ∀ p, p ∈ l ↔ p ∈ m) : joinFlat isAll l = joinFlat isAll m := by
  rw [joinFlat, joinFlat, SortDedup.sortDedup_eq_of_mem_iff hl.keyInjective h]

theorem joinFlat_cases (isAll : Bool) (l : List CfgPredicate) :
    (∃ p, SortDedup.sortDedup compact l = [p] ∧ joinFlat isAll l = p) ∨
      ((SortDedup.sortDedup compact l).length ≠ 1 ∧
        joinFlat isAll l = group isAll (SortDedup.sortDedup compact l)) := by
  unfold joinFlat
  split
  · next p h => exact Or.inl ⟨p, h, rfl⟩
  · next h =>
    refine Or.inr ⟨fun hlen => ?_, rfl⟩
    obtain ⟨p, hp⟩ := length_eq_one_iff.mp hlen
    exact h p hp

theorem joinFlat_singleton (isAll : Bool) (p : CfgPredicate) : joinFlat isAll [p] = p := by
  obtain ⟨q, hq, h⟩ | ⟨hne, -⟩ := joinFlat_cases isAll [p]
  · have hpq : p ∈ [q] := hq ▸ SortDedup.mem_sortDedup.mpr (mem_singleton_self p)
    rw [h, mem_singleton.mp hpq]
  · exact absurd rfl hne

/-- Splicing a join into a group of its kind gives back its members, provided
none of them would be spliced again. -/
theorem mem_spliced_joinFlat {isAll : Bool} {l : List CfgPredicate}
    (h : ∀ p ∈ l, NotGroup isAll p) {p : CfgPredicate} :
    p ∈ spliced isAll (joinFlat isAll l) ↔ p ∈ l := by
  obtain ⟨q, hq, hjoin⟩ | ⟨-, hjoin⟩ := joinFlat_cases isAll l
  · have hmem : ∀ p, p ∈ l ↔ p = q := fun p => by
      rw [← mem_singleton, ← hq, SortDedup.mem_sortDedup]
    rw [hjoin, spliced_of_notGroup (h q ((hmem q).mpr rfl)), mem_singleton, hmem]
  · rw [hjoin, spliced_group, SortDedup.mem_sortDedup]

/-! ## Canonical predicates -/

/-- The shape of a canonical form. -/
inductive Canon : CfgPredicate → Prop
  | feature (name : Text) : Canon (.feature name)
  | option (key : Text) (value : Option Text) : Canon (.option key value)
  | group (isAll : Bool) (items : List CfgPredicate)
      (members : ∀ p ∈ items, Canon p) (flat : ∀ p ∈ items, NotGroup isAll p)
      (sorted : items.Pairwise fun p q => p.compact < q.compact)
      (notOne : items.length ≠ 1) : Canon (group isAll items)
  | not (inner : CfgPredicate) (canon : Canon inner)
      (single : ∀ q, inner ≠ .not q) : Canon (.not inner)

theorem Canon.of_group {isAll : Bool} {items : List CfgPredicate}
    (h : Canon (CfgPredicate.group isAll items)) :
    (∀ p ∈ items, Canon p) ∧ (∀ p ∈ items, NotGroup isAll p) ∧
      (items.Pairwise fun p q => p.compact < q.compact) ∧ items.length ≠ 1 := by
  generalize hp : CfgPredicate.group isAll items = p at h
  cases h with
  | group isAll' items' members flat sorted notOne =>
      have : isAll' = isAll ∧ items' = items := by
        cases isAll <;> cases isAll' <;> simp_all
      obtain ⟨rfl, rfl⟩ := this
      exact ⟨members, flat, sorted, notOne⟩
  | _ => cases isAll <;> cases hp

theorem Canon.of_not {inner : CfgPredicate} (h : Canon (.not inner)) :
    Canon inner ∧ ∀ q, inner ≠ .not q := by
  generalize hp : CfgPredicate.not inner = p at h
  cases h with
  | not inner canon single =>
      cases hp
      exact ⟨canon, single⟩
  | group isAll items => cases isAll <;> cases hp
  | _ => cases hp

/-- The members a canonical predicate adds to a group are canonical and not
groups of its kind. -/
theorem Canon.spliced {isAll : Bool} {p : CfgPredicate} (h : Canon p) :
    ∀ q ∈ CfgPredicate.spliced isAll p, Canon q ∧ NotGroup isAll q := by
  obtain ⟨items, rfl⟩ | hnot := group_or_notGroup isAll p
  · obtain ⟨members, flat, -, -⟩ := h.of_group
    rw [spliced_group]
    intro q hq
    exact ⟨members q hq, flat q hq⟩
  · rw [spliced_of_notGroup hnot]
    rintro q hq
    obtain rfl := mem_singleton.mp hq
    exact ⟨h, hnot⟩

theorem Canon.joinFlat_spliced {isAll : Bool} {p : CfgPredicate} (h : Canon p) :
    CfgPredicate.joinFlat isAll (CfgPredicate.spliced isAll p) = p := by
  obtain ⟨items, rfl⟩ | hnot := group_or_notGroup isAll p
  · obtain ⟨-, -, sorted, notOne⟩ := h.of_group
    rw [spliced_group]
    obtain ⟨q, hq, -⟩ | ⟨-, hjoin⟩ := joinFlat_cases isAll items
    · rw [SortDedup.sortDedup_eq_self sorted] at hq
      exact absurd (by rw [hq]; rfl) notOne
    · rw [hjoin, SortDedup.sortDedup_eq_self sorted]
  · rw [spliced_of_notGroup hnot, joinFlat_singleton]

theorem Canon.joinFlat {isAll : Bool} {l : List CfgPredicate} (hwf : AllWellFormed l)
    (h : ∀ p ∈ l, Canon p ∧ NotGroup isAll p) : Canon (CfgPredicate.joinFlat isAll l) := by
  have hmem : ∀ p ∈ SortDedup.sortDedup compact l, p ∈ l := fun p => SortDedup.mem_sortDedup.mp
  obtain ⟨q, hq, hjoin⟩ | ⟨hne, hjoin⟩ := joinFlat_cases isAll l
  · rw [hjoin]
    exact (h q (hmem q (by simp [hq]))).1
  · rw [hjoin]
    exact .group isAll _ (fun p hp => (h p (hmem p hp)).1) (fun p hp => (h p (hmem p hp)).2)
      (SortDedup.pairwise_sortDedup hwf.keyInjective) hne

/-! ## Leaves are kept -/

theorem leaves_spliced {isAll : Bool} {p leaf : CfgPredicate} :
    (∃ q ∈ spliced isAll p, leaf ∈ q.leaves) ↔ leaf ∈ p.leaves := by
  obtain ⟨items, rfl⟩ | hnot := group_or_notGroup isAll p
  · rw [spliced_group, mem_leaves_group]
  · simp [spliced_of_notGroup hnot]

theorem leaves_joinFlat {isAll : Bool} {l : List CfgPredicate} {leaf : CfgPredicate} :
    leaf ∈ (joinFlat isAll l).leaves ↔ ∃ p ∈ l, leaf ∈ p.leaves := by
  obtain ⟨q, hq, hjoin⟩ | ⟨-, hjoin⟩ := joinFlat_cases isAll l
  · have hmem : ∀ p, p ∈ l ↔ p = q := fun p => by
      rw [← mem_singleton, ← hq, SortDedup.mem_sortDedup]
    simp [hjoin, hmem]
  · simp [hjoin]

theorem mem_leaves_canonical (p : CfgPredicate) {leaf : CfgPredicate} :
    leaf ∈ p.canonical.leaves ↔ leaf ∈ p.leaves := by
  induction p using groupInduction with
  | feature name => rfl
  | option key value => rfl
  | group isAll items ih =>
      rw [canonical_group, leaves_joinFlat, mem_leaves_group]
      simp only [mem_flatMap]
      constructor
      · rintro ⟨q, ⟨p, hp, hq⟩, hleaf⟩
        exact ⟨p, hp, (ih p hp).mp (leaves_spliced.mp ⟨q, hq, hleaf⟩)⟩
      · rintro ⟨p, hp, hleaf⟩
        obtain ⟨q, hq, hleaf⟩ := leaves_spliced.mpr ((ih p hp).mpr hleaf)
        exact ⟨q, ⟨p, hp, hq⟩, hleaf⟩
  | not inner ih =>
      obtain ⟨q, hq, hnot⟩ | ⟨-, hnot⟩ := canonical_not inner
      · rw [hnot, leaves, ← ih, hq, leaves]
      · rw [hnot, leaves, leaves, ih]

theorem WellFormed.canonical {p : CfgPredicate} (h : p.WellFormed) : p.canonical.WellFormed :=
  fun leaf hleaf => h leaf ((mem_leaves_canonical p).mp hleaf)

theorem WellFormed.spliced {isAll : Bool} {p : CfgPredicate} (h : p.WellFormed) :
    AllWellFormed (CfgPredicate.spliced isAll p) :=
  fun q hq leaf hleaf => h leaf (leaves_spliced.mp ⟨q, hq, hleaf⟩)

theorem AllWellFormed.flat {isAll : Bool} {items : List CfgPredicate} (h : AllWellFormed items) :
    AllWellFormed (items.flatMap fun p => CfgPredicate.spliced isAll p.canonical) := by
  intro q hq
  obtain ⟨p, hp, hq⟩ := mem_flatMap.mp hq
  exact (h p hp).canonical.spliced q hq

/-! ## Canonical, and a fixed point -/

theorem canon_canonical {p : CfgPredicate} (h : p.WellFormed) : Canon p.canonical := by
  induction p using groupInduction with
  | feature name => exact .feature name
  | option key value => exact .option key value
  | group isAll items ih =>
      have hwf := wellFormed_group.mp h
      rw [canonical_group]
      refine Canon.joinFlat (AllWellFormed.flat hwf) ?_
      intro q hq
      obtain ⟨p, hp, hq⟩ := mem_flatMap.mp hq
      exact (ih p hp (hwf p hp)).spliced q hq
  | not inner ih =>
      have hinner := ih h
      obtain ⟨q, hq, hnot⟩ | ⟨hne, hnot⟩ := canonical_not inner
      · rw [hnot]
        exact (hq ▸ hinner).of_not.1
      · rw [hnot]
        exact .not _ hinner hne

theorem canonical_of_canon {p : CfgPredicate} (h : Canon p) : p.canonical = p := by
  induction h with
  | feature name => rfl
  | option key value => rfl
  | group isAll items members flat sorted notOne ih =>
      have hspliced : ∀ p ∈ items, spliced isAll p.canonical = [p] := fun p hp => by
        rw [ih p hp, spliced_of_notGroup (flat p hp)]
      have hflat : (items.flatMap fun p => spliced isAll p.canonical) = items := by
        rw [flatMap_congr hspliced]
        exact flatMap_singleton' items
      rw [canonical_group, hflat]
      have hcanon := Canon.group isAll items members flat sorted notOne
      have hjoin : joinFlat isAll (spliced isAll (group isAll items)) = _ :=
        hcanon.joinFlat_spliced
      rwa [spliced_group] at hjoin
  | not inner canon single ih =>
      obtain ⟨q, hq, -⟩ | ⟨-, hnot⟩ := canonical_not inner
      · exact absurd (ih ▸ hq) (single q)
      · rw [hnot, ih]

theorem canonical_idempotent {p : CfgPredicate} (h : p.WellFormed) :
    p.canonical.canonical = p.canonical :=
  canonical_of_canon (canon_canonical h)

/-! ## Evaluation is kept -/

section Evaluation

variable (enabled : Finset Text) (options : Text → Option Bool)

theorem connect_spliced (isAll : Bool) (p : CfgPredicate) :
    Truth.connect isAll ((spliced isAll p).map (evalWith enabled options)) =
      p.evalWith enabled options := by
  obtain ⟨items, rfl⟩ | hnot := group_or_notGroup isAll p
  · rw [spliced_group, evalWith_group]
  · simp [spliced_of_notGroup hnot]

theorem evalWith_joinFlat (isAll : Bool) (l : List CfgPredicate) :
    (joinFlat isAll l).evalWith enabled options =
      Truth.connect isAll (l.map (evalWith enabled options)) := by
  have hset : ∀ t, t ∈ (SortDedup.sortDedup compact l).map (evalWith enabled options) ↔
      t ∈ l.map (evalWith enabled options) := by
    simp [mem_map]
  rw [← Truth.connect_congr hset]
  obtain ⟨q, hq, hjoin⟩ | ⟨-, hjoin⟩ := joinFlat_cases isAll l
  · simp [hjoin, hq]
  · rw [hjoin, evalWith_group]

theorem evalWith_canonical (p : CfgPredicate) :
    p.canonical.evalWith enabled options = p.evalWith enabled options := by
  induction p using groupInduction with
  | feature name => rfl
  | option key value => rfl
  | group isAll items ih =>
      have hmember : ∀ p ∈ items,
          Truth.connect isAll ((spliced isAll p.canonical).map (evalWith enabled options)) =
            p.evalWith enabled options := fun p hp => by
        rw [connect_spliced, ih p hp]
      rw [canonical_group, evalWith_joinFlat, evalWith_group, ← map_congr_left hmember,
        map_flatMap, flatMap_def, ← Truth.connect_map_connect, map_map]
      rfl
  | not inner ih =>
      obtain ⟨q, hq, hnot⟩ | ⟨-, hnot⟩ := canonical_not inner
      · rw [hnot, evalWith_not, ← ih, hq, evalWith_not, Truth.neg_neg]
      · rw [hnot, evalWith_not, evalWith_not, ih]

end Evaluation

/-! ## Spellings of one condition -/

/-- Two predicates that differ by reordering or repeating the members of a
group, by nesting groups of one kind, by groups of one member or by double
negations, anywhere inside. -/
inductive SameCondition : CfgPredicate → CfgPredicate → Prop
  | refl (p) : SameCondition p p
  | symm {p q} (h : SameCondition p q) : SameCondition q p
  | trans {p q r} (h : SameCondition p q) (h' : SameCondition q r) : SameCondition p r
  | reorder (isAll) {l m} (h : l.Perm m) : SameCondition (group isAll l) (group isAll m)
  | repeated (isAll) {p l} (h : p ∈ l) : SameCondition (group isAll (p :: l)) (group isAll l)
  | nested (isAll) (pre inner post) : SameCondition
      (group isAll (pre ++ group isAll inner :: post)) (group isAll (pre ++ inner ++ post))
  | wrapped (isAll) (p) : SameCondition (group isAll [p]) p
  | doubleNot (p) : SameCondition (.not (.not p)) p
  | member (isAll) (pre) {p q} (post) (h : SameCondition p q) : SameCondition
      (group isAll (pre ++ p :: post)) (group isAll (pre ++ q :: post))
  | negated {p q} (h : SameCondition p q) : SameCondition (.not p) (.not q)

namespace SameCondition

/-- Spellings of one condition mention the same options. -/
theorem mem_leaves {p q : CfgPredicate} (h : SameCondition p q) {leaf : CfgPredicate} :
    leaf ∈ p.leaves ↔ leaf ∈ q.leaves := by
  induction h with
  | refl p => rfl
  | symm _ ih => exact ih.symm
  | trans _ _ ih ih' => exact ih.trans ih'
  | reorder isAll h => simp only [mem_leaves_group, h.mem_iff]
  | repeated isAll h =>
      simp only [mem_leaves_group, mem_cons, exists_eq_or_imp, or_iff_right_iff_imp]
      intro hl
      exact ⟨_, h, hl⟩
  | nested isAll pre inner post =>
      simp only [mem_leaves_group, mem_append, mem_cons]
      constructor
      · rintro ⟨q, hq | rfl | hq, hl⟩
        · exact ⟨q, Or.inl (Or.inl hq), hl⟩
        · obtain ⟨q, hq, hl⟩ := mem_leaves_group.mp hl
          exact ⟨q, Or.inl (Or.inr hq), hl⟩
        · exact ⟨q, Or.inr hq, hl⟩
      · rintro ⟨q, (hq | hq) | hq, hl⟩
        · exact ⟨q, Or.inl hq, hl⟩
        · exact ⟨_, Or.inr (Or.inl rfl), mem_leaves_group.mpr ⟨q, hq, hl⟩⟩
        · exact ⟨q, Or.inr (Or.inr hq), hl⟩
  | wrapped isAll p => simp
  | doubleNot p => rfl
  | member isAll pre post _ ih =>
      simp only [mem_leaves_group, mem_append, mem_cons, or_and_right, exists_or,
        exists_eq_left, ih]
  | negated _ ih => simpa only [leaves] using ih

theorem wellFormed {p q : CfgPredicate} (h : SameCondition p q) :
    p.WellFormed ↔ q.WellFormed := by
  simp only [WellFormed, h.mem_leaves]

theorem canonical_group_congr {isAll : Bool} {l m : List CfgPredicate}
    (hl : (group isAll l).WellFormed)
    (h : ∀ q, (∃ p ∈ l, q ∈ spliced isAll p.canonical) ↔
      ∃ p ∈ m, q ∈ spliced isAll p.canonical) :
    (group isAll l).canonical = (group isAll m).canonical := by
  rw [canonical_group, canonical_group]
  refine joinFlat_congr (AllWellFormed.flat (wellFormed_group.mp hl)) ?_
  intro q
  simpa only [mem_flatMap] using h q

theorem canonical_eq {p q : CfgPredicate} (h : SameCondition p q) (hwf : p.WellFormed) :
    p.canonical = q.canonical := by
  induction h with
  | refl p => rfl
  | symm h ih => exact (ih (h.wellFormed.mpr hwf)).symm
  | trans h _ ih ih' => exact (ih hwf).trans (ih' (h.wellFormed.mp hwf))
  | reorder isAll h => exact canonical_group_congr hwf fun q => by simp only [h.mem_iff]
  | repeated isAll h =>
      refine canonical_group_congr hwf ?_
      intro q
      simp only [mem_cons, exists_eq_or_imp, or_iff_right_iff_imp]
      intro hq
      exact ⟨_, h, hq⟩
  | nested isAll pre inner post =>
      have hgroup : (group isAll inner).WellFormed := wellFormed_group.mp hwf _ (by simp)
      have hinner := wellFormed_group.mp hgroup
      -- what the inner group adds is what its members add
      have hmem : ∀ q, q ∈ spliced isAll (group isAll inner).canonical ↔
          ∃ p ∈ inner, q ∈ spliced isAll p.canonical := fun q => by
        rw [canonical_group, mem_spliced_joinFlat, mem_flatMap]
        intro p hp
        obtain ⟨p', hp', hp⟩ := mem_flatMap.mp hp
        exact ((canon_canonical (hinner p' hp')).spliced p hp).2
      refine canonical_group_congr hwf ?_
      intro q
      simp only [mem_append, mem_cons, or_and_right, exists_or, exists_eq_left, hmem,
        or_assoc]
  | wrapped isAll p =>
      have hp : p.WellFormed := wellFormed_group.mp hwf p (by simp)
      rw [canonical_group, flatMap_singleton, (canon_canonical hp).joinFlat_spliced]
  | doubleNot p =>
      obtain ⟨q, hq, hnot⟩ | ⟨hne, hnot⟩ := canonical_not p
      · have hsingle := (hq ▸ canon_canonical (p := p) hwf).of_not.2
        obtain ⟨r, hr, -⟩ | ⟨-, hnot'⟩ := canonical_not (.not p)
        · exact absurd (hnot ▸ hr) (hsingle r)
        · rw [hnot', hnot, hq]
      · obtain ⟨r, hr, hnot'⟩ | ⟨hne', -⟩ := canonical_not (.not p)
        · rw [hnot']
          rw [hnot] at hr
          exact (CfgPredicate.not.inj hr).symm
        · exact absurd hnot (hne' _)
  | member isAll pre post h ih =>
      have hp := wellFormed_group.mp hwf _ (mem_append_right _ mem_cons_self)
      refine canonical_group_congr hwf ?_
      intro q
      simp only [mem_append, mem_cons, or_and_right, exists_or, exists_eq_left, ih hp]
  | negated h ih => simp only [canonical, ih hwf]

end SameCondition

/-! ## The canonical form of a parsed predicate -/

/-- Canonicalisation of what the parser returns: it keeps the value under every
build profile, is idempotent, is told apart by its compact text, and is one for
all spellings of a condition. -/
theorem canonical_correct {cc : CharClass} {text : Text} {p : CfgPredicate}
    (h : parseCfgArguments cc text = some p) :
    (∀ profile : BuildProfile, p.canonical.evalIn profile = p.evalIn profile) ∧
      p.canonical.canonical = p.canonical ∧
      (∀ {text' : Text} {q : CfgPredicate}, parseCfgArguments cc text' = some q →
        p.canonical ≠ q.canonical →
          p.canonical.compact ≠ q.canonical.compact ∧ p.compact ≠ q.compact) ∧
      ∀ {q : CfgPredicate}, SameCondition p q → p.canonical = q.canonical := by
  have hp := parseCfgArguments_wellFormed h
  refine ⟨fun profile => evalWith_canonical _ _ p, canonical_idempotent hp, ?_, ?_⟩
  · intro text' q hq hne
    have hq := parseCfgArguments_wellFormed hq
    refine ⟨fun hcompact => hne ?_, fun hcompact => hne ?_⟩
    · exact compact_injective hp.canonical hq.canonical hcompact
    · rw [compact_injective hp hq hcompact]
  · intro q hsame
    exact hsame.canonical_eq hp

/-- `all(unix, all(kani))` and `all(kani, unix)`. -/
theorem canonical_correct_unix_kani :
    let p : CfgPredicate := .all [.option "unix".toList none, .all [.option "kani".toList none]]
    let q : CfgPredicate := .all [.option "kani".toList none, .option "unix".toList none]
    parseCfgArguments .ascii "(all(unix, all(kani)))".toList = some p ∧
      p.canonical.evalIn (.withFeatures ∅) = .false ∧ p.canonical = q.canonical := by
  intro p q
  have hp : parseCfgArguments .ascii "(all(unix, all(kani)))".toList = some p := by
    decide +kernel
  obtain ⟨heval, -, -, hsame⟩ := canonical_correct hp
  refine ⟨hp, (heval _).trans (by decide +kernel), hsame ?_⟩
  exact .trans (.nested true [.option "unix".toList none] [.option "kani".toList none] [])
    (.reorder true (List.Perm.swap _ _ _))

end CfgPredicate

end CodeGraph
