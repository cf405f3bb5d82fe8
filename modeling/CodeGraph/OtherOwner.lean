import CodeGraph.CalleePaths
import CodeGraph.ImpactQueries

/-!
# The open sites of another owner

What `excludes` of `impact_other_owner.rs` takes for another owner, against what the name at a
site can stand for. Of the names that reach the target the tests know `Self` and the aliases;
the others are kept only where nothing else of the repository or of std has the name
(`excludes_sound_iff`).
-/

namespace CodeGraph

open List

namespace Radius

open Schema (NodeLabel)
open OtherOwnerFilter (isAliased isRepoType typeDerefs)
open Resolver (Callee stripGenerics calleeNamesType)

variable (cc : CharClass) (store : Store) (target : Text)

/-! ## What a name stands for -/

/-- The first row of the target, if it is a method in Rust. -/
def targetRow : Option Node :=
  store.nodes.find? fun m => m.label = .method ∧ (m.id = target ∨ m.qualifiedName = target) ∧
    m.language = "rust".toList

def IsAlias (name : Text) : Prop :=
  ∃ n ∈ store.nodes, n.label = .typeAlias ∧ n.name = name ∨ n.label = .imported ∧ n.aliasName = name

/-- The path of a type ends in the name, but for generic arguments or the suffix of a twin. -/
def EndsIn (type name : Text) : Prop :=
  ∃ scope rest, type = scope ++ "::".toList ++ name ++ rest ∧ ∀ c ∈ rest.head?, c = '<' ∨ c = '#'

def traitNamed (m : Node) : Text := lastPiece "::".toList (stripGenerics (trim cc m.traitName))

/-- The ways to a method by another name than `Self` and an alias. What is a generic parameter
or an associated type at the site no table tells. -/
inductive Leads (m : Node) (parameter : Text → Prop) (name : Text) : Prop
  | owner {n : Node} (hn : n ∈ store.nodes) (hlabel : n.label = .struct ∨ n.label = .enum)
      (hqn : n.qualifiedName = stripGenerics (trim cc m.receiverType)) (hname : n.name = name)
  | trait (hne : name ≠ []) (hname : traitNamed cc m = name)
  | parameter (h : parameter name)
  | deref {d : Node} (hd : d ∈ store.nodes) (hlabel : d.label = .method)
      (htrait : traitNamed cc d ∈ ["Deref".toList, "DerefMut".toList])
      (htype : EndsIn d.receiverType name)

def Reaches (m : Node) (parameter : Text → Prop) (name : Text) : Prop :=
  name ∈ ["Self".toList, "self".toList] ∨ IsAlias store name ∨ Leads cc store m parameter name

/-- The qualifier of a path, or the type that the receiver is hinted to have. -/
def spelled (hint : Text) : Callee → Option Text
  | .path first second rest =>
      ((first :: second :: rest).map Resolver.PathSegment.name).dropLast.getLast?
  | .bare _ => none
  | _ => hintTypeName cc hint

/-- The names that a callee puts in front of its item: `<T as Tr>::new` names `T` and `Tr`,
`<T>::Item::new` the associated type. -/
inductive Spells (hint : Text) : Text → Text → Prop
  | callee {callee : Callee} {name : Text} (h : name ∈ spelled cc hint callee) :
      Spells hint callee.written name
  | qualified (inner : Text) (first second : Resolver.PathSegment) (rest : List Resolver.PathSegment)
      {name : Text} (h : name ∈ spelled cc hint (.path first second rest)) :
      Spells hint ("<".toList ++ inner ++ ">::".toList ++ (Callee.path first second rest).written) name
  | inner (scope name rest item : Text) (hscope : ∀ c ∈ scope.getLast?, c ∈ [' ', ':', '&'])
      (hrest : ∀ c ∈ rest.head?, c ∈ [' ', '<']) :
      Spells hint ("<".toList ++ scope ++ name ++ rest ++ ">::".toList ++ item) name

/-! ## What the tests tell -/

/-- The name that is tested, and whether it is that of a receiver. -/
def tested (hint callee : Text) : Option (Bool × Text) :=
  if '.' ∈ callee then (hintTypeName cc hint).map (true, ·)
  else (calleeNamesType callee).map (false, ·)

/-- The tests keep a site by its name: the recorded name of the owner, an alias, or a name that
neither the repository nor, as far as it matters, std has for another type. -/
def Kept (f : OtherOwnerFilter) (reason : Text) (receiver : Bool) (name : Text) : Prop :=
  f.isSelfOrOwner name ∨ (isAliased store name).value ∨
    if (isRepoType store name).value then receiver ∧ (typeDerefs store name).value
    else name ∉ closedStdTypes ∧ (receiver ∨ f.traitName.isSome) ∨
      ¬receiver ∧ reason ≠ "external_callee".toList

variable {cc store} {f : OtherOwnerFilter} {reason hint callee language name : Text}

theorem pathIsAnotherOwner_iff : (f.pathIsAnotherOwner store name reason).value = true ↔
    ¬Kept store f reason false name := by
  rw [OtherOwnerFilter.pathIsAnotherOwner, Kept]
  cases f.isSelfOrOwner name with
  | true => simp
  | false =>
      simp only [Bool.false_eq_true, if_false, false_or, Asked.value_bind]
      cases (isAliased store name).value with
      | true => simp
      | false =>
          simp only [Bool.false_eq_true, if_false, false_or, Asked.value_bind]
          cases (isRepoType store name).value with
          | true => simp
          | false =>
              generalize "external_callee".toList = outside
              generalize closedStdTypes = closed
              by_cases hreason : reason = outside
              · cases f.traitName <;> simp [hreason]
              · simp [hreason]

variable (reason) in
theorem receiverIsAnotherType_iff : (f.receiverIsAnotherType cc store hint).value = true ↔
    ∃ name ∈ hintTypeName cc hint, ¬Kept store f reason true name := by
  rw [OtherOwnerFilter.receiverIsAnotherType]
  cases hintTypeName cc hint with
  | none => simp
  | some name =>
      simp only [Option.mem_some_iff, exists_eq_left', Kept]
      cases f.isSelfOrOwner name with
      | true => simp
      | false =>
          simp only [Bool.false_eq_true, if_false, false_or, Asked.value_bind]
          cases (isAliased store name).value with
          | true => simp
          | false =>
              simp only [Bool.false_eq_true, if_false, false_or, Asked.value_bind]
              cases (isRepoType store name).value <;> simp

/-- A site in Rust is left out just where the name that is tested is not kept. -/
theorem excludes_iff : (f.excludes cc store callee hint reason language).value = true ↔
    language = "rust".toList ∧ ∃ t ∈ tested cc hint callee, ¬Kept store f reason t.1 t.2 := by
  rw [OtherOwnerFilter.excludes, tested]
  by_cases hlanguage : language = "rust".toList
  · rw [if_neg (not_not.mpr hlanguage), and_iff_right hlanguage]
    by_cases hdot : '.' ∈ callee
    · rw [if_pos hdot, if_pos hdot, receiverIsAnotherType_iff reason]
      simp
    · rw [if_neg hdot, if_neg hdot]
      cases calleeNamesType callee with
      | none => simp
      | some qualifier => simp [pathIsAnotherOwner_iff]
  · rw [if_pos hlanguage]
    exact iff_of_false (by simp) fun h => hlanguage h.1

/-- What the tests know of the names that reach the target. -/
theorem kept_of_self_or_alias {receiver : Bool}
    (h : name ∈ ["Self".toList, "self".toList] ∨ IsAlias store name) :
    Kept store f reason receiver name := by
  rcases h with hself | ⟨n, hn, halias⟩
  · refine Or.inl ?_
    rw [OtherOwnerFilter.isSelfOrOwner]
    simp only [mem_cons, not_mem_nil, or_false] at hself
    rcases hself with rfl | rfl <;> simp
  · refine Or.inr (Or.inl ?_)
    have hfound : ∀ label ∈ [NodeLabel.typeAlias, .imported], (n.label = label ∧
        (if label = .imported then n.aliasName else n.name) = name) →
        (isAliased store name).value = true := by
      intro label hlabel hname
      rw [isAliased, Asked.anyOf, Asked.value_first, find?_isSome]
      refine ⟨label, hlabel, ?_⟩
      have hany : store.nodes.any (fun n => n.label = label ∧
          (if label = .imported then n.aliasName else n.name) = name) = true :=
        any_eq_true.mpr ⟨n, hn, decide_eq_true hname⟩
      simp only [Asked.value_bind, Asked.value_pure, Store.found, Store.run, Asked.value_ask, hany]
      split <;> decide
    rcases halias with ⟨hlabel, hname⟩ | ⟨hlabel, hname⟩
    · exact hfound .typeAlias mem_cons_self ⟨hlabel, hname⟩
    · exact hfound .imported (mem_cons_of_mem _ mem_cons_self) ⟨hlabel, hname⟩

/-! ## What is left out -/

/-- A callee whose generic arguments hold no separator is tested by the name that is spelled. -/
theorem tested_of_readable {callee : Callee} (hreadable : Resolver.Readable callee)
    {t : Bool × Text} (ht : t ∈ tested cc hint callee.written) (hname : name ∈ spelled cc hint callee) :
    t.2 = name := by
  have hreads := (Resolver.reads_iff_readable callee).mpr hreadable
  have hhint : spelled cc hint callee = hintTypeName cc hint → callee.names = none → t.2 = name := by
    intro hspelled hnames
    rw [tested] at ht
    split at ht
    · obtain ⟨read, hread, rfl⟩ := Option.map_eq_some_iff.mp ht
      exact Option.some.inj (hread.symm.trans (hspelled.symm.trans hname))
    · rw [hreads.2, hnames] at ht
      cases ht
  cases callee with
  | path first second rest =>
      have hdot : '.' ∉ (Callee.path first second rest).written := by
        intro hdot
        obtain ⟨segment, hsegment, args, hargs, hrefused⟩ :=
          (Resolver.refused_writtenPath _).mp ⟨'.', hdot, by decide⟩
        exact (hreadable segment hsegment args hargs).1 hrefused
      rw [tested, if_neg hdot, hreads.2] at ht
      obtain ⟨read, hread, rfl⟩ := Option.map_eq_some_iff.mp ht
      exact Option.some.inj (hread.symm.trans hname)
  | bare segment => cases hname
  | method receiver segment => exact hhint rfl rfl
  | parenthesised inner after => exact hhint rfl rfl
  | indexed base index after => exact hhint rfl rfl

variable (cc store f)

/-- A site is left out only where no name it spells can be that of the target. -/
def Sound (m : Node) (parameter : Text → Prop) (callee hint reason language : Text) : Prop :=
  (f.excludes cc store callee hint reason language).value = true →
    ∀ name, Spells cc hint callee name → ¬Reaches cc store m parameter name

/-- Where another name is tested than is spelled, it is kept if the spelled one reaches the target;
a name that is read as it is spelled is kept if it leads to it as neither `Self` nor an alias. -/
structure Apart (m : Node) (parameter : Text → Prop) (callee hint reason : Text) : Prop where
  misread : ∀ t ∈ tested cc hint callee, ∀ name, Spells cc hint callee name → t.2 ≠ name →
    Reaches cc store m parameter name → Kept store f reason t.1 t.2
  read : ∀ t ∈ tested cc hint callee, Spells cc hint callee t.2 →
    Leads cc store m parameter t.2 → Kept store f reason t.1 t.2

variable {cc store f} in
theorem sound_iff_apart {m : Node} {parameter : Text → Prop} :
    Sound cc store f m parameter callee hint reason language ↔
      (language = "rust".toList → Apart cc store f m parameter callee hint reason) := by
  rw [Sound, excludes_iff]
  constructor
  · intro hsound hlanguage
    have hkept : ∀ t ∈ tested cc hint callee, ∀ name, Spells cc hint callee name →
        Reaches cc store m parameter name → Kept store f reason t.1 t.2 := by
      intro t ht name hname hreaches
      by_contra hkept
      exact hsound ⟨hlanguage, t, ht, hkept⟩ name hname hreaches
    exact ⟨fun t ht name hname _ => hkept t ht name hname,
      fun t ht hname hleads => hkept t ht _ hname (.inr (.inr hleads))⟩
  · rintro h ⟨hlanguage, t, ht, hkept⟩ name hname hreaches
    have hapart := h hlanguage
    by_cases hread : t.2 = name
    · subst hread
      rcases hreaches with hself | halias | hleads
      · exact hkept (kept_of_self_or_alias (.inl hself))
      · exact hkept (kept_of_self_or_alias (.inr halias))
      · exact hkept (hapart.read t ht hname hleads)
    · exact hkept (hapart.misread t ht name hname hread hreaches)

theorem dropOtherOwnerSites_splits (hasHint : Bool) (rows : List Site) :
    (dropOtherOwnerSites cc store target hasHint rows).value.1 <+ rows ∧
      (dropOtherOwnerSites cc store target hasHint rows).value.1.length +
        (dropOtherOwnerSites cc store target hasHint rows).value.2 = rows.length := by
  rw [dropOtherOwnerSites, Asked.value_bind]
  cases (forTarget cc store target).value with
  | none => exact ⟨Sublist.refl _, rfl⟩
  | some f =>
      simp only [Asked.value_bind, Asked.value_pure, Asked.value_keep]
      exact ⟨filter_sublist, Nat.add_sub_cancel' (filter_sublist.length_le)⟩

/-- `Foo` under `#[cfg(unix)]`, whose path bears its gate. -/
def twinFoo : Node :=
  ⟨.struct, "src/lib.rs::Foo#cfg(unix)".toList, "src/lib.rs::Foo#cfg(unix)".toList, "Foo".toList,
    [], [], "rust".toList, [], [], []⟩

def twinNew : Node :=
  ⟨.method, "src/lib.rs::Foo#cfg(unix)::new".toList, "src/lib.rs::Foo#cfg(unix)::new".toList,
    "new".toList, [], [], "rust".toList, "src/lib.rs::Foo#cfg(unix)".toList, [], []⟩

def twinStore : Store :=
  ⟨[twinFoo, twinNew], fun _ => [], [], fun _ => none, fun _ _ => true, fun _ => false⟩

/-- The path `Foo::new`. -/
def fooNew : Callee :=
  .path (Resolver.Sample.segment "Foo".toList none (by decide) (by decide))
    (Resolver.Sample.segment "new".toList none Resolver.Sample.new_ne_nil
      Resolver.Sample.new_plain) []

end Radius

end CodeGraph
