import CodeGraph.Includes
import CodeGraph.ResolveGraph
import Mathlib.Algebra.Group.Action.Defs

/-!
# Which C++ methods a call can name

The family of a class is what its bases and the aliases in scope lead to, however
the inheritance that the source states is knotted: the names it has are read from
text, and a class may come to be its own base. `mem_family` says that the search is
the closure and that its turns are bounded; the lookups then keep the methods of
one family, and beside them only constructors.
-/

namespace CodeGraph

open List

namespace Resolver

open Worklist

/-! ## Names -/

/-- `text` without its `<...>` groups, `depth` of them being open. -/
def stripGenericGroups : Nat → Text → Text
  | _, [] => []
  | depth, c :: text =>
      if c = '<' then stripGenericGroups (depth + 1) text
      else if c = '>' then stripGenericGroups (depth - 1) text
      else if depth = 0 then c :: stripGenericGroups depth text
      else stripGenericGroups depth text

/-- `text` cut at every `sep` outside the `<...>` groups. -/
def splitOutsideGenerics (sep : Char) : Nat → Text → List Text
  | _, [] => [[]]
  | depth, c :: text =>
      let depth' := if c = '<' then depth + 1 else if c = '>' then depth - 1 else depth
      if c = sep ∧ c ≠ '<' ∧ c ≠ '>' ∧ depth = 0 then [] :: splitOutsideGenerics sep depth text
      else
        match splitOutsideGenerics sep depth' text with
        | [] => [[c]]
        | part :: parts => (c :: part) :: parts

/-- `text.split_whitespace()`. -/
def splitWhitespace (cc : CharClass) (text : Text) : List Text :=
  (text.splitOnP cc.isWhitespace).filter (· ≠ [])

def classSpecifiers : List Text :=
  ["public", "protected", "private", "virtual", "typename"].map String.toList

/-- A class as a path, without access specifier, generic arguments or leading `::`. -/
def classPath (cc : CharClass) (raw : Text) : Text :=
  trimStartMatches "::".toList
    ((splitWhitespace cc (stripGenericGroups 0 raw)).dropWhile (· ∈ classSpecifiers)).flatten

def pathWithoutFile (qn : Text) : Text :=
  match extractFilePrefix qn with
  | some file => trimStartMatches "::".toList (qn.drop file.length)
  | none => qn

def lastSegment (path : Text) : Text := lastPiece "::".toList path

/-- `name`, a path or relative to a namespace, designates the class of the path. -/
def namesClass (path name : Text) : Bool :=
  path = name || ("::".toList ++ name).isSuffixOf path

/-- The class a method belongs to, from its qualified name. -/
def ownerOf (methodQn : Text) : Option Text :=
  let path := pathWithoutFile methodQn
  beforeLast "::".toList ((beforeLast ['#'] path).getD path)

/-! ## The classes -/

/-- A `using X = T;` or `typedef T X;`: the path of `X`, the file that writes it and
the class path `T` names. -/
structure Alias where
  path : Text
  file : Text
  target : Text
  deriving DecidableEq

/-- The C++ classes of the graph with the bases each row names, the aliases, and
which file includes which. -/
structure CppClasses where
  classes : List (Text × List Text)
  aliases : List Alias
  includes : IncludeTable

/-- A row of the query for the classes. -/
structure ClassRow where
  qualifiedName : Text
  bases : Text
  language : Text

/-- A row of the queries for the aliases: what a type alias or a constant names. -/
structure AliasRow where
  qualifiedName : Text
  target : Text
  language : Text

/-- How the store reads a column that holds nothing. -/
def nullString : Text := "Null(String)".toList

def cpp : Text := "cpp".toList

def ClassRow.read (cc : CharClass) (row : ClassRow) : Option (Text × List Text) :=
  if row.language = cpp then
    let bases := if row.bases = nullString then [] else row.bases
    some (pathWithoutFile row.qualifiedName,
      ((splitOutsideGenerics ',' 0 bases).map (classPath cc)).filter (· ≠ []))
  else none

def AliasRow.read (cc : CharClass) (row : AliasRow) : Option Alias :=
  if row.language = cpp ∧ row.target ≠ nullString ∧ classPath cc row.target ≠ [] then
    some ⟨pathWithoutFile row.qualifiedName, (extractFilePrefix row.qualifiedName).getD [],
      classPath cc row.target⟩
  else none

/-- The extensions of the files that are a translation unit of their own. -/
def sourceExtensions : List Text := ["cpp", "cc", "cxx", "c++", "c"].map String.toList

/-- A header may be included by any file, a source file is seen by itself only. -/
def unitSees (caller declared : Text) : Bool :=
  declared = caller ||
    !((beforeLast ['.'] declared).isSome && (lastPiece ['.'] declared) ∈ sourceExtensions)

namespace CppClasses

/-- Reads the classes, the type aliases and the constants, which may be typedefs. -/
def load (cc : CharClass) (structs : List ClassRow) (typeAliases constants : List AliasRow)
    (includes : IncludeTable) : CppClasses where
  classes := structs.filterMap (ClassRow.read cc)
  aliases := typeAliases.filterMap (AliasRow.read cc) ++ constants.filterMap (AliasRow.read cc)
  includes := includes

variable (cpp : CppClasses)

def byLast (last : Text) : List Text :=
  (cpp.classes.map Prod.fst).filter fun path => lastSegment path = last

/-- The bases of a path: what every class declared under it names. -/
def basesOf (path : Text) : List Text :=
  (cpp.classes.filter fun row => row.1 = path).flatMap Prod.snd

/-- A declaration written in `declared` is visible to a caller in `caller`. -/
def sees (caller declared : Text) : Bool :=
  unitSees caller declared || cpp.includes.shareAUnit declared caller

def named (name caller : Text) : List Alias :=
  cpp.aliases.filter fun a =>
    lastSegment a.path = lastSegment name && namesClass a.path name && cpp.sees caller a.file

/-- Of several aliases of one name, those the file writes are the ones in scope;
without any, every one is possible. -/
def aliasTargets (name caller : Text) : List Text :=
  let own := (cpp.named name caller).filter fun a => a.file = caller
  (if own = [] then cpp.named name caller else own).map Alias.target

/-- What a name leads to: the bases of the classes it designates, and what its
aliases stand for. -/
def follows (caller name : Text) : List Text :=
  ((cpp.byLast (lastSegment name)).filter (namesClass · name)).flatMap cpp.basesOf ++
    cpp.aliasTargets name caller

/-- The names that a list puts on the worklist: an empty one is passed over. -/
def pushed (names : List Text) : List Text := names.filter (· ≠ [])

def searchFamily (turns : Nat) (name caller : Text) : Option (List Text) :=
  popSearch id (fun current => pushed (cpp.follows caller current)) turns (pushed [name]) []

/-- All that is written as a base or behind an alias. -/
def written : List Text := cpp.classes.flatMap Prod.snd ++ cpp.aliases.map Alias.target

/-- The most that one name can put on the worklist. -/
def width : Nat :=
  cpp.classes.length * (cpp.classes.flatMap Prod.snd).length + cpp.aliases.length

/-- Enough for every search (`searchFamily_eq`). -/
def turns : Nat := 1 + (1 + cpp.written.length) * cpp.width

/-- The class named `name`, the classes an alias of that name stands for, and every
base of them. -/
def family (name caller : Text) : List Text := (cpp.searchFamily cpp.turns name caller).getD []

def Closed (caller : Text) (names : Set Text) : Prop :=
  ∀ name ∈ names, ∀ next ∈ cpp.follows caller name, next ≠ [] → next ∈ names

end CppClasses

/-- `path` is the path of a class of the family. -/
def holds (family : List Text) (path : Text) : Bool := family.any (namesClass path)

/-! ## The lookups -/

def isMethod (candidate : SymbolEntry) : Bool := candidate.label = "Method".toList

/-- A method whose name is its class's. -/
def isConstructor (candidate : SymbolEntry) (callee : Text) : Bool :=
  isMethod candidate &&
    (ownerOf candidate.qualifiedName).any fun owner => lastSegment owner = callee

def methodsOf (family : List Text) (candidates : List SymbolEntry) : List SymbolEntry :=
  candidates.filter fun c => isMethod c && (ownerOf c.qualifiedName).any (holds family)

def receiverHintViaCppThis : Text := "cpp-this".toList

def receiverHintViaCppDeclared : Text := "cpp-declared".toList

def receiverHintViaCppQualifier : Text := "cpp-qualifier".toList

def calleeShapeDirect : Text := "direct".toList

/-- What is left of the candidates, and the rule that left no other. -/
structure Scoped where
  kept : List SymbolEntry
  rule : Text

variable (cpp : CppClasses) (callerLabel : EndLabel) (site : CallSite)

def callerFile : Text := (extractFilePrefix site.caller).getD []

/-- The caller's own class and its bases; empty when the caller is no method. -/
def callerFamily : List Text :=
  if callerLabel = .symbol .method then
    match ownerOf site.caller with
    | some owner => cpp.family owner (callerFile site)
    | none => []
  else []

def hintedFamily : List Text := cpp.family site.receiverHint (callerFile site)

/-- `f(x)`: a method of the caller's class hides every namesake outside the class;
else a function, or the constructor of a class of that name. -/
def unqualified (candidates : List SymbolEntry) : List SymbolEntry :=
  let own := methodsOf (callerFamily cpp callerLabel site) candidates
  if own ≠ [] then own
  else candidates.filter fun c => !isMethod c || isConstructor c site.calleeName

/-- `a::b::f(x)`: a method must belong to the class `a::b`, a free function to the
namespace `a::b`; `::f(x)` names a global function. -/
def qualified (candidates : List SymbolEntry) : List SymbolEntry :=
  candidates.filter fun c =>
    match isMethod c, ownerOf c.qualifiedName with
    | true, some owner => holds (hintedFamily cpp site) owner
    | false, some ns =>
        site.receiverHint ≠ [] && namesClass ns (trimStartMatches "::".toList site.receiverHint)
    | false, none => site.receiverHint = []
    | true, none => false

/-- The candidates a C++ call allows; `none` when the parser did not shape it. -/
def scope (language : Text) (candidates : List SymbolEntry) : Option Scoped :=
  if language ≠ "cpp".toList ∨ site.calleeShape = [] then none
  else if site.receiverHintVia = receiverHintViaCppThis then
    some ⟨methodsOf (callerFamily cpp callerLabel site) candidates, "cpp_receiver_class".toList⟩
  else if site.receiverHintVia = receiverHintViaCppDeclared then
    some ⟨methodsOf (hintedFamily cpp site) candidates, "cpp_receiver_class".toList⟩
  else if site.receiverHintVia = receiverHintViaCppQualifier then
    some ⟨qualified cpp site candidates, "cpp_qualifier".toList⟩
  else if site.calleeShape = calleeShapeDirect then
    some ⟨unqualified cpp callerLabel site candidates, "cpp_unqualified_call".toList⟩
  else none

/-- The family a lookup asks a method's class to be in. -/
def lookupFamily : List Text :=
  if site.receiverHintVia = receiverHintViaCppDeclared ∨
      site.receiverHintVia = receiverHintViaCppQualifier then hintedFamily cpp site
  else callerFamily cpp callerLabel site

/-! ## The search is the closure -/

namespace CppClasses

variable {cpp} {name caller next : Text} {names : List Text}

theorem mem_pushed : next ∈ pushed names ↔ next ∈ names ∧ next ≠ [] := by
  simp [pushed]

theorem aliasTargets_length_le : (cpp.aliasTargets name caller).length ≤ cpp.aliases.length := by
  rw [aliasTargets, length_map]
  split
  · exact length_filter_le _ _
  · exact (length_filter_le _ _).trans (length_filter_le _ _)

theorem mem_aliases_of_mem_aliasTargets (h : next ∈ cpp.aliasTargets name caller) :
    next ∈ cpp.aliases.map Alias.target := by
  obtain ⟨a, ha, rfl⟩ := mem_map.mp h
  refine mem_map_of_mem ?_
  split at ha
  · exact mem_of_mem_filter ha
  · exact mem_of_mem_filter (mem_of_mem_filter ha)

theorem mem_basesOf {path : Text} : next ∈ cpp.basesOf path ↔
    ∃ bases, (path, bases) ∈ cpp.classes ∧ next ∈ bases := by
  simp [basesOf]

theorem mem_written_of_follows (h : next ∈ cpp.follows caller name) : next ∈ cpp.written := by
  obtain hbase | halias := mem_append.mp h
  · obtain ⟨path, -, hnext⟩ := mem_flatMap.mp hbase
    obtain ⟨bases, hrow, hnext⟩ := mem_basesOf.mp hnext
    exact mem_append_left _ (mem_flatMap.mpr ⟨_, hrow, hnext⟩)
  · exact mem_append_right _ (mem_aliases_of_mem_aliasTargets halias)

theorem basesOf_length_le (path : Text) :
    (cpp.basesOf path).length ≤ (cpp.classes.flatMap Prod.snd).length :=
  (filter_sublist.flatMap _).length_le

theorem follows_length_le : (cpp.follows caller name).length ≤ cpp.width := by
  have hpaths : ((cpp.byLast (lastSegment name)).filter (namesClass · name)).length ≤
      cpp.classes.length := by
    refine (length_filter_le _ _).trans ((length_filter_le _ _).trans_eq ?_)
    exact length_map _
  have hbases : (((cpp.byLast (lastSegment name)).filter (namesClass · name)).flatMap
      cpp.basesOf).length ≤ cpp.classes.length * (cpp.classes.flatMap Prod.snd).length := by
    rw [length_flatMap]
    refine (sum_le_card_nsmul _ (cpp.classes.flatMap Prod.snd).length ?_).trans ?_
    · intro n hn
      obtain ⟨path, -, rfl⟩ := mem_map.mp hn
      exact basesOf_length_le path
    · rw [length_map, smul_eq_mul]
      exact Nat.mul_le_mul_right _ hpaths
  rw [follows, length_append, width]
  exact Nat.add_le_add hbases aliasTargets_length_le

theorem searchFamily_eq (name caller : Text) :
    cpp.searchFamily cpp.turns name caller = some (cpp.family name caller) := by
  let states : Finset Text := (name :: cpp.written).toFinset
  have hstart : ∀ s ∈ pushed [name], s ∈ states := fun s hs =>
    mem_toFinset.mpr (mem_cons.mpr (Or.inl (mem_singleton.mp (mem_pushed.mp hs).1)))
  have hclosed : ∀ s ∈ states, ∀ t ∈ pushed (cpp.follows caller s), t ∈ states := fun s _ t ht =>
    mem_toFinset.mpr (mem_cons_of_mem _ (mem_written_of_follows (mem_pushed.mp ht).1))
  have hwidth : ∀ s ∈ states, (pushed (cpp.follows caller s)).length ≤ cpp.width := fun s _ =>
    (length_filter_le _ _).trans follows_length_le
  have hcard : states.card ≤ 1 + cpp.written.length := by
    refine (toFinset_card_le _).trans_eq ?_
    rw [length_cons, Nat.add_comm]
  have hturns : (pushed [name]).length + (states.card - ([] : List Text).length) * cpp.width ≤
      cpp.turns :=
    Nat.add_le_add (length_filter_le _ _) (Nat.mul_le_mul_right _ hcard)
  obtain ⟨found, hfound⟩ := popSearch_returns hclosed hwidth cpp.turns (pushed [name]) []
    hstart (fun s hs => absurd hs not_mem_nil) nodup_nil hturns
  have hsearch : cpp.searchFamily cpp.turns name caller = some found := hfound
  rw [family, hsearch, Option.getD_some]

theorem mem_family {member : Text} : member ∈ cpp.family name caller ↔
    Reach (fun current => pushed (cpp.follows caller current)) (pushed [name]) member :=
  (popSearch_searched (searchFamily_eq name caller)).mem_iff

theorem family_closed : cpp.Closed caller {member | member ∈ cpp.family name caller} := by
  intro member hmember next hnext hne
  exact mem_family.mpr ((mem_family.mp hmember).step (mem_pushed.mpr ⟨hnext, hne⟩))

theorem mem_family_self (hname : name ≠ []) : name ∈ cpp.family name caller :=
  mem_family.mpr (.start (mem_pushed.mpr ⟨mem_singleton_self name, hname⟩))

theorem family_least {names : Set Text} (hclosed : cpp.Closed caller names)
    (hname : name ≠ [] → name ∈ names) {member : Text} (h : member ∈ cpp.family name caller) :
    member ∈ names := by
  refine (mem_family.mp h).induct (P := (· ∈ names)) (fun s hs => ?_) (fun s _ hs t ht => ?_)
  · obtain ⟨hs, hne⟩ := mem_pushed.mp hs
    obtain rfl := mem_singleton.mp hs
    exact hname hne
  · obtain ⟨ht, hne⟩ := mem_pushed.mp ht
    exact hclosed s hs t ht hne

/-! ## The order of the declarations -/

variable {cpp' : CppClasses}

/-- The same declarations, in an order of their own. -/
structure SameDeclarations (cpp cpp' : CppClasses) : Prop where
  classes : cpp.classes.Perm cpp'.classes
  aliases : cpp.aliases.Perm cpp'.aliases
  includes : cpp.includes = cpp'.includes

theorem SameDeclarations.symm (h : cpp.SameDeclarations cpp') : cpp'.SameDeclarations cpp :=
  ⟨h.classes.symm, h.aliases.symm, h.includes.symm⟩

theorem SameDeclarations.named (h : cpp.SameDeclarations cpp') :
    (cpp.named name caller).Perm (cpp'.named name caller) := by
  have hsees : cpp.sees = cpp'.sees := by
    funext caller declared
    rw [sees, sees, h.includes]
  rw [CppClasses.named, CppClasses.named, hsees]
  exact h.aliases.filter _

theorem SameDeclarations.aliasTargets (h : cpp.SameDeclarations cpp') :
    (cpp.aliasTargets name caller).Perm (cpp'.aliasTargets name caller) := by
  have hown : ((cpp.named name caller).filter fun a => decide (a.file = caller)).Perm
      ((cpp'.named name caller).filter fun a => decide (a.file = caller)) := h.named.filter _
  rw [CppClasses.aliasTargets, CppClasses.aliasTargets]
  refine List.Perm.map _ ?_
  by_cases hnil : (cpp.named name caller).filter (fun a => decide (a.file = caller)) = []
  · have hnil' : (cpp'.named name caller).filter (fun a => decide (a.file = caller)) = [] := by
      rw [hnil] at hown
      exact nil_perm.mp hown
    rw [if_pos hnil, if_pos hnil']
    exact h.named
  · have hnil' : (cpp'.named name caller).filter (fun a => decide (a.file = caller)) ≠ [] := by
      intro hnil'
      rw [hnil'] at hown
      exact hnil (perm_nil.mp hown)
    rw [if_neg hnil, if_neg hnil']
    exact hown

theorem SameDeclarations.follows (h : cpp.SameDeclarations cpp')
    (hnext : next ∈ cpp.follows caller name) : next ∈ cpp'.follows caller name := by
  obtain hbase | halias := mem_append.mp hnext
  · obtain ⟨path, hpath, hnext⟩ := mem_flatMap.mp hbase
    obtain ⟨bases, hrow, hnext⟩ := mem_basesOf.mp hnext
    obtain ⟨hlast, hnames⟩ := mem_filter.mp hpath
    have hpaths : (cpp.byLast (lastSegment name)).Perm (cpp'.byLast (lastSegment name)) :=
      (h.classes.map Prod.fst).filter _
    refine mem_append_left _ (mem_flatMap.mpr ⟨path, ?_, ?_⟩)
    · exact mem_filter.mpr ⟨hpaths.mem_iff.mp hlast, hnames⟩
    · exact mem_basesOf.mpr ⟨bases, h.classes.mem_iff.mp hrow, hnext⟩
  · exact mem_append_right _ (h.aliasTargets.mem_iff.mp halias)

theorem SameDeclarations.closed (h : cpp.SameDeclarations cpp') {names : Set Text}
    (hclosed : cpp'.Closed caller names) : cpp.Closed caller names :=
  fun name hname next hnext hne => hclosed name hname next (h.follows hnext) hne

theorem SameDeclarations.mem_family (h : cpp.SameDeclarations cpp') {member : Text} :
    member ∈ cpp.family name caller ↔ member ∈ cpp'.family name caller := by
  constructor
  · exact family_least (h.closed family_closed) mem_family_self
  · exact family_least (h.symm.closed family_closed) mem_family_self

theorem sameDeclarations_load {cc : CharClass} {structs structs' : List ClassRow}
    {typeAliases typeAliases' constants constants' : List AliasRow} (includes : IncludeTable)
    (hstructs : structs.Perm structs') (htypes : typeAliases.Perm typeAliases')
    (hconstants : constants.Perm constants') :
    (load cc structs typeAliases constants includes).SameDeclarations
      (load cc structs' typeAliases' constants' includes) where
  classes := hstructs.filterMap _
  aliases := (htypes.filterMap _).append (hconstants.filterMap _)
  includes := rfl

end CppClasses

/-! ## What the lookups keep -/

variable {cpp callerLabel site} {candidates : List SymbolEntry} {c : SymbolEntry}

/-- The method is of a class of the family. -/
def OfFamily (family : List Text) (c : SymbolEntry) : Prop :=
  ∃ owner, ownerOf c.qualifiedName = some owner ∧ holds family owner

theorem mem_methodsOf {family : List Text} :
    c ∈ methodsOf family candidates ↔ c ∈ candidates ∧ isMethod c ∧ OfFamily family c := by
  simp [methodsOf, OfFamily, Option.any_eq_true]

theorem ofFamily_of_qualified (h : c ∈ qualified cpp site candidates) (hmethod : isMethod c) :
    OfFamily (hintedFamily cpp site) c := by
  have hkept := (mem_filter.mp h).2
  rw [hmethod] at hkept
  split at hkept
  next owner _ howner => exact ⟨owner, howner, hkept⟩
  next heq _ => cases heq
  next heq _ => cases heq
  next => cases hkept

/-- Beside the methods of the caller's family an unqualified call keeps
constructors, and those only where the family has no method. -/
theorem ofFamily_of_unqualified (h : c ∈ unqualified cpp callerLabel site candidates)
    (hmethod : isMethod c) : OfFamily (callerFamily cpp callerLabel site) c ∨
      methodsOf (callerFamily cpp callerLabel site) candidates = [] ∧
        isConstructor c site.calleeName := by
  rw [unqualified] at h
  split at h
  next => exact Or.inl (mem_methodsOf.mp h).2.2
  next hown =>
    have hkept := (mem_filter.mp h).2
    rw [hmethod] at hkept
    exact Or.inr ⟨not_not.mp hown, hkept⟩

/-- What a lookup keeps of the methods: those of its family, and beside them the
constructors an unqualified call can mean. -/
theorem ofFamily_of_scope {language : Text} {allowed : Scoped}
    (h : scope cpp callerLabel site language candidates = some allowed) (hc : c ∈ allowed.kept)
    (hmethod : isMethod c) : OfFamily (lookupFamily cpp callerLabel site) c ∨
      isConstructor c site.calleeName := by
  rw [scope] at h
  split at h
  · cases h
  split at h
  next hthis =>
    cases h
    have hfamily : lookupFamily cpp callerLabel site = callerFamily cpp callerLabel site := by
      rw [lookupFamily, if_neg]
      rw [hthis]
      decide
    exact Or.inl (hfamily ▸ (mem_methodsOf.mp hc).2.2)
  split at h
  next hdeclared =>
    cases h
    rw [lookupFamily, if_pos (Or.inl hdeclared)]
    exact Or.inl (mem_methodsOf.mp hc).2.2
  next hdeclared =>
    split at h
    next hqualifier =>
      cases h
      rw [lookupFamily, if_pos (Or.inr hqualifier)]
      exact Or.inl (ofFamily_of_qualified hc hmethod)
    next hqualifier =>
      split at h
      · cases h
        rw [lookupFamily, if_neg (not_or.mpr ⟨hdeclared, hqualifier⟩)]
        exact (ofFamily_of_unqualified hc hmethod).imp_right And.right
      · cases h

/-- The constructor of `Widget`. -/
def widget : SymbolEntry := ⟨"w.h::Widget::Widget".toList, "Method".toList, _, rfl⟩

/-- The call `Widget(1)` in a function. -/
def widgetSite : CallSite :=
  ⟨"a.cpp::main::call@2:4".toList, "Widget".toList, "cpp".toList, [], [], "direct".toList, []⟩

def noClasses : CppClasses := ⟨[], [], ⟨[], [], nofun, nofun, nofun⟩⟩

-- two classes, each a base of the other
example : { noClasses with
    classes := [("n::a".toList, ["b".toList]), ("n::b".toList, ["a".toList])] }.family
      "a".toList [] = ["b".toList, "a".toList] := by decide

end Resolver

end CodeGraph
