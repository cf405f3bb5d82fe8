import CodeGraph.CfgTwins
import CodeGraph.Lib.Worklist

/-!
# Module trees

The files a crate's `mod name;` declarations lead to. What each file declares
is a table; which file a declaration names is computed as the compiler does,
`#[path]` and `cfg_attr(.., path = ..)` included.

A declaration path is the list of declarations that lead from one file to
another (`Declares`). The path, not the file, is what carries a module path and
a gate: one file can be reached along several.
-/

namespace CodeGraph

open Kleene (Truth)

/-! ## Paths -/

/-- A root-relative path, by its components. -/
abbrev FilePath := List Text

/-- A path as an id: forward slashes. -/
def idOf (path : FilePath) : Text := joinWith "/".toList path

/-- Folds the `.` and `..` components away, `none` when the path climbs above
its first component. -/
def lexicalFrom : (out : FilePath) → List Text → Option FilePath
  | out, [] => some out
  | out, component :: rest =>
      if component = ".".toList then lexicalFrom out rest
      else if component = "..".toList then
        if out = [] then none else lexicalFrom out.dropLast rest
      else lexicalFrom (out ++ [component]) rest

/-- `dir` joined with a written path, folded; an absolute path names nothing. -/
def lexicalJoin (dir : FilePath) (path : Text) : Option FilePath :=
  if path.head? = some '/' then none
  else lexicalFrom [] (dir ++ (splitOnChar '/' path).filter (· ≠ []))

/-- A file name without its extension; a leading dot starts none. -/
def fileStem (name : Text) : Text :=
  match beforeLast ".".toList name with
  | some [] => name
  | some stem => stem
  | none => name

/-! ## Declarations -/

/-- One `path` a `cfg_attr` gives a declaration, with the predicate that gives
it; `pred` is `none` when it did not parse. The parser returns well-formed
predicates only (`parseCfgArguments_wellFormed`). -/
structure AltPath where
  pred : Option CfgPredicate
  path : Text
  wf : ∀ p ∈ pred, p.WellFormed

/-- One `mod name;` item. `cfg` holds its `cfg` attributes, `none` when one of
them did not parse; `cfgText` is their source text. -/
structure ModDecl where
  name : Text
  pathAttr : Option Text
  cfg : Option (List CfgPredicate)
  cfgText : Text
  altPaths : List AltPath
  wf : ∀ all ∈ cfg, ∀ p ∈ all, p.WellFormed

/-- The negations of the predicates of the `cfg_attr` paths. -/
def negatedPreds : List AltPath → Option (List CfgPredicate)
  | [] => some []
  | alt :: alts => do
      let p ← alt.pred
      let rest ← negatedPreds alts
      some (.not p :: rest)

theorem negatedPreds_wf : ∀ {alts : List AltPath} {ps : List CfgPredicate},
    negatedPreds alts = some ps → ∀ p ∈ ps, p.WellFormed
  | [], ps, h => by cases h; exact nofun
  | alt :: alts, ps, h => by
      obtain ⟨p, hp, h⟩ := Option.bind_eq_some_iff.mp h
      obtain ⟨rest, hrest, h⟩ := Option.bind_eq_some_iff.mp h
      cases h
      intro q hq
      rcases List.mem_cons.mp hq with rfl | hq
      · exact CfgPredicate.wellFormed_not.mpr (alt.wf p hp)
      · exact negatedPreds_wf hrest q hq

/-- The gate of a declaration with more conjuncts; `none` when a part did not
parse. -/
def gatedBy (cfg extra : Option (List CfgPredicate)) : Option (List CfgPredicate) := do
  let all ← cfg
  let extra ← extra
  some (all ++ extra)

theorem gatedBy_wf {cfg extra : Option (List CfgPredicate)}
    (hcfg : ∀ all ∈ cfg, ∀ p ∈ all, p.WellFormed)
    (hextra : ∀ all ∈ extra, ∀ p ∈ all, p.WellFormed) :
    ∀ all ∈ gatedBy cfg extra, ∀ p ∈ all, p.WellFormed := by
  intro all hall p hp
  obtain ⟨own, hown, h⟩ := Option.bind_eq_some_iff.mp hall
  obtain ⟨more, hmore, h⟩ := Option.bind_eq_some_iff.mp h
  cases h
  rcases List.mem_append.mp hp with hp | hp
  · exact hcfg own hown p hp
  · exact hextra more hmore p hp

/-- The files one declaration can name, each with the gate under which it does:
one per `cfg_attr` path, then the declaration itself under the negation of
every such predicate. -/
def alternatives (decl : ModDecl) : List ModDecl :=
  decl.altPaths.map (fun alt =>
    { name := decl.name
      pathAttr := some alt.path
      cfg := gatedBy decl.cfg (alt.pred.map ([·]))
      cfgText := decl.cfgText
      altPaths := []
      wf := gatedBy_wf decl.wf fun all hall p hp => by
        obtain ⟨q, hq, rfl⟩ := Option.map_eq_some_iff.mp hall
        exact List.mem_singleton.mp hp ▸ alt.wf q hq }) ++
  [{ name := decl.name
     pathAttr := decl.pathAttr
     cfg := gatedBy decl.cfg (negatedPreds decl.altPaths)
     cfgText := decl.cfgText
     altPaths := []
     wf := gatedBy_wf decl.wf fun _ hall => negatedPreds_wf hall }]

/-- One compiled target's entry file and its package's default features. -/
structure CrateRoot where
  entry : FilePath
  defaultFeatures : Finset Text

/-- What the walks need: the declarations of each file, the indexed files, the
crate roots. -/
structure ModuleTree where
  decls : FilePath → List ModDecl
  indexed : Finset FilePath
  crateRoots : List CrateRoot

namespace ModuleTree

variable (tree : ModuleTree)

/-- The directory the modules of `file` lie in: its own when it owns its
directory, the one of its stem otherwise. -/
def moduleDir (file : FilePath) (ownsDirectory : Bool) : Option FilePath :=
  if ownsDirectory then some file.dropLast
  else file.getLast?.map fun name => file.dropLast ++ [fileStem name]

/-- Resolves a declaration of `file` to an indexed file. -/
def moduleFile (file : FilePath) (ownsDirectory : Bool) (decl : ModDecl) : Option FilePath :=
  match decl.pathAttr with
  | some path => (lexicalJoin file.dropLast path).filter (· ∈ tree.indexed)
  | none => do
      let dir ← moduleDir file ownsDirectory
      [dir ++ [decl.name ++ ".rs".toList], dir ++ [decl.name, "mod.rs".toList]].find?
        (· ∈ tree.indexed)

/-- The declarations of `file` that resolve to an indexed file, each
alternative of a `cfg_attr` path apart. -/
def children (file : FilePath) : List (ModDecl × FilePath) :=
  let ownsDirectory := decide (file ∈ tree.crateRoots.map CrateRoot.entry) ||
    decide (file.getLast? = some "mod.rs".toList)
  (tree.decls file).flatMap fun decl =>
    (alternatives decl).filterMap fun alternative =>
      (tree.moduleFile file ownsDirectory alternative).map (alternative, ·)

/-- The crate roots whose entry is indexed, the ones the walks start from. -/
def IsRoot (root : CrateRoot) : Prop := root ∈ tree.crateRoots ∧ root.entry ∈ tree.indexed

variable {tree}

theorem mem_indexed_of_moduleFile {file target : FilePath} {owns : Bool} {decl : ModDecl}
    (h : tree.moduleFile file owns decl = some target) : target ∈ tree.indexed := by
  unfold moduleFile at h
  split at h
  · simpa using (Option.filter_eq_some_iff.mp h).2
  · obtain ⟨dir, -, h⟩ := Option.bind_eq_some_iff.mp h
    simpa using List.find?_some h

theorem mem_indexed_of_children {file target : FilePath} {decl : ModDecl}
    (h : (decl, target) ∈ tree.children file) : target ∈ tree.indexed := by
  obtain ⟨_, -, h⟩ := List.mem_flatMap.mp h
  obtain ⟨_, -, h⟩ := List.mem_filterMap.mp h
  obtain ⟨target', htarget, heq⟩ := Option.map_eq_some_iff.mp h
  cases heq
  exact mem_indexed_of_moduleFile htarget

/-! ## Declaration paths -/

/-- `Declares a ds b`: the declarations `ds` lead from the file `a` to `b`. -/
inductive Declares (tree : ModuleTree) : FilePath → List ModDecl → FilePath → Prop
  | here (file : FilePath) : Declares tree file [] file
  | step {file target last : FilePath} {decl : ModDecl} {ds : List ModDecl}
      (h : (decl, target) ∈ tree.children file) (rest : Declares tree target ds last) :
      Declares tree file (decl :: ds) last

/-- `b` is declared in `a`. -/
def Child (tree : ModuleTree) (a b : FilePath) : Prop := ∃ decl, (decl, b) ∈ tree.children a

theorem finite_reachable (a : FilePath) : {b | Relation.ReflTransGen tree.Child a b}.Finite := by
  refine ((Set.finite_singleton a).union tree.indexed.finite_toSet).subset ?_
  intro b hb
  rcases hb.cases_tail with rfl | ⟨c, -, decl, hdecl⟩
  · exact Or.inl rfl
  · exact Or.inr (mem_indexed_of_children hdecl)

/-- No file that a walk reaches from an indexed crate root declares itself,
directly or through others. -/
def Acyclic (tree : ModuleTree) : Prop :=
  ∀ root, tree.IsRoot root → ∀ file, Relation.ReflTransGen tree.Child root.entry file →
    ¬ Relation.TransGen tree.Child file file

/-- The declaration's own gate, `unknown` when it did not parse. -/
def gate (decl : ModDecl) (enabled : Finset Text) : Truth :=
  match decl.cfg with
  | some all => (CfgPredicate.all all).eval enabled
  | none => .unknown

/-- A declaration path is false under a profile when the gate of one of its
declarations is. -/
def PathFalse (profile : BuildProfile) (ds : List ModDecl) : Prop :=
  ∃ decl ∈ ds, ∃ all, decl.cfg = some all ∧ (CfgPredicate.all all).evalIn profile = .false

theorem evalIn_false_of_gate_false {decl : ModDecl} {enabled : Finset Text}
    (h : gate decl enabled = .false) : ∃ all, decl.cfg = some all ∧
      (CfgPredicate.all all).evalIn (.withFeatures enabled) = .false := by
  unfold gate at h
  split at h
  · next all hall =>
    refine ⟨all, hall, ?_⟩
    have hrefines := CfgPredicate.eval_refines_evalIn (.withFeatures enabled) (.all all)
    exact (hrefines.eq_of_known (by
      show (CfgPredicate.all all).eval enabled ≠ .unknown
      rw [h]
      nofun)).trans h
  · cases h

end ModuleTree

end CodeGraph
