import CodeGraph.WrittenPath

/-!
# The rules of a bound name

What a name of a module is bound to, as the rules say it: a relation over the rows
that a module declares, first rule first (`Rules`). The loop computes it
(`bindAt_eq_iff`), and as the rules ask only which rows there are, the order of the
rows and of the scopes that declare them plays no part (`rules_reorder`).
-/

namespace CodeGraph

open List

namespace Resolver

namespace BindRules

open Reexport (anchorIn HasRow ExplicitUse ExplicitTo HasExplicit GlobTo Leads)

/-! ## The rules -/

section Rules

variable (ctx : ResolveContext) (callerFile name : Text) (admitsAny : Text → WrittenPath → Bool)
  (modules : Bool)

def Declares (scopes : List Text) (row : ImportRow) : Prop :=
  ∃ scope ∈ scopes, (scope, row) ∈ ctx.facts.imports

def Defined (level : Level) : Prop :=
  ctx.definedAt callerFile level.module name = true ∨
    modules = true ∧ ctx.definesModule callerFile level.module name = true

/-- An explicit `use` of the name writes the path. -/
def ExplicitPath (level : Level) (path : Text) : Prop :=
  ∃ row, Declares ctx level.scopes row ∧ row.isGlob = false ∧ row.binds = name ∧ row.path = path

def GlobPath (level : Level) (glob : Text) : Prop :=
  ∃ row, Declares ctx level.scopes row ∧ row.isGlob = true ∧ row.path = glob

/-- The name as the glob would give it. -/
def through (glob : Text) : Text := glob ++ colons ++ name

/-- The glob gives the name a path that a candidate is admitted by. -/
structure Admitted (level : Level) (glob : Text) (path : WrittenPath) : Prop where
  isGlob : GlobPath ctx level glob
  read : WrittenPath.imported ctx.facts callerFile level.module (through name glob) = some path
  admits : admitsAny (through name glob) path = true

/-- No explicit `use` names it, and some glob is not that of the module above. -/
structure ByGlobs (level : Level) : Prop where
  unbound : ∀ path, ¬ExplicitPath ctx name level path
  other : ∃ glob, GlobPath ctx level glob ∧ glob ≠ "super".toList

/-- No explicit `use` names it, and the globs are those of the module above. -/
structure ByParent (level : Level) : Prop where
  unbound : ∀ path, ¬ExplicitPath ctx name level path
  glob : ∃ glob, GlobPath ctx level glob
  parent : ∀ glob, GlobPath ctx level glob → glob = "super".toList

/-- The rules in their order; at the top level a definition was asked for before. -/
inductive Rules : (top : Bool) → Level → Binding → Prop
  | defined {level : Level} (h : Defined ctx callerFile name modules level) :
      Rules false level (.path name (.exact callerFile (.crateRoot (level.module ++ [name]))) false)
  | oneUse {top : Bool} {level : Level} {written : Text} {path : WrittenPath}
      (hdef : top = false → ¬Defined ctx callerFile name modules level)
      (huse : ExplicitPath ctx name level written)
      (honly : ∀ other, ExplicitPath ctx name level other → other = written)
      (hread : WrittenPath.imported ctx.facts callerFile level.module written = some path) :
      Rules top level (.path written path (ctx.mayBeThisCrate written))
  | unreadable {top : Bool} {level : Level} {written : Text}
      (hdef : top = false → ¬Defined ctx callerFile name modules level)
      (huse : ExplicitPath ctx name level written)
      (honly : ∀ other, ExplicitPath ctx name level other → other = written)
      (hread : WrittenPath.imported ctx.facts callerFile level.module written = none) :
      Rules top level .decline
  | twoUses {top : Bool} {level : Level} {written other : Text}
      (hdef : top = false → ¬Defined ctx callerFile name modules level) (hne : written ≠ other)
      (huse : ExplicitPath ctx name level written)
      (hother : ExplicitPath ctx name level other) : Rules top level .decline
  | climb {top : Bool} {level above : Level} {b : Binding}
      (hdef : top = false → ¬Defined ctx callerFile name modules level)
      (hparent : ByParent ctx name level) (hup : ctx.up callerFile level = some above)
      (habove : Rules false above b) : Rules top level b
  | pastRoot {top : Bool} {level : Level}
      (hdef : top = false → ¬Defined ctx callerFile name modules level)
      (hparent : ByParent ctx name level) (hup : ctx.up callerFile level = none) :
      Rules top level .decline
  | oneGlob {top : Bool} {level : Level} {glob : Text} {path : WrittenPath}
      (hdef : top = false → ¬Defined ctx callerFile name modules level)
      (hglobs : ByGlobs ctx name level)
      (hhit : Admitted ctx callerFile name admitsAny level glob path)
      (honly : ∀ other path, Admitted ctx callerFile name admitsAny level other path →
        other = glob) :
      Rules top level (.path (through name glob) path (ctx.mayBeThisCrate (through name glob)))
  | twoGlobs {top : Bool} {level : Level} {glob other : Text} {path otherPath : WrittenPath}
      (hdef : top = false → ¬Defined ctx callerFile name modules level)
      (hglobs : ByGlobs ctx name level) (hne : glob ≠ other)
      (hhit : Admitted ctx callerFile name admitsAny level glob path)
      (hother : Admitted ctx callerFile name admitsAny level other otherPath) :
      Rules top level .decline
  | outside {top : Bool} {level : Level} {glob : Text}
      (hdef : top = false → ¬Defined ctx callerFile name modules level)
      (hglobs : ByGlobs ctx name level)
      (hnone : ∀ other path, ¬Admitted ctx callerFile name admitsAny level other path)
      (hknown : ctx.facts.evidence.known = true) (hglob : GlobPath ctx level glob)
      (hout : ctx.inRepository callerFile level.module glob = false) : Rules top level .decline
  | lacking {top : Bool} {level : Level}
      (hdef : top = false → ¬Defined ctx callerFile name modules level)
      (hglobs : ByGlobs ctx name level)
      (hnone : ∀ other path, ¬Admitted ctx callerFile name admitsAny level other path)
      (hin : ctx.facts.evidence.known = false ∨
        ∀ glob, GlobPath ctx level glob → ctx.inRepository callerFile level.module glob = true) :
      Rules top level .byName
  | nothing {top : Bool} {level : Level}
      (hdef : top = false → ¬Defined ctx callerFile name modules level)
      (hunbound : ∀ path, ¬ExplicitPath ctx name level path)
      (hnone : ∀ glob, ¬GlobPath ctx level glob) : Rules top level .byName

end Rules

/-- The caller's own module: the file, then the inline modules around the caller. -/
def callerLevel (ctx : ResolveContext) (callerQn : Text) : Level :=
  let scope := callerScope ctx.idx callerQn
  ⟨ctx.facts.evidence.scopeModulePath scope, [scope]⟩

def DefinedHere (ctx : ResolveContext) (callerQn name : Text) (defines : Defines) : Prop :=
  ctx.definedInScope (callerScope ctx.idx callerQn) name = true ∨
    defines = .typesAndModules ∧ ctx.definesModule (extractFilePrefixOrSelf callerQn)
      (callerLevel ctx callerQn).module name = true

/-- What a name of the caller's module is bound to. -/
inductive BindsTo (ctx : ResolveContext) (callerQn name : Text)
    (admitsAny : Text → WrittenPath → Bool) (defines : Defines) : Binding → Prop
  | here (h : DefinedHere ctx callerQn name defines) : BindsTo _ _ _ _ _ .byName
  | rules {b : Binding} (h : ¬DefinedHere ctx callerQn name defines)
      (hrules : Rules ctx (extractFilePrefixOrSelf callerQn) name admitsAny
        (defines = .typesAndModules) true (callerLevel ctx callerQn) b) : BindsTo _ _ _ _ _ b

/-! ## The lists behind the rules -/

section Lists

variable {ctx : ResolveContext} {callerFile name : Text}
  {admitsAny : Text → WrittenPath → Bool} {level : Level}

theorem nodup_distinct (rows : List ImportRow) : (ResolveContext.distinct rows).Nodup :=
  (SortDedup.pairwise_sortDedup fun _ _ _ _ h => h).imp fun h => h.ne

theorem mem_rows {row : ImportRow} : row ∈ level.scopes.flatMap ctx.facts.imports.ofScope ↔
    Declares ctx level.scopes row := by
  simp only [mem_flatMap, ModuleImports.ofScope, mem_map, mem_filter,
    decide_eq_true_iff, Declares]
  constructor
  · rintro ⟨scope, hscope, ⟨_, _⟩, ⟨hentry, rfl⟩, rfl⟩
    exact ⟨_, hscope, hentry⟩
  · rintro ⟨scope, hscope, hentry⟩
    exact ⟨scope, hscope, _, ⟨hentry, rfl⟩, rfl⟩

def explicitPaths (ctx : ResolveContext) (name : Text) (level : Level) : List Text :=
  ResolveContext.distinct <| (level.scopes.flatMap ctx.facts.imports.ofScope).filter fun r =>
    !r.isGlob && r.binds = name

def globPaths (ctx : ResolveContext) (level : Level) : List Text :=
  ResolveContext.distinct <|
    (level.scopes.flatMap ctx.facts.imports.ofScope).filter ImportRow.isGlob

theorem mem_explicitPaths {path : Text} :
    path ∈ explicitPaths ctx name level ↔ ExplicitPath ctx name level path := by
  simp only [explicitPaths, ResolveContext.distinct, SortDedup.mem_sortDedup, mem_map,
    mem_filter, mem_rows, Bool.and_eq_true, Bool.not_eq_true', decide_eq_true_iff,
    ExplicitPath, and_assoc]

theorem mem_globPaths {glob : Text} :
    glob ∈ globPaths ctx level ↔ GlobPath ctx level glob := by
  simp only [globPaths, ResolveContext.distinct, SortDedup.mem_sortDedup, mem_map,
    mem_filter, mem_rows, GlobPath, and_assoc]

/-- The globs that give the name a path, each with it. -/
def hits (ctx : ResolveContext) (callerFile name : Text) (admitsAny : Text → WrittenPath → Bool)
    (level : Level) (globs : List Text) : List (Text × WrittenPath) :=
  globs.filterMap fun glob =>
    ((WrittenPath.imported ctx.facts callerFile level.module (through name glob)).filter
      (admitsAny (through name glob))).map (through name glob, ·)

theorem through_injective (name : Text) : Function.Injective (through name) := fun _ _ h =>
  append_cancel_right (append_cancel_right h)

theorem mem_hits {hit : Text × WrittenPath} :
    hit ∈ hits ctx callerFile name admitsAny level (globPaths ctx level) ↔
      ∃ glob, hit.1 = through name glob ∧
        Admitted ctx callerFile name admitsAny level glob hit.2 := by
  obtain ⟨hint, path⟩ := hit
  simp only [hits, mem_filterMap, mem_globPaths, Option.map_eq_some_iff,
    Option.filter_eq_some_iff, Prod.mk.injEq]
  constructor
  · rintro ⟨glob, hglob, _, ⟨hread, hadmits⟩, rfl, rfl⟩
    exact ⟨glob, rfl, hglob, hread, hadmits⟩
  · rintro ⟨glob, rfl, hglob, hread, hadmits⟩
    exact ⟨glob, hglob, path, ⟨hread, hadmits⟩, rfl, rfl⟩

theorem nodup_hits : (hits ctx callerFile name admitsAny level (globPaths ctx level)).Nodup := by
  refine (nodup_distinct _).filterMap fun g g' hit h h' => ?_
  obtain ⟨path, -, rfl⟩ := Option.map_eq_some_iff.mp h
  obtain ⟨path', -, heq⟩ := Option.map_eq_some_iff.mp h'
  exact (through_injective name (Prod.mk.inj heq).1).symm

theorem nodup_cases {α : Type*} {l : List α} (hl : l.Nodup) {P : α → Prop}
    (hmem : ∀ a, a ∈ l ↔ P a) : (l = [] ↔ ∀ a, ¬P a) ∧
      (∀ a, l = [a] ↔ P a ∧ ∀ b, P b → b = a) ∧
      ((∃ a b rest, l = a :: b :: rest) ↔ ∃ a b, a ≠ b ∧ P a ∧ P b) := by
  refine ⟨?_, fun a => ?_, ?_⟩
  · rw [eq_nil_iff_forall_not_mem]
    exact forall_congr' fun a => not_congr (hmem a)
  · rw [← perm_singleton, perm_ext_iff_of_nodup hl (nodup_singleton a)]
    simp only [hmem, mem_singleton]
    exact ⟨fun h => ⟨(h a).mpr rfl, fun b => (h b).mp⟩,
      fun ⟨ha, honly⟩ b => ⟨honly b, fun h => h ▸ ha⟩⟩
  · constructor
    · rintro ⟨a, b, rest, rfl⟩
      refine ⟨a, b, fun hab => ?_, (hmem a).mp (by simp), (hmem b).mp (by simp)⟩
      exact (nodup_cons.mp hl).1 (hab ▸ mem_cons_self)
    · rintro ⟨a, b, hab, ha, hb⟩
      match l, (hmem a).mpr ha, (hmem b).mpr hb with
      | c :: d :: rest, _, _ => exact ⟨c, d, rest, rfl⟩
      | [c], hac, hbc =>
          exact absurd ((mem_singleton.mp hac).trans (mem_singleton.mp hbc).symm) hab

theorem explicitPaths_cases (level : Level) :
    (explicitPaths ctx name level = [] ↔ ∀ path, ¬ExplicitPath ctx name level path) ∧
      (∀ path, explicitPaths ctx name level = [path] ↔ ExplicitPath ctx name level path ∧
        ∀ other, ExplicitPath ctx name level other → other = path) ∧
      ((∃ p q rest, explicitPaths ctx name level = p :: q :: rest) ↔
        ∃ p q, p ≠ q ∧ ExplicitPath ctx name level p ∧ ExplicitPath ctx name level q) :=
  nodup_cases (nodup_distinct _) fun _ => mem_explicitPaths

theorem hits_cases (ctx : ResolveContext) (callerFile name : Text)
    (admitsAny : Text → WrittenPath → Bool) (level : Level) :
    let found := hits ctx callerFile name admitsAny level (globPaths ctx level)
    let Hit (hit : Text × WrittenPath) := ∃ glob, hit.1 = through name glob ∧
      Admitted ctx callerFile name admitsAny level glob hit.2
    (found = [] ↔ ∀ hit, ¬Hit hit) ∧
      (∀ hit, found = [hit] ↔ Hit hit ∧ ∀ other, Hit other → other = hit) ∧
      ((∃ a b rest, found = a :: b :: rest) ↔ ∃ a b, a ≠ b ∧ Hit a ∧ Hit b) :=
  nodup_cases nodup_hits fun _ => mem_hits

end Lists

/-! ## The loop computes the rules -/

section Loop

variable {ctx : ResolveContext} {callerFile name : Text}
  {admitsAny : Text → WrittenPath → Bool} {modules : Bool}

/-- The condition of the loop that a definition of the module meets. -/
theorem defined_iff {level : Level} :
    (ctx.definedAt callerFile level.module name ||
      (modules && ctx.definesModule callerFile level.module name)) = true ↔
        Defined ctx callerFile name modules level := by
  rw [Bool.or_eq_true, Bool.and_eq_true, Defined]

theorem bindAt_defined {level : Level} (h : Defined ctx callerFile name modules level) :
    ctx.bindAt callerFile name admitsAny modules false level =
      .path name (.exact callerFile (.crateRoot (level.module ++ [name]))) false := by
  rw [ResolveContext.bindAt, defined_iff.mpr h]
  rfl

variable {top : Bool}

theorem bindAt_undefined {level : Level}
    (h : top = false → ¬Defined ctx callerFile name modules level) :
    ctx.bindAt callerFile name admitsAny modules top level =
      match explicitPaths ctx name level with
      | [path] => ctx.readUse callerFile level.module path
      | _ :: _ :: _ => .decline
      | [] =>
          if globPaths ctx level = [] then .byName
          else if (globPaths ctx level).all (· = "super".toList) then
            match ctx.up callerFile level with
            | none => .decline
            | some above => ctx.bindAt callerFile name admitsAny modules false above
          else ctx.throughGlobs callerFile level.module name (globPaths ctx level) admitsAny := by
  have hcond : ¬(!top && (ctx.definedAt callerFile level.module name ||
      (modules && ctx.definesModule callerFile level.module name))) = true := by
    rw [Bool.and_eq_true, defined_iff, Bool.not_eq_true']
    exact fun hd => h hd.1 hd.2
  rw [ResolveContext.bindAt, if_neg hcond]
  change (match explicitPaths ctx name level with
    | [path] => _
    | _ :: _ :: _ => _
    | [] => if globPaths ctx level = [] then _ else _) = _
  split
  · rfl
  · rfl
  · congr 1
    congr 1
    split <;> simp_all

theorem globPaths_ne_nil {level : Level} {glob : Text} (h : GlobPath ctx level glob) :
    globPaths ctx level ≠ [] :=
  ne_nil_of_mem (mem_globPaths.mpr h)

theorem bindAt_unbound {level : Level}
    (h : top = false → ¬Defined ctx callerFile name modules level)
    (hunbound : ∀ path, ¬ExplicitPath ctx name level path) :
    ctx.bindAt callerFile name admitsAny modules top level =
      if globPaths ctx level = [] then .byName
      else if (globPaths ctx level).all (· = "super".toList) then
        match ctx.up callerFile level with
        | none => .decline
        | some above => ctx.bindAt callerFile name admitsAny modules false above
      else ctx.throughGlobs callerFile level.module name (globPaths ctx level) admitsAny := by
  rw [bindAt_undefined h, (explicitPaths_cases level).1.mpr hunbound]

theorem bindAt_byParent {level : Level}
    (h : top = false → ¬Defined ctx callerFile name modules level)
    (hparent : ByParent ctx name level) : ctx.bindAt callerFile name admitsAny modules top level =
      match ctx.up callerFile level with
      | none => .decline
      | some above => ctx.bindAt callerFile name admitsAny modules false above := by
  obtain ⟨glob, hglob⟩ := hparent.glob
  have hall : (globPaths ctx level).all (· = "super".toList) = true :=
    all_eq_true.mpr fun g hg => decide_eq_true (hparent.parent g (mem_globPaths.mp hg))
  rw [bindAt_unbound h hparent.unbound, if_neg (globPaths_ne_nil hglob), if_pos hall]

theorem bindAt_byGlobs {level : Level}
    (h : top = false → ¬Defined ctx callerFile name modules level)
    (hglobs : ByGlobs ctx name level) : ctx.bindAt callerFile name admitsAny modules top level =
      match hits ctx callerFile name admitsAny level (globPaths ctx level) with
      | [] =>
          if !ctx.facts.evidence.known ||
            (globPaths ctx level).all (ctx.inRepository callerFile level.module) then .byName
          else .decline
      | [(hint, path)] => .path hint path (ctx.mayBeThisCrate hint)
      | _ :: _ :: _ => .decline := by
  obtain ⟨glob, hglob, hne⟩ := hglobs.other
  have hall : ¬(globPaths ctx level).all (· = "super".toList) = true := fun hall =>
    hne (of_decide_eq_true (all_eq_true.mp hall glob (mem_globPaths.mpr hglob)))
  rw [bindAt_unbound h hglobs.unbound, if_neg (globPaths_ne_nil hglob), if_neg hall]
  rfl

theorem bindAt_of_rules {level : Level} {b : Binding}
    (h : Rules ctx callerFile name admitsAny modules top level b) :
    ctx.bindAt callerFile name admitsAny modules top level = b := by
  induction h with
  | defined h => exact bindAt_defined h
  | oneUse hdef huse honly hread =>
      rw [bindAt_undefined hdef, ((explicitPaths_cases _).2.1 _).mpr ⟨huse, honly⟩]
      dsimp only
      rw [ResolveContext.readUse, hread]
  | unreadable hdef huse honly hread =>
      rw [bindAt_undefined hdef, ((explicitPaths_cases _).2.1 _).mpr ⟨huse, honly⟩]
      dsimp only
      rw [ResolveContext.readUse, hread]
  | twoUses hdef hne huse hother =>
      obtain ⟨p, q, rest, hlist⟩ :=
        (explicitPaths_cases _).2.2.mpr ⟨_, _, hne, huse, hother⟩
      rw [bindAt_undefined hdef, hlist]
  | climb hdef hparent hup _ ih =>
      rw [bindAt_byParent hdef hparent, hup]
      exact ih
  | pastRoot hdef hparent hup => rw [bindAt_byParent hdef hparent, hup]
  | @oneGlob top level glob path hdef hglobs hhit honly =>
      have hone : hits ctx callerFile name admitsAny level (globPaths ctx level) =
          [(through name glob, path)] := by
        refine ((hits_cases ctx callerFile name admitsAny level).2.1 _).mpr ⟨⟨glob, rfl, hhit⟩, ?_⟩
        rintro ⟨hint, other⟩ ⟨g, rfl, hg⟩
        obtain rfl := honly g other hg
        exact congrArg _ (Option.some.inj (hg.read.symm.trans hhit.read))
      rw [bindAt_byGlobs hdef hglobs, hone]
  | @twoGlobs top level glob other path otherPath hdef hglobs hne hhit hother =>
      have hpairs : (through name glob, path) ≠ (through name other, otherPath) := fun heq =>
        hne (through_injective name (Prod.mk.inj heq).1)
      obtain ⟨p, q, rest, hlist⟩ := (hits_cases ctx callerFile name admitsAny level).2.2.mpr
        ⟨_, _, hpairs, ⟨glob, rfl, hhit⟩, ⟨other, rfl, hother⟩⟩
      rw [bindAt_byGlobs hdef hglobs, hlist]
  | outside hdef hglobs hnone hknown hglob hout =>
      have hnil := (hits_cases ctx callerFile name admitsAny _).1.mpr
        fun hit ⟨g, _, hg⟩ => hnone g hit.2 hg
      rw [bindAt_byGlobs hdef hglobs, hnil]
      refine if_neg fun hin => ?_
      rw [hknown, Bool.not_true, Bool.false_or, all_eq_true] at hin
      exact Bool.false_ne_true (hout.symm.trans (hin _ (mem_globPaths.mpr hglob)))
  | lacking hdef hglobs hnone hin =>
      have hnil := (hits_cases ctx callerFile name admitsAny _).1.mpr
        fun hit ⟨g, _, hg⟩ => hnone g hit.2 hg
      rw [bindAt_byGlobs hdef hglobs, hnil]
      refine if_pos ?_
      rw [Bool.or_eq_true, Bool.not_eq_true', all_eq_true]
      exact hin.imp_right fun h g hg => h g (mem_globPaths.mp hg)
  | nothing hdef hunbound hnone =>
      have hnil : globPaths ctx _ = [] :=
        eq_nil_iff_forall_not_mem.mpr fun g hg => hnone g (mem_globPaths.mp hg)
      rw [bindAt_unbound hdef hunbound, if_pos hnil]

/-- Some rule applies; each step up shortens the module path. -/
theorem exists_rules (top : Bool) (level : Level) :
    ∃ b, Rules ctx callerFile name admitsAny modules top level b := by
  induction hlength : level.module.length using Nat.strong_induction_on generalizing top level with
  | _ n ih =>
  by_cases hdefined : top = false ∧ Defined ctx callerFile name modules level
  · obtain ⟨rfl, hdefined⟩ := hdefined
    exact ⟨_, .defined hdefined⟩
  have hdef : top = false → ¬Defined ctx callerFile name modules level :=
    fun htop h => hdefined ⟨htop, h⟩
  by_cases hbound : ∃ path, ExplicitPath ctx name level path
  · obtain ⟨written, huse⟩ := hbound
    by_cases honly : ∀ other, ExplicitPath ctx name level other → other = written
    · cases hread : WrittenPath.imported ctx.facts callerFile level.module written with
      | some path => exact ⟨_, .oneUse hdef huse honly hread⟩
      | none => exact ⟨_, .unreadable hdef huse honly hread⟩
    · push Not at honly
      obtain ⟨other, hother, hne⟩ := honly
      exact ⟨_, .twoUses hdef hne hother huse⟩
  rw [not_exists] at hbound
  by_cases hglob : ∃ glob, GlobPath ctx level glob
  swap
  · exact ⟨_, .nothing hdef hbound (not_exists.mp hglob)⟩
  by_cases hparent : ∀ glob, GlobPath ctx level glob → glob = "super".toList
  · have hby : ByParent ctx name level := ⟨hbound, hglob, hparent⟩
    cases hup : ctx.up callerFile level with
    | none => exact ⟨_, .pastRoot hdef hby hup⟩
    | some above =>
        obtain ⟨b, hb⟩ := ih _ (hlength ▸ ctx.up_module callerFile hup) false above rfl
        exact ⟨b, .climb hdef hby hup hb⟩
  push Not at hparent
  have hby : ByGlobs ctx name level := ⟨hbound, hparent⟩
  by_cases hhit : ∃ glob path, Admitted ctx callerFile name admitsAny level glob path
  · obtain ⟨glob, path, hhit⟩ := hhit
    by_cases honly : ∀ other path, Admitted ctx callerFile name admitsAny level other path →
        other = glob
    · exact ⟨_, .oneGlob hdef hby hhit honly⟩
    · push Not at honly
      obtain ⟨other, otherPath, hother, hne⟩ := honly
      exact ⟨_, .twoGlobs hdef hby hne hother hhit⟩
  have hnone : ∀ other path, ¬Admitted ctx callerFile name admitsAny level other path :=
    fun other path h => hhit ⟨other, path, h⟩
  by_cases hin : ctx.facts.evidence.known = false ∨
      ∀ glob, GlobPath ctx level glob → ctx.inRepository callerFile level.module glob = true
  · exact ⟨_, .lacking hdef hby hnone hin⟩
  · push Not at hin
    obtain ⟨hknown, glob, hglob, hout⟩ := hin
    exact ⟨_, .outside hdef hby hnone (Bool.eq_true_of_not_eq_false hknown) hglob
      (Bool.eq_false_of_not_eq_true hout)⟩

/-- The loop returns what the first rule that applies gives, and nothing else is
given by the rules. -/
theorem bindAt_eq_iff {level : Level} {b : Binding} :
    Rules ctx callerFile name admitsAny modules top level b ↔
      ctx.bindAt callerFile name admitsAny modules top level = b := by
  refine ⟨bindAt_of_rules, ?_⟩
  rintro rfl
  obtain ⟨b, hb⟩ := @exists_rules ctx callerFile name admitsAny modules top level
  exact (bindAt_of_rules hb).symm ▸ hb

end Loop

/-! ## The order of the rows -/

/-- The same repository with its imports and modules recorded in another order. -/
def reordered (ctx : ResolveContext) (imports : ModuleImports) (recorded : List Text) :
    ResolveContext :=
  { ctx with facts := { ctx.facts with imports := imports }, modules := recorded }

/-- The two paths lead to the same owners. -/
structure SamePath (p q : WrittenPath) : Prop where
  callerFile : p.callerFile = q.callerFile
  anchors : ∀ anchor, anchor ∈ p.anchors ↔ anchor ∈ q.anchors
  item : p.item = q.item

inductive SameBinding : Binding → Binding → Prop
  | byName : SameBinding .byName .byName
  | path {hint : Text} {p q : WrittenPath} {fallback : Bool} (h : SamePath p q) :
      SameBinding (.path hint p fallback) (.path hint q fallback)
  | decline : SameBinding .decline .decline

/-- The paths of a path are read one by one, in no order: a caller can ask of them no more
than which they are. -/
def asks (question : Text → Finset Anchor → Bool) (hint : Text) (path : WrittenPath) : Bool :=
  question hint path.anchors.toFinset

theorem SamePath.asks {p q : WrittenPath} (h : SamePath p q)
    (question : Text → Finset Anchor → Bool) (hint : Text) :
    asks question hint p = asks question hint q := by
  have hset : p.anchors.toFinset = q.anchors.toFinset := by
    ext anchor
    rw [mem_toFinset, mem_toFinset, h.anchors]
  rw [BindRules.asks, BindRules.asks, hset]

section Follow

variable {facts : PathFacts} {imports : ModuleImports} {callerFile : Text}

theorem hasRow_reordered (h : imports.Perm facts.imports) {lib : Option Text}
    {module : List Text} {row : ImportRow} :
    HasRow { facts with imports := imports } callerFile lib module row ↔
      HasRow facts callerFile lib module row :=
  exists_congr fun _ => and_congr_left' h.mem_iff

variable {anchor : Anchor}

theorem explicitUse_reordered (h : imports.Perm facts.imports)
    {module : List Text} {name : Text} {row : ImportRow} :
    ExplicitUse { facts with imports := imports } callerFile anchor module name row ↔
      ExplicitUse facts callerFile anchor module name row :=
  ⟨fun ⟨hsplit, hrow, hglob, hbinds⟩ => ⟨hsplit, (hasRow_reordered h).mp hrow, hglob, hbinds⟩,
    fun ⟨hsplit, hrow, hglob, hbinds⟩ => ⟨hsplit, (hasRow_reordered h).mpr hrow, hglob, hbinds⟩⟩

theorem explicitTo_reordered (h : imports.Perm facts.imports) {target : Anchor} :
    ExplicitTo { facts with imports := imports } callerFile anchor target ↔
      ExplicitTo facts callerFile anchor target :=
  exists_congr fun _ => exists_congr fun _ => exists_congr fun _ =>
    and_congr_left' (explicitUse_reordered h)

theorem hasExplicit_reordered (h : imports.Perm facts.imports) :
    HasExplicit { facts with imports := imports } callerFile anchor ↔
      HasExplicit facts callerFile anchor :=
  exists_congr fun _ => exists_congr fun _ => exists_congr fun _ => explicitUse_reordered h

theorem leads_reordered (h : imports.Perm facts.imports) :
    Leads { facts with imports := imports } callerFile = Leads facts callerFile := by
  have hglob : ∀ anchor target, GlobTo { facts with imports := imports } callerFile anchor target ↔
      GlobTo facts callerFile anchor target := fun anchor target =>
    exists_congr fun _ => exists_congr fun _ => exists_congr fun _ =>
      and_congr_right' (and_congr_left' (hasRow_reordered h))
  funext anchor target
  refine propext ⟨fun hleads => ?_, fun hleads => ?_⟩
  · cases hleads with
    | explicit hto => exact .explicit ((explicitTo_reordered h).mp hto)
    | glob hnone hto =>
        exact .glob ((hasExplicit_reordered h).not.mp hnone) ((hglob anchor target).mp hto)
  · cases hleads with
    | explicit hto => exact .explicit ((explicitTo_reordered h).mpr hto)
    | glob hnone hto =>
        exact .glob ((hasExplicit_reordered h).not.mpr hnone) ((hglob anchor target).mpr hto)

theorem stays_reordered (h : imports.Perm facts.imports) :
    Reexport.Stays { facts with imports := imports } callerFile anchor ↔
      Reexport.Stays facts callerFile anchor :=
  imp_congr (hasExplicit_reordered h) <| and_congr
    (exists_congr fun _ => explicitTo_reordered h)
    (forall_congr' fun _ => imp_congr_left (explicitTo_reordered h))

theorem mem_followed_reordered (h : imports.Perm facts.imports) {start : Anchor} :
    anchor ∈ followed { facts with imports := imports } callerFile start ↔
      anchor ∈ followed facts callerFile start := by
  rw [mem_followed, mem_followed, leads_reordered h, stays_reordered h]

/-- A written path is read in either order or in neither, and leads to the same owners. -/
theorem imported_reordered (h : imports.Perm facts.imports) (module : List Text) (written : Text) :
    Option.Rel SamePath (WrittenPath.imported facts callerFile module written)
      (WrittenPath.imported { facts with imports := imports } callerFile module written) := by
  simp only [WrittenPath.imported, Option.bind_eq_bind]
  cases anchorIn facts.evidence none module (pathSegments facts.cc written) with
  | none => exact .none
  | some anchor =>
      simp only [Option.bind_some, WrittenPath.following]
      split
      · exact .none
      · exact .some ⟨rfl, fun _ => (mem_followed_reordered h).symm, rfl⟩

end Follow

theorem nodup_eraseDups {α : Type*} [BEq α] [LawfulBEq α] (l : List α) : l.eraseDups.Nodup := by
  induction hlength : l.length using Nat.strong_induction_on generalizing l with
  | _ n ih =>
  cases l with
  | nil => simp
  | cons a l =>
      rw [eraseDups_cons, nodup_cons]
      constructor
      · simp
      · refine ih _ ?_ _ rfl
        rw [← hlength, length_cons]
        exact Nat.lt_succ_of_le (length_filter_le _ l)

theorem rel_some_left {α β : Type*} {r : α → β → Prop} {a : α} {y : Option β}
    (h : Option.Rel r (some a) y) : ∃ b, y = some b ∧ r a b := by
  cases h with
  | some hab => exact ⟨_, rfl, hab⟩

theorem rel_some_right {α β : Type*} {r : α → β → Prop} {x : Option α} {b : β}
    (h : Option.Rel r x (some b)) : ∃ a, x = some a ∧ r a b := by
  cases h with
  | some hab => exact ⟨_, rfl, hab⟩

theorem rel_none_left {α β : Type*} {r : α → β → Prop} {y : Option β}
    (h : Option.Rel r none y) : y = none := by
  cases h with
  | none => rfl

section Reordered

variable {ctx : ResolveContext} {imports : ModuleImports} {recorded : List Text}
  (himports : imports.Perm ctx.facts.imports) (hrecorded : recorded.Perm ctx.modules)

/-- The same module, its scopes in some order. -/
structure SameLevel (level level' : Level) : Prop where
  module : level'.module = level.module
  scopes : level'.scopes.Perm level.scopes

include himports in
theorem scopesAt_reordered (evidence : CrateEvidence) (module : List Text) :
    (imports.scopesAt evidence module).Perm (ctx.facts.imports.scopesAt evidence module) := by
  refine List.Perm.filter _ ?_
  rw [perm_ext_iff_of_nodup (nodup_eraseDups _) (nodup_eraseDups _)]
  intro scope
  rw [mem_eraseDups, mem_eraseDups, (himports.map Prod.fst).mem_iff]

include himports in
theorem declares_reordered {scopes scopes' : List Text} (h : scopes'.Perm scopes)
    {row : ImportRow} :
    Declares (reordered ctx imports recorded) scopes' row ↔ Declares ctx scopes row :=
  exists_congr fun _ => and_congr h.mem_iff himports.mem_iff

include himports in
theorem explicitPath_reordered {level level' : Level} (h : SameLevel level level') {name path : Text} :
    ExplicitPath (reordered ctx imports recorded) name level' path ↔
      ExplicitPath ctx name level path :=
  exists_congr fun _ => and_congr_left' (declares_reordered himports h.scopes)

variable {glob : Text}

include himports in
theorem globPath_reordered {level level' : Level} (h : SameLevel level level') :
    GlobPath (reordered ctx imports recorded) level' glob ↔ GlobPath ctx level glob :=
  exists_congr fun _ => and_congr_left' (declares_reordered himports h.scopes)

include hrecorded in
theorem anyModuleFile_reordered (p : Text → Bool) (module : List Text) :
    ((reordered ctx imports recorded).moduleFiles module).any p =
      (ctx.moduleFiles module).any p :=
  ((hrecorded.filter _).map _).any_eq

include hrecorded in
theorem definesModule_reordered (callerFile : Text) (module : List Text) (name : Text) :
    (reordered ctx imports recorded).definesModule callerFile module name =
      ctx.definesModule callerFile module name :=
  anyModuleFile_reordered hrecorded _ _

include hrecorded in
theorem defined_reordered {callerFile name : Text} {modules : Bool} {level level' : Level}
    (h : SameLevel level level') :
    Defined (reordered ctx imports recorded) callerFile name modules level' ↔
      Defined ctx callerFile name modules level := by
  rw [Defined, Defined, h.module, definesModule_reordered hrecorded]
  rfl

include hrecorded in
theorem inRepository_reordered (callerFile : Text) (module : List Text) (glob : Text) :
    (reordered ctx imports recorded).inRepository callerFile module glob =
      ctx.inRepository callerFile module glob := by
  simp only [ResolveContext.inRepository, reordered]
  split
  · exact anyModuleFile_reordered hrecorded _ _
  · exact anyModuleFile_reordered hrecorded _ _
  · rfl
  · rfl

theorem inlineParent_same {level level' : Level} (h : SameLevel level level') :
    ResolveContext.inlineParent level' = ResolveContext.inlineParent level := by
  obtain ⟨-, hscopes⟩ := h
  rw [ResolveContext.inlineParent, ResolveContext.inlineParent]
  match hlist : level.scopes with
  | [scope] =>
      rw [hlist] at hscopes
      rw [perm_singleton.mp hscopes]
  | [] =>
      rw [hlist] at hscopes
      rw [perm_nil.mp hscopes]
  | a :: b :: rest =>
      rw [hlist] at hscopes
      match hlist' : level'.scopes, hscopes.length_eq with
      | c :: d :: rest', _ => rfl

variable (recorded) in
include himports in
theorem up_reordered (callerFile : Text) {level level' : Level} (h : SameLevel level level') :
    Option.Rel SameLevel (ctx.up callerFile level)
      ((reordered ctx imports recorded).up callerFile level') := by
  rw [ResolveContext.up, ResolveContext.up, h.module, inlineParent_same h]
  split
  · exact .none
  · refine .some ⟨rfl, ?_⟩
    split
    · exact List.Perm.refl _
    · exact (scopesAt_reordered himports _ _).filter _

variable {callerFile name : Text} {question : Text → Finset Anchor → Bool} {level level' : Level}

variable (recorded callerFile) in
include himports in
theorem read_reordered (h : SameLevel level level') (written : Text) :
    Option.Rel SamePath (WrittenPath.imported ctx.facts callerFile level.module written)
      (WrittenPath.imported (reordered ctx imports recorded).facts callerFile level'.module
        written) := by
  rw [h.module]
  exact imported_reordered himports level.module written

variable (recorded) in
include himports in
theorem Admitted.reordered {path : WrittenPath} (h : SameLevel level level')
    (hhit : Admitted ctx callerFile name (asks question) level glob path) :
    ∃ path', SamePath path path' ∧ Admitted (reordered ctx imports recorded) callerFile name
      (asks question) level' glob path' := by
  have hrel := read_reordered recorded himports callerFile h (through name glob)
  rw [hhit.read] at hrel
  obtain ⟨path', hread, hsame⟩ := rel_some_left hrel
  refine ⟨path', hsame, (globPath_reordered himports h).mpr hhit.isGlob, hread, ?_⟩
  rw [← hsame.asks]
  exact hhit.admits

include himports in
theorem admitted_of_reordered {path' : WrittenPath} (h : SameLevel level level')
    (hhit : Admitted (reordered ctx imports recorded) callerFile name (asks question) level' glob
      path') : ∃ path, Admitted ctx callerFile name (asks question) level glob path := by
  have hrel := read_reordered recorded himports callerFile h (through name glob)
  rw [hhit.read] at hrel
  obtain ⟨path, hread, hsame⟩ := rel_some_right hrel
  refine ⟨path, (globPath_reordered himports h).mp hhit.isGlob, hread, ?_⟩
  rw [hsame.asks]
  exact hhit.admits

include himports in
theorem ByParent.reordered (h : SameLevel level level') (hparent : ByParent ctx name level) :
    ByParent (reordered ctx imports recorded) name level' where
  unbound path hpath := hparent.unbound path ((explicitPath_reordered himports h).mp hpath)
  glob := hparent.glob.imp fun _ => (globPath_reordered himports h).mpr
  parent glob hglob := hparent.parent glob ((globPath_reordered himports h).mp hglob)

include himports in
theorem ByGlobs.reordered (h : SameLevel level level') (hglobs : ByGlobs ctx name level) :
    ByGlobs (reordered ctx imports recorded) name level' where
  unbound path hpath := hglobs.unbound path ((explicitPath_reordered himports h).mp hpath)
  other := hglobs.other.imp fun _ => And.imp_left (globPath_reordered himports h).mpr

include himports hrecorded in
/-- The same rule applies in either order. -/
theorem rules_reordered {modules top : Bool} {b : Binding} (h : SameLevel level level')
    (hrules : Rules ctx callerFile name (asks question) modules top level b) :
    ∃ b', SameBinding b b' ∧ Rules (reordered ctx imports recorded) callerFile name (asks question)
      modules top level' b' := by
  have hundefined : ∀ {top : Bool} {level level' : Level}, SameLevel level level' →
      (top = false → ¬Defined ctx callerFile name modules level) →
      top = false → ¬Defined (reordered ctx imports recorded) callerFile name modules level' :=
    fun h hdef htop hd => hdef htop ((defined_reordered hrecorded h).mp hd)
  induction hrules generalizing level' with
  | defined hdef =>
      refine ⟨_, .path ⟨rfl, fun _ => Iff.rfl, rfl⟩, ?_⟩
      rw [← h.module]
      exact .defined ((defined_reordered hrecorded h).mpr hdef)
  | @oneUse top level written path hdef huse honly hread =>
      have hrel := read_reordered recorded himports callerFile h written
      rw [hread] at hrel
      obtain ⟨path', hread', hsame⟩ := rel_some_left hrel
      exact ⟨_, .path hsame, .oneUse (hundefined h hdef)
        ((explicitPath_reordered himports h).mpr huse)
        (fun other ho => honly other ((explicitPath_reordered himports h).mp ho)) hread'⟩
  | @unreadable top level written hdef huse honly hread =>
      have hrel := read_reordered recorded himports callerFile h written
      rw [hread] at hrel
      exact ⟨_, .decline, .unreadable (hundefined h hdef)
        ((explicitPath_reordered himports h).mpr huse)
        (fun other ho => honly other ((explicitPath_reordered himports h).mp ho))
        (rel_none_left hrel)⟩
  | twoUses hdef hne huse hother =>
      exact ⟨_, .decline, .twoUses (hundefined h hdef) hne
        ((explicitPath_reordered himports h).mpr huse)
        ((explicitPath_reordered himports h).mpr hother)⟩
  | climb hdef hparent hup _ ih =>
      have hrel := up_reordered recorded himports callerFile h
      rw [hup] at hrel
      obtain ⟨above', hup', hsame⟩ := rel_some_left hrel
      obtain ⟨b', hb, hrules⟩ := ih hsame
      exact ⟨b', hb, .climb (hundefined h hdef) (hparent.reordered himports h) hup' hrules⟩
  | pastRoot hdef hparent hup =>
      have hrel := up_reordered recorded himports callerFile h
      rw [hup] at hrel
      exact ⟨_, .decline, .pastRoot (hundefined h hdef) (hparent.reordered himports h)
        (rel_none_left hrel)⟩
  | oneGlob hdef hglobs hhit honly =>
      obtain ⟨path', hsame, hhit'⟩ := hhit.reordered recorded himports h
      refine ⟨_, .path hsame, .oneGlob (hundefined h hdef) (hglobs.reordered himports h) hhit' ?_⟩
      intro other path hother
      obtain ⟨p, hp⟩ := admitted_of_reordered himports h hother
      exact honly other p hp
  | twoGlobs hdef hglobs hne hhit hother =>
      obtain ⟨path', -, hhit'⟩ := hhit.reordered recorded himports h
      obtain ⟨other', -, hother'⟩ := hother.reordered recorded himports h
      exact ⟨_, .decline, .twoGlobs (hundefined h hdef) (hglobs.reordered himports h) hne hhit'
        hother'⟩
  | outside hdef hglobs hnone hknown hglob hout =>
      refine ⟨_, .decline, .outside (hundefined h hdef) (hglobs.reordered himports h) ?_ hknown
        ((globPath_reordered himports h).mpr hglob) ?_⟩
      · intro other path hother
        obtain ⟨p, hp⟩ := admitted_of_reordered himports h hother
        exact hnone other p hp
      · rw [inRepository_reordered hrecorded, h.module]
        exact hout
  | lacking hdef hglobs hnone hin =>
      refine ⟨_, .byName, .lacking (hundefined h hdef) (hglobs.reordered himports h) ?_ ?_⟩
      · intro other path hother
        obtain ⟨p, hp⟩ := admitted_of_reordered himports h hother
        exact hnone other p hp
      · refine hin.imp_right fun hall glob hglob => ?_
        rw [inRepository_reordered hrecorded, h.module]
        exact hall glob ((globPath_reordered himports h).mp hglob)
  | nothing hdef hunbound hnone =>
      exact ⟨_, .byName, .nothing (hundefined h hdef)
        (fun path hpath => hunbound path ((explicitPath_reordered himports h).mp hpath))
        fun glob hglob => hnone glob ((globPath_reordered himports h).mp hglob)⟩

end Reordered

/-! ## The binding of a name -/

theorem definedHere_iff {ctx : ResolveContext} {callerQn name : Text} {defines : Defines} :
    (ctx.definedInScope (callerScope ctx.idx callerQn) name ||
      (decide (defines = .typesAndModules) && ctx.definesModule (extractFilePrefixOrSelf callerQn)
        (callerLevel ctx callerQn).module name)) = true ↔ DefinedHere ctx callerQn name defines := by
  rw [Bool.or_eq_true, Bool.and_eq_true, decide_eq_true_iff, DefinedHere]

theorem bindsTo_iff {ctx : ResolveContext} {callerQn name : Text}
    {admitsAny : Text → WrittenPath → Bool} {defines : Defines} {b : Binding} :
    BindsTo ctx callerQn name admitsAny defines b ↔
      ctx.bind callerQn name admitsAny defines = b := by
  rw [ResolveContext.bind]
  by_cases hhere : DefinedHere ctx callerQn name defines
  · refine Iff.trans ?_ (Eq.congr_left (if_pos (definedHere_iff.mpr hhere)).symm)
    constructor
    · rintro (_ | ⟨hnot, -⟩)
      · rfl
      · exact absurd hhere hnot
    · rintro rfl
      exact .here hhere
  · refine Iff.trans ?_ (Eq.congr_left (if_neg (definedHere_iff.not.mpr hhere)).symm)
    rw [← bindAt_eq_iff]
    constructor
    · rintro (hdef | ⟨-, hrules⟩)
      · exact absurd hdef hhere
      · exact hrules
    · exact .rules hhere

theorem up_eq (ctx : ResolveContext) (callerFile : Text) (level : Level) :
    match ctx.up callerFile level with
    | none => level.module = []
    | some above => above.module = level.module.dropLast ∧
        above.module.length < level.module.length := by
  cases hup : ctx.up callerFile level with
  | none =>
      rw [ResolveContext.up] at hup
      split at hup
      · assumption
      · cases hup
  | some above =>
      refine ⟨?_, ctx.up_module callerFile hup⟩
      rw [ResolveContext.up] at hup
      split at hup
      · cases hup
      · cases hup
        rfl

theorem bind_reordered {ctx : ResolveContext} {imports : ModuleImports} {recorded : List Text}
    (himports : imports.Perm ctx.facts.imports) (hrecorded : recorded.Perm ctx.modules)
    (callerQn name : Text) (question : Text → Finset Anchor → Bool) (defines : Defines) :
    SameBinding (ctx.bind callerQn name (asks question) defines)
      ((reordered ctx imports recorded).bind callerQn name (asks question) defines) := by
  have hhere : DefinedHere (reordered ctx imports recorded) callerQn name defines ↔
      DefinedHere ctx callerQn name defines := by
    rw [DefinedHere, definesModule_reordered hrecorded]
    rfl
  have hlevel : SameLevel (callerLevel ctx callerQn)
      (callerLevel (reordered ctx imports recorded) callerQn) := ⟨rfl, List.Perm.refl _⟩
  generalize hb : ctx.bind callerQn name (asks question) defines = b
  cases bindsTo_iff.mpr hb with
  | here h =>
      rw [bindsTo_iff.mp (.here (hhere.mpr h))]
      exact .byName
  | rules h hrules =>
      obtain ⟨b', hsame, hrules'⟩ := rules_reordered himports hrecorded hlevel hrules
      rw [bindsTo_iff.mp (.rules (hhere.not.mpr h) hrules')]
      exact hsame

/-- A name is bound to what the first rule that applies gives. A step up shortens the
module path, there is none above the root, and neither the order of the import rows nor
that of the scopes changes what the name is bound to. -/
theorem bind_exact (ctx : ResolveContext) (callerQn name : Text) (defines : Defines) :
    (∀ admitsAny b, BindsTo ctx callerQn name admitsAny defines b ↔
      ctx.bind callerQn name admitsAny defines = b) ∧
    (∀ callerFile level,
      match ctx.up callerFile level with
      | none => level.module = []
      | some above => above.module = level.module.dropLast ∧
          above.module.length < level.module.length) ∧
    ∀ question imports recorded, imports.Perm ctx.facts.imports → recorded.Perm ctx.modules →
      SameBinding (ctx.bind callerQn name (asks question) defines)
        ((reordered ctx imports recorded).bind callerQn name (asks question) defines) :=
  ⟨fun _ _ => bindsTo_iff, up_eq ctx, fun question _ _ himports hrecorded =>
    bind_reordered himports hrecorded callerQn name question defines⟩

/-- Two `#[cfg]` arms bind `Set` to different modules. -/
def twoArms : ResolveContext where
  facts := {
    cc := .ascii
    evidence := ⟨false, ∅, fun _ => none, fun _ => none, fun _ => none⟩
    imports := [("src/lib.rs".toList, ⟨"a::Set".toList, [], false⟩),
      ("src/lib.rs".toList, ⟨"b::Set".toList, [], false⟩)] }
  idx := ⟨[]⟩
  modules := ["src/a.rs".toList, "src/b.rs".toList]
  outsideTargets _ := false
  language := "rust".toList

/-- They decline, and do so in the other order. -/
theorem bind_exact_twoArms :
    twoArms.bind "src/lib.rs::run".toList "Set".toList (asks fun _ _ => true) .types = .decline ∧
      SameBinding .decline ((reordered twoArms twoArms.facts.imports.reverse
        twoArms.modules.reverse).bind "src/lib.rs::run".toList "Set".toList
          (asks fun _ _ => true) .types) := by
  have hscope : callerScope twoArms.idx "src/lib.rs::run".toList = "src/lib.rs".toList := by
    decide +kernel
  have hexact := bind_exact twoArms "src/lib.rs::run".toList "Set".toList .types
  have hdeclares : ∀ row, ("src/lib.rs".toList, row) ∈ twoArms.facts.imports →
      Declares twoArms (callerLevel twoArms "src/lib.rs::run".toList).scopes row := fun row hrow =>
    ⟨_, mem_singleton.mpr rfl, hscope ▸ hrow⟩
  have ha : ExplicitPath twoArms "Set".toList (callerLevel twoArms "src/lib.rs::run".toList)
      "a::Set".toList :=
    ⟨⟨"a::Set".toList, [], false⟩, hdeclares _ mem_cons_self, rfl, by decide +kernel, rfl⟩
  have hb : ExplicitPath twoArms "Set".toList (callerLevel twoArms "src/lib.rs::run".toList)
      "b::Set".toList :=
    ⟨⟨"b::Set".toList, [], false⟩, hdeclares _ (mem_cons_of_mem _ mem_cons_self), rfl,
      by decide +kernel, rfl⟩
  have hdecline : twoArms.bind "src/lib.rs::run".toList "Set".toList (asks fun _ _ => true)
      .types = .decline := by
    refine (hexact.1 _ _).mp (.rules (definedHere_iff.not.mp (by decide +kernel)) ?_)
    exact .twoUses nofun (by decide +kernel) ha hb
  refine ⟨hdecline, ?_⟩
  rw [← hdecline]
  exact hexact.2.2 (fun _ _ => true) _ _ (reverse_perm _) (reverse_perm _)

end BindRules

end Resolver

end CodeGraph
