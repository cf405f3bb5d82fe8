import CodeGraph.RustSites

/-!
# Where the receiver type is the binding's

The type that is given to a name at a call against what the name denotes there. One of the
sites of the name is taken for its binding (`Taken`); the type is that of the name exactly when
that site is the binding in scope (`Clear`).
-/

namespace CodeGraph

open Option List

namespace RustScope

open Located

variable {cc : CharClass} {call scope : Node} {name : Text} {site : Node × Node}

/-! ## The live binding -/

def reachedSites (call : Node) (sites : List (Node × Node)) : List (ℕ × (Node × Node)) :=
  sites.filterMap fun s =>
    match scopeOf s.1 call with
    | some (true, point) => some (point, s)
    | _ => none

theorem mem_reachedSites {sites : List (Node × Node)} {point : ℕ} :
    (point, site) ∈ reachedSites call sites ↔
      site ∈ sites ∧ scopeOf site.1 call = some (true, point) := by
  rw [reachedSites, mem_filterMap]
  constructor
  · rintro ⟨s, hs, h⟩
    split at h
    · next heq => cases h; exact ⟨hs, heq⟩
    · cases h
  · rintro ⟨hs, h⟩
    exact ⟨site, hs, by rw [h]⟩

/-- Every site has a scope, and the site is the first with the latest binding point of those
that reach the call. -/
structure Latest (call : Node) (sites : List (Node × Node)) (site : Node × Node) : Prop where
  covered : ∀ s ∈ sites, (scopeOf s.1 call).isSome = true
  isFirst : ∃ point, IsFirstMax (reachedSites call sites) (point, site)

theorem liveOfFrom_eq (live : Option (ℕ × (Node × Node))) (sites : List (Node × Node)) :
    liveOfFrom call live sites = if ∀ s ∈ sites, (scopeOf s.1 call).isSome = true then
      (firstMax live (reachedSites call sites)).map Prod.snd else none := by
  induction sites generalizing live with
  | nil =>
      rw [liveOfFrom, if_pos (forall_mem_nil _)]
      rfl
  | cons s sites ih =>
      obtain ⟨d, pat⟩ := s
      rw [liveOfFrom]
      generalize hs : scopeOf d call = reached
      have hall : (∀ s ∈ (d, pat) :: sites, (scopeOf s.1 call).isSome = true) ↔
          reached.isSome = true ∧ ∀ s ∈ sites, (scopeOf s.1 call).isSome = true := by
        rw [forall_mem_cons, hs]
      simp only [hall]
      match reached, hs with
      | none, _ => rfl
      | some (false, point), hs =>
          have hskip : reachedSites call ((d, pat) :: sites) = reachedSites call sites := by
            simp only [reachedSites, filterMap_cons, hs]
          rw [hskip]
          simp only [isSome_some, true_and]
          exact ih live
      | some (true, point), hs =>
          have hkeep : reachedSites call ((d, pat) :: sites)
              = (point, (d, pat)) :: reachedSites call sites := by
            simp only [reachedSites, filterMap_cons, hs]
          rw [hkeep, firstMax]
          have hbetter : (∀ b ∈ live, b.1 < point) ↔
              (live.all fun best => decide (best.1 < point)) = true := by
            cases live <;> simp
          simp only [isSome_some, true_and, hbetter, bind_eq_bind, bind_some,
            Bool.true_and]
          by_cases h : (live.all fun best => decide (best.1 < point)) = true
          · rw [if_pos h, if_pos h, ih]
          · rw [if_neg h, if_neg h, ih]

theorem liveOf_iff {sites : List (Node × Node)} :
    liveOf call sites = some site ↔ Latest call sites site := by
  rw [liveOf, liveOfFrom_eq]
  split_ifs with hcovered
  · rw [map_eq_some_iff]
    constructor
    · rintro ⟨⟨point, _⟩, h, rfl⟩
      exact ⟨hcovered, point, firstMax_iff.mp h⟩
    · rintro ⟨-, point, h⟩
      exact ⟨(point, site), firstMax_iff.mpr h, rfl⟩
  · exact iff_of_false nofun fun h => hcovered h.covered

/-! ## The site that is taken -/

/-- The site whose type the name is given: the only one, if it does not have to reach the call
or does, or the live one of several. -/
structure Taken (cc : CharClass) (call scope : Node) (name : Text) (site : Node × Node) : Prop where
  unbound : name ∉ otherBinders cc scope
  plain : simpleIdentifierName site.2 = some name
  typed : (bindingDeclared site.1 false).isSome = true
  chosen : (sitesOf scope name = [site] ∧
      (site.1.kind = .letDeclaration → declarationReaches site.1 call = true)) ∨
    (2 ≤ (sitesOf scope name).length ∧ Latest call (sitesOf scope name) site)

theorem mem_sitesOf : site ∈ sitesOf scope name ↔
    site ∈ bindingPatterns scope true ∧ name ∈ collectIdentifiers site.2 := by
  rw [sitesOf, mem_filter, decide_eq_true_eq]

theorem Taken.mem (h : Taken cc call scope name site) : site ∈ sitesOf scope name := by
  rcases h.chosen with ⟨hsole, -⟩ | ⟨-, hlatest⟩
  · rw [hsole]
    exact mem_singleton_self site
  · obtain ⟨point, hfirst⟩ := hlatest.isFirst
    exact (mem_reachedSites.mp hfirst.mem).1

theorem mem_of_simple {pattern : Node} (h : simpleIdentifierName pattern = some name)
    (hne : name ≠ []) : name ∈ collectIdentifiers pattern := by
  unfold simpleIdentifierName at h
  split at h
  · next hkind =>
      cases h
      exact mem_collectIdentifiers.mpr
        ⟨pattern, self_mem_below pattern, by rw [hkind]; decide, hne, rfl⟩
  · obtain ⟨c, hc, rfl⟩ := map_eq_some_iff.mp h
    have hleaf : c.kind = .identifier := by simpa using find?_some hc
    exact collectIdentifiers_child (mem_of_find?_eq_some hc) (mem_collectIdentifiers.mpr
      ⟨c, self_mem_below c, by rw [hleaf]; decide, hne, rfl⟩)
  · cases h

theorem mem_typedNames {throughResults : Bool} {declared : Declared} :
    (name, declared) ∈ typedNames call scope throughResults ↔
      ∃ site ∈ bindingPatterns scope true,
        (site.1.kind = .letDeclaration → declarationReaches site.1 call = true) ∧
        simpleIdentifierName site.2 = some name ∧
        bindingDeclared site.1 throughResults = some declared := by
  rw [typedNames, mem_filterMap]
  refine exists_congr fun site => and_congr_right fun _ => ?_
  obtain ⟨d, pat⟩ := site
  dsimp only
  by_cases hreach : d.kind ≠ .letDeclaration ∨ declarationReaches d call = true
  · rw [if_pos hreach, and_iff_right fun hlet => hreach.resolve_left (not_not.mpr hlet)]
    cases simpleIdentifierName pat with
    | none => exact iff_of_false nofun nofun
    | some simple =>
        cases bindingDeclared d throughResults with
        | none => exact iff_of_false nofun nofun
        | some ty =>
            change some (simple, ty) = some (name, declared) ↔ _
            simp only [Option.some.injEq, Prod.mk.injEq]
  · rw [if_neg hreach]
    exact iff_of_false nofun fun h => hreach (imp_iff_not_or.mp h.1)

theorem lookup_typedNames {throughResults : Bool} {declared : Declared}
    (hsole : sitesOf scope name = [site]) :
    (typedNames call scope throughResults).reverse.lookup name = some declared ↔
      (site.1.kind = .letDeclaration → declarationReaches site.1 call = true) ∧
        simpleIdentifierName site.2 = some name ∧
        bindingDeclared site.1 throughResults = some declared := by
  have hsite : site ∈ sitesOf scope name := hsole ▸ mem_singleton_self site
  have hne : name ≠ [] := by
    obtain ⟨_, -, -, hne, rfl⟩ := mem_collectIdentifiers.mp (mem_sitesOf.mp hsite).2
    exact hne
  have hentry (declared : Declared) : (name, declared) ∈ typedNames call scope throughResults ↔
      (site.1.kind = .letDeclaration → declarationReaches site.1 call = true) ∧
        simpleIdentifierName site.2 = some name ∧
        bindingDeclared site.1 throughResults = some declared := by
    rw [mem_typedNames]
    constructor
    · rintro ⟨s, hs, hreach, hplain, hdeclared⟩
      have hmem := mem_sitesOf.mpr ⟨hs, mem_of_simple hplain hne⟩
      rw [hsole, mem_singleton] at hmem
      exact hmem ▸ ⟨hreach, hplain, hdeclared⟩
    · intro h
      exact ⟨site, (mem_sitesOf.mp hsite).1, h⟩
  rw [← hentry]
  constructor
  · intro h
    obtain ⟨l₁, l₂, hl, -⟩ := lookup_eq_some_iff.mp h
    rw [← mem_reverse, hl]
    exact mem_append_right l₁ mem_cons_self
  · intro h
    have hsome : ((typedNames call scope throughResults).reverse.lookup name).isSome = true :=
      lookup_isSome_iff.mpr ⟨_, mem_reverse.mpr h, beq_self_eq_true name⟩
    obtain ⟨declared', hlookup⟩ := isSome_iff_exists.mp hsome
    obtain ⟨l₁, l₂, hl, -⟩ := lookup_eq_some_iff.mp hlookup
    have hmem : (name, declared') ∈ typedNames call scope throughResults := by
      rw [← mem_reverse, hl]
      exact mem_append_right l₁ mem_cons_self
    have heq := ((hentry declared).mp h).2.2.symm.trans ((hentry declared').mp hmem).2.2
    rw [hlookup, heq]

theorem liveBinding_iff : liveBinding cc call scope name = some site ↔
    2 ≤ (sitesOf scope name).length ∧ name ∉ otherBinders cc scope ∧
      Latest call (sitesOf scope name) site := by
  rw [liveBinding]
  split_ifs with h
  · rw [liveOf_iff, and_iff_right h.1, and_iff_right h.2]
  · exact iff_of_false nofun fun hlive => h ⟨hlive.1, hlive.2.1⟩

theorem typedLocalDeclared_iff (h : enclosingScope call = some scope) {declared : Declared} :
    typedLocalDeclared cc call name = some declared ↔
      ∃ site, Taken cc call scope name site ∧ bindingDeclared site.1 false = some declared := by
  have hmap : typedLocalDeclared cc call name
      = ((liveBinding cc call scope name).bind fun site =>
          if simpleIdentifierName site.2 = some name then bindingDeclared site.1 false
          else none).or
        (if (sitesOf scope name).length = 1 ∧ name ∉ otherBinders cc scope then
            (typedNames call scope false).reverse.lookup name
          else none) := by
    rw [typedLocalDeclared, typedLocalMap, h]
    exact orElse_eq_or
  rw [hmap, or_eq_some_iff, bind_eq_some_iff]
  constructor
  · rintro (⟨site, hlive, hplain⟩ | ⟨-, honce⟩)
    · obtain ⟨hmany, hother, hlatest⟩ := liveBinding_iff.mp hlive
      split_ifs at hplain with hsimple
      exact ⟨site, ⟨hother, hsimple, by rw [hplain]; rfl, .inr ⟨hmany, hlatest⟩⟩, hplain⟩
    · split_ifs at honce with hone
      obtain ⟨site, hsole⟩ := length_eq_one_iff.mp hone.1
      obtain ⟨hreach, hsimple, hdeclared⟩ := (lookup_typedNames hsole).mp honce
      exact ⟨site, ⟨hone.2, hsimple, by rw [hdeclared]; rfl, .inl ⟨hsole, hreach⟩⟩, hdeclared⟩
  · rintro ⟨site, htaken, hdeclared⟩
    rcases htaken.chosen with ⟨hsole, hreach⟩ | ⟨hmany, hlatest⟩
    · have hone : (sitesOf scope name).length = 1 := by rw [hsole, length_singleton]
      refine .inr ⟨bind_eq_none_iff.mpr fun s hs => ?_, ?_⟩
      · have := (liveBinding_iff.mp hs).1
        omega
      · rw [if_pos ⟨hone, htaken.unbound⟩, lookup_typedNames hsole]
        exact ⟨hreach, htaken.plain, hdeclared⟩
    · refine .inl ⟨site, liveBinding_iff.mpr ⟨hmany, htaken.unbound, hlatest⟩, ?_⟩
      rw [if_pos htaken.plain, hdeclared]

/-! ## The type that is read off a declaration -/

theorem typePath_of_typeName {fuel : ℕ} {n : Node} {ty : Text}
    (h : typeNameFrom fuel n = some ty) : TypePath n ty := by
  induction fuel generalizing n with
  | zero => cases h
  | succ fuel ih =>
      rw [typeNameFrom] at h
      split at h
      · next hkind =>
          obtain ⟨c, hc, h⟩ := bind_eq_some_iff.mp h
          exact .wrapped (.inl hkind) hc (ih h)
      · next hkind =>
          obtain ⟨c, hc, h⟩ := bind_eq_some_iff.mp h
          exact .wrapped (.inr hkind) hc (ih h)
      · next hkind => cases h; exact .path (.inl hkind)
      · next hkind => cases h; exact .path (.inr hkind)
      · cases h

theorem exprPath_of_exprPathName {fuel : ℕ} {n : Node} {ty : Text}
    (h : exprPathNameFrom fuel n = some ty) : ExprPath n ty := by
  induction fuel generalizing n with
  | zero => cases h
  | succ fuel ih =>
      rw [exprPathNameFrom] at h
      split at h
      · next hkind => cases h; exact .path (.inl hkind)
      · next hkind => cases h; exact .path (.inr hkind)
      · next hkind =>
          obtain ⟨c, hc, h⟩ := bind_eq_some_iff.mp h
          exact .wrapped hkind hc (ih h)
      · cases h

theorem constructorCall_eq {value call : Node} {unwrapped : Bool}
    (h : constructorCall value false = some (call, unwrapped)) :
    call = value ∧ value.kind = .callExpression ∧ unwrapped = false := by
  unfold constructorCall at h
  generalize value.tree.height = fuel at h
  cases fuel with
  | zero => cases h
  | succ fuel =>
      rw [constructorCallFrom] at h
      split at h
      · next hkind => cases h; exact ⟨rfl, hkind, rfl⟩
      · cases h
      · cases h

theorem declares_of_bindingDeclared {d : Node} {declared : Declared}
    (h : bindingDeclared d false = some declared) : Declares d declared := by
  unfold bindingDeclared at h
  split at h
  · next annotation htype =>
      obtain ⟨ty, hty, h⟩ := bind_eq_some_iff.mp h
      split_ifs at h
      cases h
      exact .annotated htype (typePath_of_typeName hty)
  · next htype =>
      split_ifs at h with hlet
      obtain ⟨value, hvalue, h⟩ := bind_eq_some_iff.mp h
      obtain ⟨⟨call, unwrapped⟩, hcall, h⟩ := bind_eq_some_iff.mp h
      obtain ⟨rfl, hkind, rfl⟩ := constructorCall_eq hcall
      obtain ⟨func, hfunc, h⟩ := bind_eq_some_iff.mp h
      by_cases hpathKind : func.kind = .scopedIdentifier
      · rw [if_neg (not_or.mpr ⟨not_not.mpr hpathKind, fun h => nomatch h.1⟩)] at h
        obtain ⟨path, hpath, h⟩ := bind_eq_some_iff.mp h
        obtain ⟨ty, hty, h⟩ := bind_eq_some_iff.mp h
        cases h
        exact .constructed (not_not.mp hlet) htype hvalue hkind hfunc hpathKind hpath
          (exprPath_of_exprPathName hty)
      · rw [if_pos (.inl hpathKind)] at h
        cases h

/-! ## When the type is the name's -/

/-- Every block below the binding point defines no item of the name. -/
def NoItemSince (outside : Outside) (call : Node) (name : Text) (point : ℕ) : Prop :=
  ∀ n ∈ call.ancestors, ∀ block : Node, n.parent = some block → block.kind = .block →
    point ≤ block.startByte → ∀ s ∈ block.namedChildren, name ∉ outside.itemNames s

/-- The site reaches the call, its name is no constant, and no item in between has it. -/
structure Clear (outside : Outside) (call : Node) (name : Text) (site : Node × Node) : Prop where
  reached : ∃ point, scopeOf site.1 call = some (true, point) ∧
    NoItemSince outside call name point
  noConstant : name ∉ outside.constants

section Exact

variable {outside : Outside}

theorem Taken.ne_nil (h : Taken cc call scope name site) : name ≠ [] := by
  obtain ⟨_, -, -, hne, rfl⟩ := mem_collectIdentifiers.mp (mem_sitesOf.mp h.mem).2
  exact hne

theorem mem_sitesOf_of_binds (hother : name ∉ otherBinders cc scope) {b : Node × Node}
    (hb : b ∈ bindingPatterns scope true) (hbinds : outside.Binds b.2 name) :
    b ∈ sitesOf scope name := by
  refine mem_sitesOf.mpr ⟨hb, ?_⟩
  rcases hbinds.collected with hname | ⟨invocation, hin, hname⟩
  · exact hname
  · have hscope := ancestors_trans (ancestor_of_site hb).2 hin
    exact absurd (mem_otherBinders_of_invocation hscope hname) hother

theorem Taken.le_point (h : Taken cc call scope name site) {point : ℕ}
    (hreach : scopeOf site.1 call = some (true, point)) {b : Node × Node}
    (hb : b ∈ sitesOf scope name) {since : ℕ} (hsince : ReachesSince call b.1 since) :
    since ≤ point := by
  rcases h.chosen with ⟨hsole, -⟩ | ⟨-, hlatest⟩
  · rw [hsole, mem_singleton] at hb
    subst hb
    rcases hsince with hsince | ⟨-, hsince⟩
    · rw [hreach] at hsince
      cases hsince
      exact le_rfl
    · rw [hreach] at hsince
      cases hsince
  · obtain ⟨point', hfirst⟩ := hlatest.isFirst
    have hpoint := (mem_reachedSites.mp hfirst.mem).2
    rw [hreach] at hpoint
    cases hpoint
    rcases hsince with hsince | ⟨-, hsince⟩
    · exact hfirst.le (e := (since, b)) (mem_reachedSites.mpr ⟨hb, hsince⟩)
    · have hscope := hlatest.covered b hb
      rw [hsince] at hscope
      cases hscope

theorem Taken.since_le (h : Taken cc call scope name site) (hfn : FunctionOf call scope)
    (hroot : call.root.Every Grammatical) (hcall : Spaced call) {point : ℕ}
    (hreach : scopeOf site.1 call = some (true, point)) {since : ℕ}
    {bindings : List (Node × Node)} (hrib : .names since bindings ∈ ribsAt call)
    (hbinds : (Rib.names since bindings).Binds outside name) : since ≤ point := by
  obtain ⟨b, hb, hbinds⟩ := hbinds
  obtain ⟨hsite, hsince⟩ := hfn.exists_site hroot hcall hrib hb
  exact h.le_point hreach (mem_sitesOf_of_binds h.unbound hsite hbinds) hsince

theorem Clear.denotes (h : Clear outside call name site) (htaken : Taken cc call scope name site)
    (hfn : FunctionOf call scope) (hroot : call.root.Every Grammatical) (hcall : Spaced call) :
    outside.Denotes call name site.1 site.2 := by
  obtain ⟨point, hreach, hitems⟩ := h.reached
  obtain ⟨declared, htyped⟩ := isSome_iff_exists.mp htaken.typed
  have hsite := (mem_sitesOf.mp htaken.mem).1
  obtain ⟨bindings, hrib, hmem⟩ := hfn.exists_rib hroot hcall hsite htyped hreach
  have hbinds := binds_of_simple htaken.plain htaken.ne_nil h.noConstant
  obtain ⟨inner, outer, hribs⟩ := append_of_mem hrib
  refine ⟨inner, point, bindings, outer, hribs, fun rib hinner hrib' => ?_, hmem, hbinds⟩
  have hin : rib ∈ ribsAt call := hribs ▸ mem_append_left _ hinner
  have hlater : ribs.Later rib (.names point bindings) := by
    have hpairwise := pairwise_ribsAt hcall
    rw [hribs, pairwise_append] at hpairwise
    exact hpairwise.2.2 rib hinner _ mem_cons_self
  rcases hfn.names_or_items hroot hcall htaken.unbound hin hrib' with hnames | hitem
  · match rib, hnames with
    | .names since bindings', _ =>
        have hle := htaken.since_le hfn hroot hcall hreach hin hrib'
        have hlt : point < since := hlater.2 id
        omega
  · match rib, hitem with
    | .items block, _ =>
        have hle : point ≤ block.startByte := hlater.1 trivial
        obtain ⟨s, hs, hname⟩ := hrib'
        obtain ⟨n, hn, hp, hblock, -⟩ := (hfn.mem_items hcall).mp hin
        exact hitems n hn block hp hblock hle s hs hname

theorem Taken.clear (htaken : Taken cc call scope name site) (hfn : FunctionOf call scope)
    (hroot : call.root.Every Grammatical) (hcall : Spaced call) {declaration pattern : Node}
    (h : outside.Denotes call name declaration pattern) : Clear outside call name site := by
  obtain ⟨inner, since, bindings, outer, hribs, hinner, hmem, hbinds⟩ := h
  obtain ⟨declared, htyped⟩ := isSome_iff_exists.mp htaken.typed
  have hsite := (mem_sitesOf.mp htaken.mem).1
  have hrib : .names since bindings ∈ ribsAt call := by rw [hribs]; simp
  obtain ⟨hfound, hsince⟩ := hfn.exists_site hroot hcall hrib hmem
  have hfoundSite := mem_sitesOf_of_binds htaken.unbound hfound hbinds
  have hconstant : name ∉ outside.constants := fun hname => by
    obtain ⟨invocation, hin, hmacro⟩ := macroBelow_of_constant hbinds hname
    have hscope := ancestors_trans (ancestor_of_site hfound).2 hin
    exact htaken.unbound (mem_otherBinders_of_invocation hscope hmacro)
  obtain ⟨point, hreach⟩ : ∃ point, scopeOf site.1 call = some (true, point) := by
    rcases htaken.chosen with ⟨hsole, -⟩ | ⟨-, hlatest⟩
    · rw [hsole, mem_singleton] at hfoundSite
      subst hfoundSite
      rcases hsince with hreach | ⟨hkind, -⟩
      · exact ⟨since, hreach⟩
      · have hgrammar := hfn.grammatical_below hroot (ancestor_of_site hsite).1
        exact absurd (by rw [hkind]; decide) (kind_of_declared hgrammar htyped)
    · obtain ⟨point, hfirst⟩ := hlatest.isFirst
      exact ⟨point, (mem_reachedSites.mp hfirst.mem).2⟩
  have hle : since ≤ point := htaken.le_point hreach hfoundSite hsince
  obtain ⟨bindings', hrib', hmem'⟩ := hfn.exists_rib hroot hcall hsite htyped hreach
  have hbinds' := binds_of_simple htaken.plain htaken.ne_nil hconstant
  have hpairwise := pairwise_ribsAt hcall
  rw [hribs, pairwise_append, pairwise_cons] at hpairwise
  have hpoint : point ≤ since := by
    rw [hribs] at hrib'
    rcases mem_append.mp hrib' with hin | hin
    · exact absurd ⟨site, hmem', hbinds'⟩ (hinner _ hin)
    · rcases mem_cons.mp hin with heq | hin
      · cases heq
        exact le_rfl
      · have hlt : point < since := (hpairwise.2.1.1 _ hin).2 id
        exact hlt.le
  refine ⟨⟨point, hreach, fun n hn block hp hblock hstart s hs hname => ?_⟩, hconstant⟩
  have hscope : scope ∈ block.ancestors := by
    rcases ancestors_total (ancestors_trans (parent_mem_ancestors hp) hn) hfn.mem with hup | hup
    · have hlt : scope.startByte < point := hfn.start_lt_since hcall hrib' id
      have hblockStart : block.startByte ≤ scope.startByte :=
        ((hcall.ancestor hfn.mem).within hup).1
      omega
    · exact hup
  have hitems := (hfn.mem_items hcall).mpr ⟨n, hn, hp, hblock, hscope⟩
  rw [hribs] at hitems
  rcases mem_append.mp hitems with hin | hin
  · exact hinner _ hin ⟨s, hs, hname⟩
  · rcases mem_cons.mp hin with heq | hin
    · cases heq
    · have hlt : block.startByte < since := (hpairwise.2.1.1 _ hin).2 id
      omega

/-- Every type that is given to the name is its type under Rust's scoping if and only if the
sites that are taken for its binding are clear. -/
theorem typed_local_scoped_iff (cc : CharClass) (outside : Outside) (file : SourceFile)
    (call : BodyNode file) (name : Text) :
    (∀ declared, typedLocalDeclared cc call.node name = some declared →
      outside.DenotesTyped call.node name declared) ↔
    ∀ scope site, enclosingScope call.node = some scope →
      Taken cc call.node scope name site → Clear outside call.node name site := by
  have hcall : Spaced call.node := by
    rw [Spaced, SpacedIn, call.root_eq]
    exact file.spaced
  have hroot : call.node.root.Every Grammatical := call.root_eq ▸ file.grammatical
  obtain ⟨scope, hfn⟩ : ∃ scope, FunctionOf call.node scope := by
    obtain ⟨f, hf, hkind⟩ := call.inFunction
    exact isSome_iff_exists.mp (find?_isSome.mpr ⟨f, hf, decide_eq_true hkind⟩)
  have hscope := hfn.enclosingScope_eq
  constructor
  · intro h scope' site hscope' htaken
    obtain rfl := Option.some.inj (hscope.symm.trans hscope')
    obtain ⟨declared, htyped⟩ := isSome_iff_exists.mp htaken.typed
    obtain ⟨d, pat, hdenotes, -⟩ :=
      h declared ((typedLocalDeclared_iff hscope).mpr ⟨site, htaken, htyped⟩)
    exact htaken.clear hfn hroot hcall hdenotes
  · intro h declared hdeclared
    obtain ⟨site, htaken, htyped⟩ := (typedLocalDeclared_iff hscope).mp hdeclared
    have hclear := h scope site hscope htaken
    exact ⟨site.1, site.2, hclear.denotes htaken hfn hroot hcall,
      declares_of_bindingDeclared htyped⟩

theorem exists_reached_of_denotes (hfn : FunctionOf call scope)
    (hroot : call.root.Every Grammatical) (hcall : Spaced call)
    (hother : name ∉ otherBinders cc scope) {declaration pattern : Node}
    (h : outside.Denotes call name declaration pattern) :
    ∃ b ∈ sitesOf scope name, ∃ since, ReachesSince call b.1 since := by
  obtain ⟨inner, since, bindings, outer, hribs, -, hmem, hbinds⟩ := h
  have hrib : .names since bindings ∈ ribsAt call := by rw [hribs]; simp
  obtain ⟨hfound, hsince⟩ := hfn.exists_site hroot hcall hrib hmem
  exact ⟨_, mem_sitesOf_of_binds hother hfound hbinds, since, hsince⟩

end Exact

/-! ## A closure parameter behind its closure -/

def forestOf : List (Option Field × RustTree) → Forest (Option Field) RustNode
  | [] => .nil
  | (field, t) :: rest => .cons field t.node t.children (forestOf rest)

/-- A stretch of a source and its children. -/
def treeOf (source : Text) (kind : Kind) (start stop : ℕ)
    (children : List (Option Field × RustTree)) : RustTree :=
  ⟨⟨kind, start, stop, (source.drop start).take (stop - start)⟩, forestOf children⟩

def closureSource : Text := "fn f() { let g = |s: A| s.m(); s.m(); }".toList

/-- An anonymous node of the source. -/
def tokenOf (start stop : ℕ) : Option Field × RustTree :=
  (none, treeOf closureSource (.token ((closureSource.drop start).take (stop - start))) start stop
    [])

/-- The call `s.m()` that starts at a byte. -/
def methodCallAt (start : ℕ) : RustTree :=
  treeOf closureSource .callExpression start (start + 5) [
    (some .function, treeOf closureSource .fieldExpression start (start + 3) [
      (some .value, treeOf closureSource .identifier start (start + 1) []),
      tokenOf (start + 1) (start + 2),
      (some .field, treeOf closureSource (.other "field_identifier".toList) (start + 2) (start + 3)
        [])]),
    (some (.other "arguments".toList), treeOf closureSource (.other "arguments".toList)
      (start + 3) (start + 5) [tokenOf (start + 3) (start + 4), tokenOf (start + 4) (start + 5)])]

def closureTree : RustTree :=
  treeOf closureSource (.other "source_file".toList) 0 39 [
    (none, treeOf closureSource .functionItem 0 39 [
      tokenOf 0 2,
      (some .name, treeOf closureSource .identifier 3 4 []),
      (some .parameters, treeOf closureSource .parameters 4 6 [tokenOf 4 5, tokenOf 5 6]),
      (some .body, treeOf closureSource .block 7 39 [
        tokenOf 7 8,
        (none, treeOf closureSource .letDeclaration 9 30 [
          tokenOf 9 12,
          (some .pattern, treeOf closureSource .identifier 13 14 []),
          tokenOf 15 16,
          (some .value, treeOf closureSource .closureExpression 17 29 [
            (some .parameters, treeOf closureSource .closureParameters 17 23 [
              tokenOf 17 18,
              (none, treeOf closureSource .parameter 18 22 [
                (some .pattern, treeOf closureSource .identifier 18 19 []),
                tokenOf 19 20,
                (some .type, treeOf closureSource .typeIdentifier 21 22 [])]),
              tokenOf 22 23]),
            (some .body, methodCallAt 24)]),
          tokenOf 29 30]),
        (none, treeOf closureSource .expressionStatement 31 37 [
          (none, methodCallAt 31),
          tokenOf 36 37]),
        tokenOf 38 39])])]

def closureFile : SourceFile := ⟨closureTree, by decide, by decide⟩

/-- The node that a way down leads to. -/
def nodeAt (n : Node) : List ℕ → Node
  | [] => n
  | i :: way => (n.children[i]?.map fun c => nodeAt c way).getD n

def closureFunction : Node := nodeAt (.ofTree closureTree) [0]

/-- The call of `s.m()` behind the closure. -/
def secondCall : BodyNode closureFile :=
  ⟨nodeAt (.ofTree closureTree) [0, 3, 2, 0], rfl, closureFunction, by decide, by decide⟩

/-- Nothing is known of what is outside the function. -/
def noOutside : Outside := ⟨[], fun _ => [], fun _ => [], fun _ => nil_subset _⟩

/-- The parameter of the closure is given to a name behind the closure. -/
theorem closure_parameter_taken :
    typedLocalDeclared .ascii secondCall.node "s".toList = some ⟨"A".toList, none⟩ ∧
      ¬ noOutside.DenotesTyped secondCall.node "s".toList ⟨"A".toList, none⟩ := by
  refine ⟨by decide, fun ⟨d, pat, h, _⟩ => ?_⟩
  have hfn : FunctionOf secondCall.node closureFunction := by
    unfold FunctionOf
    decide
  have hcall : Spaced secondCall.node := closureFile.spaced
  have hother : "s".toList ∉ otherBinders .ascii closureFunction := by decide
  obtain ⟨b, hb, since, hreach⟩ :=
    exists_reached_of_denotes hfn closureFile.grammatical hcall hother h
  have hsites : (sitesOf closureFunction "s".toList).map (fun b => scopeOf b.1 secondCall.node)
      = [some (false, 23)] := by decide
  have hscope : scopeOf b.1 secondCall.node = some (false, 23) := by
    rw [← mem_singleton, ← hsites]
    exact mem_map_of_mem hb
  rcases hreach with hreach | ⟨-, hreach⟩
  · rw [hscope] at hreach
    cases hreach
  · rw [hscope] at hreach
    cases hreach

end RustScope

end CodeGraph
