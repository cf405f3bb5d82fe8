import CodeGraph.RustScoping
import Mathlib.Data.List.TakeWhile

/-!
# Ribs and the bindings of the function

The ribs in scope at a call against the bindings that are found in its function: what stands on
a rib is a binding that reaches the call (`exists_site`), and a binding with a type that reaches
the call stands on a rib (`exists_rib`).
-/

namespace CodeGraph

open List

namespace RustScope

open Located

variable {call scope m n p s : Node}

/-! ## Walks over named nodes -/

theorem height_le_of_ancestor {a : Node} (h : a ∈ n.ancestors) :
    n.tree.height ≤ a.tree.height := by
  induction n using induction_up with
  | root n hn =>
      rw [ancestors_of_root hn, mem_singleton] at h
      rw [h]
  | step n p hn ih =>
      rcases (mem_ancestors_of_parent hn).mp h with rfl | h
      · exact le_rfl
      · exact (height_lt_of_parent hn).le.trans (ih h)

theorem isNamed_of_parent (hroot : n.root.Every Grammatical) (h : n.parent = some p) :
    p.isNamed = true := by
  rw [root_of_parent h] at hroot
  have htree := mem_trees_of_parent h
  by_contra hno
  have htoken : p.kind.isToken = true := by simpa [Node.isNamed] using hno
  rw [(every_of_root hroot).1.tokens htoken] at htree
  cases htree

theorem mem_below_named (hroot : m.root.Every Grammatical) (hscope : scope ∈ m.ancestors)
    (hm : m.isNamed = true) : m ∈ scope.below Node.namedChildren := by
  refine mem_below_of_ancestors Node.namedChildren_subset hscope fun c hc p hp _ => ?_
  refine Node.mem_namedChildren.mpr ⟨hp, ?_⟩
  by_cases hcm : c = m
  · exact hcm ▸ hm
  · obtain ⟨d, hd, hdm⟩ := exists_child_of_ne hc hcm
    exact isNamed_of_parent (root_of_ancestor hdm ▸ hroot) hd

theorem below_subset {into : Node → List Node} (hinto : ∀ n, into n ⊆ n.children)
    (h : m ∈ into n) : m.below into ⊆ n.below into := fun a ha => by
  rw [mem_below hinto] at ha ⊢
  exact .head h ha

/-! ## What a pattern binds is among its identifiers -/

variable {pattern : Node} {name : Text}

theorem mem_collectIdentifiers :
    name ∈ collectIdentifiers pattern ↔ ∃ leaf : Node, leaf ∈ pattern.below Node.namedChildren ∧
      leaf.kind ∈ bindingLeafKinds ∧ leaf.text ≠ [] ∧ leaf.text = name := by
  rw [collectIdentifiers, mem_map]
  simp only [mem_filter, decide_eq_true_eq, and_assoc]

theorem collectIdentifiers_child (h : m ∈ n.namedChildren)
    (hname : name ∈ collectIdentifiers m) : name ∈ collectIdentifiers n := by
  obtain ⟨leaf, hleaf, hrest⟩ := mem_collectIdentifiers.mp hname
  exact mem_collectIdentifiers.mpr ⟨leaf, below_subset Node.namedChildren_subset h hleaf, hrest⟩

def MacroBelow (n : Node) (name : Text) : Prop :=
  ∃ invocation : Node, n ∈ invocation.ancestors ∧ name ∈ macroNamesAt invocation

theorem MacroBelow.up (h : m ∈ n.namedChildren) (hm : MacroBelow m name) : MacroBelow n name := by
  obtain ⟨invocation, hmem, hname⟩ := hm
  have hn := parent_mem_ancestors (Node.mem_namedChildren.mp h).1
  exact ⟨invocation, ancestors_trans hn hmem, hname⟩

theorem bound_up (h : m ∈ n.namedChildren) (hm : name ∈ collectIdentifiers m ∨ MacroBelow m name) :
    name ∈ collectIdentifiers n ∨ MacroBelow n name :=
  hm.imp (collectIdentifiers_child h) (MacroBelow.up h)

variable {outside : Outside}

theorem Outside.Binds.collected (h : outside.Binds pattern name) :
    name ∈ collectIdentifiers pattern ∨ MacroBelow pattern name := by
  induction h with
  | leaf hkind hne _ =>
      exact .inl (mem_collectIdentifiers.mpr ⟨_, self_mem_below _, hkind, hne, rfl⟩)
  | expansion _ hname => exact .inr ⟨_, self_mem_ancestors _, outside.handed _ hname⟩
  | within _ hc _ ih => exact bound_up hc ih
  | constructor _ hc _ _ ih => exact bound_up hc ih
  | arm _ hc _ ih => exact bound_up (mem_of_mem_head? hc) ih

theorem binds_of_simple (h : simpleIdentifierName pattern = some name) (hne : name ≠ [])
    (hname : name ∉ outside.constants) : outside.Binds pattern name := by
  unfold simpleIdentifierName at h
  split at h
  · next hkind =>
      cases h
      exact .leaf (by rw [hkind]; decide) hne hname
  · next hkind =>
      obtain ⟨c, hc, rfl⟩ := Option.map_eq_some_iff.mp h
      have hleaf : c.kind = .identifier := by simpa using find?_some hc
      exact .within (by rw [hkind]; decide) (mem_of_find?_eq_some hc)
        (.leaf (by rw [hleaf]; decide) hne hname)
  · cases h

theorem macroBelow_of_constant (h : outside.Binds pattern name) (hname : name ∈ outside.constants) :
    MacroBelow pattern name := by
  induction h with
  | leaf _ _ hno => exact absurd hname hno
  | expansion _ hmem => exact ⟨_, self_mem_ancestors _, outside.handed _ hmem⟩
  | within _ hc _ ih => exact (ih hname).up hc
  | constructor _ hc _ _ ih => exact (ih hname).up hc
  | arm _ hc _ ih => exact (ih hname).up (mem_of_mem_head? hc)

/-! ## The function around the call -/

/-- `scope` is the innermost function around the call. -/
def FunctionOf (call scope : Node) : Prop :=
  (call.ancestors.find? fun a : Node => a.kind = .functionItem) = some scope

namespace FunctionOf

theorem mem (h : FunctionOf call scope) : scope ∈ call.ancestors := mem_of_find?_eq_some h

theorem kind (h : FunctionOf call scope) : scope.kind = .functionItem := by
  simpa using find?_some h

theorem enclosingScope_eq (h : FunctionOf call scope) : enclosingScope call = some scope := by
  have hfrom (nodes : List Node) (outermost : Option Node)
      (hfind : (nodes.find? fun a : Node => a.kind = .functionItem) = some scope) :
      enclosingScopeFrom outermost nodes = some scope := by
    induction nodes generalizing outermost with
    | nil => cases hfind
    | cons n nodes ih =>
        rw [enclosingScopeFrom]
        by_cases hn : n.kind = .functionItem
        · rw [find?_cons_of_pos (by simpa using hn)] at hfind
          rw [hn]
          exact hfind
        · rw [find?_cons_of_neg (by simpa using hn)] at hfind
          split
          · next heq => exact absurd heq hn
          · exact ih _ hfind
          · exact ih _ hfind
  exact hfrom _ _ h

theorem mem_takeWhile_iff (h : FunctionOf call scope) :
    (n ∈ call.ancestors.takeWhile fun a : Node => a.kind ≠ .functionItem) ↔
      n ∈ call.ancestors ∧ ∃ p, n.parent = some p ∧ scope ∈ p.ancestors := by
  induction call using induction_up with
  | root call hcall =>
      rw [FunctionOf, ancestors_of_root hcall] at h
      rw [ancestors_of_root hcall]
      by_cases hkind : Node.kind call = .functionItem
      · rw [takeWhile_cons_of_neg (by simpa using hkind)]
        refine iff_of_false not_mem_nil ?_
        rintro ⟨hn, p, hp, -⟩
        rw [mem_singleton.mp hn, hcall] at hp
        cases hp
      · rw [find?_cons_of_neg (by simpa using hkind)] at h
        cases h
  | step call q hq ih =>
      rw [FunctionOf, ancestors_of_parent hq] at h
      by_cases hkind : Node.kind call = .functionItem
      · rw [find?_cons_of_pos (by simpa using hkind)] at h
        obtain rfl := Option.some.inj h
        rw [ancestors_of_parent hq, takeWhile_cons_of_neg (by simpa using hkind),
          ← ancestors_of_parent hq]
        refine iff_of_false not_mem_nil ?_
        rintro ⟨hn, p, hp, hscope⟩
        have := height_le_of_ancestor hn
        have := height_le_of_ancestor hscope
        have := height_lt_of_parent hp
        omega
      · rw [find?_cons_of_neg (by simpa using hkind)] at h
        rw [ancestors_of_parent hq, takeWhile_cons_of_pos (by simpa using hkind),
          mem_cons, ih h, mem_cons]
        constructor
        · rintro (rfl | ⟨hn, hp⟩)
          · exact ⟨.inl rfl, q, hq, mem_of_find?_eq_some h⟩
          · exact ⟨.inr hn, hp⟩
        · rintro ⟨rfl | hn, hp⟩
          · exact .inl rfl
          · exact .inr ⟨hn, hp⟩

theorem mem_ribsAt (h : FunctionOf call scope) {rib : Rib} : rib ∈ ribsAt call ↔
    ∃ n p, n ∈ call.ancestors ∧ n.parent = some p ∧ scope ∈ p.ancestors ∧
      ((∃ s ∈ n.before, rib ∈ brought n s) ∨ rib ∈ held n) := by
  rw [ribsAt, mem_flatMap]
  refine exists_congr fun n => ?_
  rw [h.mem_takeWhile_iff, mem_append, mem_flatMap]
  simp only [mem_reverse]
  constructor
  · rintro ⟨⟨hn, p, hp, hscope⟩, hrib⟩
    exact ⟨p, hn, hp, hscope, hrib⟩
  · rintro ⟨p, hn, hp, hscope, hrib⟩
    exact ⟨⟨hn, p, hp, hscope⟩, hrib⟩

theorem mem_items (h : FunctionOf call scope) (hcall : Spaced call) {block : Node} :
    .items block ∈ ribsAt call ↔ ∃ n ∈ call.ancestors, n.parent = some block ∧
      block.kind = .block ∧ scope ∈ block.ancestors := by
  rw [h.mem_ribsAt]
  constructor
  · rintro ⟨n, p, hn, hp, hscope, ⟨s, hs, hrib⟩ | hheld⟩
    · exact absurd trivial (ribs.brought_within n s _ hs (hcall.ancestor hn) hrib).1
    · obtain ⟨q, hq, hkind, heq⟩ := mem_held.mp hheld
      cases heq
      obtain rfl := Option.some.inj (hp.symm.trans hq)
      exact ⟨n, hn, hp, hkind, hscope⟩
  · rintro ⟨n, hn, hp, hkind, hscope⟩
    exact ⟨n, block, hn, hp, hscope, .inr (mem_held.mpr ⟨block, hp, hkind, rfl⟩)⟩

theorem start_lt_since (h : FunctionOf call scope) (hcall : Spaced call) {rib : Rib}
    (hrib : rib ∈ ribsAt call) (hitems : ¬ rib.isItems) : scope.startByte < rib.since := by
  obtain ⟨n, p, hn, hp, hscope, hadded⟩ := h.mem_ribsAt.mp hrib
  obtain ⟨-, q, hq, -, hlt⟩ := ribs.added_since (hcall.ancestor hn) (ribs.mem_added.mpr hadded)
  obtain rfl := Option.some.inj (hp.symm.trans hq)
  have hp' : scope.startByte ≤ Node.startByte p :=
    ((hcall.ancestor (ancestors_trans (parent_mem_ancestors hp) hn)).within hscope).1
  exact hp'.trans_lt (hlt hitems)

end FunctionOf

/-! ## Before the call -/

theorem before_of_le (hcall : Spaced call) (hn : n ∈ call.ancestors) (hp : n.parent = some p)
    (hs : s.parent = some p) (hle : s.endByte ≤ call.startByte) : s ∈ n.before := by
  have hspan : n.startByte ≤ call.startByte ∧ call.endByte ≤ n.endByte := hcall.within hn
  have hnonempty : call.startByte < call.endByte := hcall.nonempty
  have hsp : Spaced s :=
    ((hcall.ancestor hn).ancestor (parent_mem_ancestors hp)).descendant (parent_mem_ancestors hs)
  rcases before_eq_or_before hp hs with hbefore | rfl | hafter
  · exact hbefore
  · omega
  · have hstop : n.endByte ≤ s.startByte := hsp.stop_le_of_before hafter
    have hlt : s.startByte < s.endByte := hsp.nonempty
    omega

theorem exists_before (hcall : Spaced call) (hp : p ∈ call.ancestors) (hs : s.parent = some p)
    (hle : s.endByte ≤ call.startByte) :
    ∃ n, n.parent = some p ∧ n ∈ call.ancestors ∧ s ∈ n.before := by
  have hsp : Spaced s := (hcall.ancestor hp).descendant (parent_mem_ancestors hs)
  have hne : p ≠ call := by
    rintro rfl
    have hstart : p.startByte ≤ s.startByte := (hsp.within_parent hs).1
    have hlt : s.startByte < s.endByte := hsp.nonempty
    omega
  obtain ⟨n, hn, hcn⟩ := exists_child_of_ne hp hne
  exact ⟨n, hn, hcn, before_of_le hcall hcn hn hs hle⟩

/-! ## Sites -/

variable {d pat : Node}

theorem mem_bindingsAt {node : Node} : (d, pat) ∈ bindingsAt true node ↔
    (d = node ∧ d.kind ∈ bindingKinds ++ extraBindingKinds ∧ d.childByFieldName .pattern = some pat)
      ∨ (node.kind = .closureParameters ∧ d ∈ node.namedChildren ∧ d.kind ∉ bindingKinds ∧
        pat = d) := by
  rw [bindingsAt, mem_append]
  refine or_congr ?_ ?_
  · simp only [true_and, ← mem_append]
    split_ifs with hkind
    · simp only [mem_map, Option.mem_toList, Prod.mk.injEq]
      constructor
      · rintro ⟨_, hpat, rfl, rfl⟩
        exact ⟨rfl, hkind, hpat⟩
      · rintro ⟨rfl, -, hpat⟩
        exact ⟨pat, hpat, rfl, rfl⟩
    · refine iff_of_false not_mem_nil ?_
      rintro ⟨rfl, hd, -⟩
      exact hkind hd
  · split_ifs with hkind
    · simp only [mem_map, mem_filter, decide_eq_true_eq, Prod.mk.injEq]
      constructor
      · rintro ⟨_, ⟨hmem, hd⟩, rfl, rfl⟩
        exact ⟨hkind, hmem, hd, rfl⟩
      · rintro ⟨-, hmem, hd, rfl⟩
        exact ⟨_, ⟨hmem, hd⟩, rfl, rfl⟩
    · exact iff_of_false not_mem_nil fun h => hkind h.1

theorem site_of_pattern (hroot : d.root.Every Grammatical)
    (hscope : scope ∈ d.ancestors) (hkind : d.kind ∈ bindingKinds ++ extraBindingKinds)
    (hpat : d.childByFieldName .pattern = some pat) : (d, pat) ∈ bindingPatterns scope true := by
  have hnamed : d.isNamed = true := by
    rw [Node.isNamed]
    generalize d.kind = kind at hkind
    simp only [bindingKinds, extraBindingKinds, cons_append, nil_append, mem_cons,
      not_mem_nil, or_false] at hkind
    rcases hkind with rfl | rfl | rfl | rfl | rfl <;> rfl
  exact mem_flatMap.mpr ⟨d, mem_below_named hroot hscope hnamed,
    mem_bindingsAt.mpr (.inl ⟨rfl, hkind, hpat⟩)⟩

variable {list : Node}

theorem site_of_parameter (hroot : list.root.Every Grammatical)
    (hscope : scope ∈ list.ancestors) (hlist : list.kind = .closureParameters)
    (hd : d ∈ list.namedChildren) (hkind : d.kind ∉ bindingKinds) :
    (d, d) ∈ bindingPatterns scope true := by
  have hnamed : list.isNamed = true := by
    rw [Node.isNamed, hlist]
    rfl
  exact mem_flatMap.mpr ⟨list, mem_below_named hroot hscope hnamed,
    mem_bindingsAt.mpr (.inr ⟨hlist, hd, hkind, rfl⟩)⟩

theorem ancestor_of_site {site : Node × Node} (h : site ∈ bindingPatterns scope true) :
    scope ∈ site.1.ancestors ∧ scope ∈ site.2.ancestors := by
  obtain ⟨d, pat⟩ := site
  obtain ⟨node, hnode, hsite⟩ := mem_flatMap.mp h
  have hscope := mem_ancestors_of_below Node.namedChildren_subset hnode
  rcases mem_bindingsAt.mp hsite with ⟨rfl, -, hpat⟩ | ⟨-, hmem, -, rfl⟩
  · exact ⟨hscope, ancestors_trans hscope
      (parent_mem_ancestors (Node.mem_children_of_field hpat).1)⟩
  · have hin := ancestors_trans hscope
      (parent_mem_ancestors (Node.mem_namedChildren.mp hmem).1)
    exact ⟨hin, hin⟩

/-! ## What stands on a rib -/

variable {rib : Rib}

theorem mem_letRib : rib ∈ letRib s ↔
    ∃ pat, s.childByFieldName .pattern = some pat ∧ rib = .names s.endByte [(s, pat)] := by
  simp only [letRib, mem_map, Option.mem_toList, eq_comm]

variable {since : ℕ} {bindings : List (Node × Node)}

theorem mem_listRibs (h : .names since bindings ∈ listRibs s) :
    (s.kind = .parameters ∨ s.kind = .closureParameters) ∧ since = s.endByte ∧
      bindings = listBindings s := by
  unfold listRibs at h
  split at h
  · next hkind => cases mem_singleton.mp h; exact ⟨.inl hkind, rfl, rfl⟩
  · next hkind => cases mem_singleton.mp h; exact ⟨.inr hkind, rfl, rfl⟩
  · cases mem_singleton.mp h
  · cases h

theorem exists_let_of_condition (h : rib ∈ conditionRibs s) :
    ∃ d : Node, d.kind = .letCondition ∧ rib ∈ letRib d ∧
      (d = s ∨ s.kind = .letChain ∧ d.parent = some s) := by
  unfold conditionRibs at h
  split at h
  · next hkind => exact ⟨s, hkind, h, .inl rfl⟩
  · next hkind =>
      obtain ⟨d, hd, hrib⟩ := mem_flatMap.mp h
      have hd := mem_children.mp (mem_reverse.mp hd)
      split_ifs at hrib with hcond
      · exact ⟨d, hcond, hrib, .inr ⟨hkind, hd⟩⟩
      · cases hrib
  · cases h

/-- The binding reaches the call from `since` on, or it is a condition that belongs to no `if`
and no `while`. -/
def ReachesSince (call d : Node) (since : ℕ) : Prop :=
  scopeOf d call = some (true, since) ∨ d.kind = .letCondition ∧ scopeOf d call = none

def ownerKinds : List Kind := [.ifExpression, .whileExpression]

def thenField (owner : Node) : Field :=
  if owner.kind = .ifExpression then .consequence else .body

variable {owner : Node}

theorem climb {a b c : Node} (hc : c.parent = some owner) (howner : owner.kind ∈ ownerKinds)
    (h : c ∈ a.ancestors) (hb : a.parent = some b) (hkind : b.kind ∉ ownerKinds) :
    c ∈ b.ancestors := by
  rcases (mem_ancestors_of_parent hb).mp h with rfl | h
  · rw [hb] at hc
    exact absurd howner (Option.some.inj hc ▸ hkind)
  · exact h

theorem reaches_condition (hkind : d.kind = .letCondition) (hle : d.endByte ≤ call.startByte)
    (howner : ∀ owner condition : Node, conditionOwner d = some owner →
      owner.childByFieldName .condition = some condition → condition ∈ d.ancestors →
      condition ∈ call.ancestors ∨
        ∃ body, owner.childByFieldName (thenField owner) = some body ∧ body ∈ call.ancestors) :
    ReachesSince call d d.endByte := by
  have hscope : scopeOf d call = (conditionOwner d).bind fun owner =>
      (Node.childByFieldName owner .condition).bind fun condition =>
        if isAncestor condition d then
          (Node.childByFieldName owner (thenField owner)).bind fun body =>
            some ((isAncestor condition call || isAncestor body call) &&
              d.endByte ≤ call.startByte, d.endByte)
        else none := by
    rw [scopeOf, hkind]
    rfl
  rw [ReachesSince, hscope]
  cases hown : conditionOwner d with
  | none => exact .inr ⟨hkind, rfl⟩
  | some owner =>
      rw [Option.bind_some]
      cases hcond : Node.childByFieldName owner .condition with
      | none => exact .inr ⟨hkind, rfl⟩
      | some condition =>
          rw [Option.bind_some]
          split_ifs with habove
          · cases hbody : Node.childByFieldName owner (thenField owner) with
            | none => exact .inr ⟨hkind, rfl⟩
            | some body =>
                left
                have hin : isAncestor condition call = true ∨ isAncestor body call = true := by
                  rcases howner owner condition hown hcond (of_decide_eq_true habove) with
                    h | ⟨body', hbody', h⟩
                  · exact .inl (decide_eq_true h)
                  · rw [hbody] at hbody'
                    exact .inr (decide_eq_true (Option.some.inj hbody' ▸ h))
                rw [Option.bind_some, (Bool.or_eq_true _ _).mpr hin, decide_eq_true hle]
                rfl
          · exact .inr ⟨hkind, rfl⟩

theorem conditionOwner_kind (h : conditionOwner d = some owner) : owner.kind ∈ ownerKinds := by
  have hfound := find?_some h
  exact of_decide_eq_true hfound

/-- The condition of an `if` or a `while`, or a link of a chain that is one, belongs to it. -/
theorem conditionOwner_eq (hd : d = s ∨ s.kind = .letChain ∧ d.parent = some s)
    (hs : s.parent = some p) (hp : p.kind ∈ ownerKinds) : conditionOwner d = some p := by
  have hfirst : (p.ancestors.find? fun a : Node => a.kind ∈ ownerKinds) = some p := by
    rw [ancestors_eq_cons, find?_cons_of_pos (by simpa using hp)]
  change (d.ancestors.tail.find? fun a : Node => a.kind ∈ ownerKinds) = some p
  rcases hd with rfl | ⟨hchain, hd⟩
  · rw [ancestors_of_parent hs]
    exact hfirst
  · rw [ancestors_of_parent hd, tail_cons, ancestors_of_parent hs, find?_cons_of_neg]
    · exact hfirst
    · rw [hchain]
      decide

theorem scopeOf_let (hkind : s.kind = .letDeclaration) (hs : s.parent = some p)
    (hblock : p.kind = .block) : scopeOf s call
      = some (isAncestor p call && decide (s.endByte ≤ call.startByte), s.endByte) := by
  rw [scopeOf, hkind]
  dsimp only
  rw [hs, Option.filter_some, if_pos (decide_eq_true hblock)]
  rfl

theorem scopeOf_for {body value : Node} (hkind : p.kind = .forExpression)
    (hbody : p.childByFieldName .body = some body)
    (hvalue : p.childByFieldName .value = some value) : scopeOf p call
      = some (isAncestor body call && decide (value.endByte ≤ call.startByte), value.endByte) := by
  rw [scopeOf, hkind]
  dsimp only
  rw [hbody, hvalue]
  rfl

variable {arm : Node}

theorem scopeOf_arm {inner : Node} (hkind : arm.kind = .matchArm)
    (hpat : arm.childByFieldName .pattern = some pattern)
    (hinner : pattern.namedChildren.head? = some inner) : scopeOf arm call
      = some (isAncestor arm call && decide (inner.endByte ≤ call.startByte), inner.endByte) := by
  rw [scopeOf, hkind]
  dsimp only
  rw [hpat]
  change some (isAncestor arm call &&
    decide ((pattern.namedChildren.head?.getD pattern).endByte ≤ call.startByte), _) = _
  rw [hinner, Option.getD_some]

def ParametersOf (list owner : Node) : Prop :=
  (list.kind = .parameters ∧ owner.kind = .functionItem) ∨
    (list.kind = .closureParameters ∧ owner.kind = .closureExpression)

theorem scopeOf_eq_parameterScope
    (hkind : d.kind ∉ [Kind.letDeclaration, .forExpression, .letCondition, .matchArm]) :
    scopeOf d call = parameterScope d call := by
  unfold scopeOf
  split
  · next heq => exact absurd (by rw [heq]; decide) hkind
  · next heq => exact absurd (by rw [heq]; decide) hkind
  · next heq => exact absurd (by rw [heq]; decide) hkind
  · next heq => exact absurd (by rw [heq]; decide) hkind
  · rfl

theorem scopeOf_parameter {body : Node}
    (hkind : d.kind ∉ [Kind.letDeclaration, .forExpression, .letCondition, .matchArm])
    (hd : d.parent = some list) (hlist : list.parent = some owner)
    (hparams : ParametersOf list owner) (hbody : owner.childByFieldName .body = some body) :
    scopeOf d call
      = some (isAncestor body call && decide (list.endByte ≤ call.startByte), list.endByte) := by
  rw [scopeOf_eq_parameterScope hkind, parameterScope, hd]
  change (list.parent.bind _) = _
  rw [hlist, Option.bind_some]
  refine (if_pos hparams).trans ?_
  rw [hbody]
  rfl

/-! ## Every name on a rib is a site -/

/-- A binding reaches the call from `since` on and is among those of the function. -/
def Site (call scope : Node) (since : ℕ) (b : Node × Node) : Prop :=
  b ∈ bindingPatterns scope true ∧ ReachesSince call b.1 since

/-- `n` is a node on the way from the function `scope` to the call, below `p`. -/
structure OnWay (call scope n p : Node) : Prop where
  grammatical : call.root.Every Grammatical
  spaced : Spaced call
  function : FunctionOf call scope
  mem : n ∈ call.ancestors
  parent : n.parent = some p
  inside : scope ∈ p.ancestors

namespace OnWay

theorem parent_mem (h : OnWay call scope n p) : p ∈ call.ancestors :=
  ancestors_trans (parent_mem_ancestors h.parent) h.mem

theorem parent_before (h : OnWay call scope n p) (hs : s ∈ n.before) : s.parent = some p := by
  obtain ⟨q, hq, hsq⟩ := exists_parent_of_before hs
  obtain rfl := Option.some.inj (h.parent.symm.trans hq)
  exact hsq

theorem le_call (h : OnWay call scope n p) (hs : s ∈ n.before) : s.endByte ≤ call.startByte := by
  have hstop : s.endByte ≤ n.startByte := (h.spaced.ancestor h.mem).stop_le_of_before hs
  have hstart : n.startByte ≤ call.startByte := (h.spaced.within h.mem).1
  omega

theorem root_below (h : OnWay call scope n p) (hd : p ∈ d.ancestors) :
    d.root.Every Grammatical := by
  rw [← root_of_ancestor hd, root_of_ancestor h.parent_mem]
  exact h.grammatical

theorem site_of_pattern (h : OnWay call scope n p) (hd : p ∈ d.ancestors)
    (hkind : d.kind ∈ bindingKinds ++ extraBindingKinds)
    (hpat : d.childByFieldName .pattern = some pat) : (d, pat) ∈ bindingPatterns scope true :=
  RustScope.site_of_pattern (h.root_below hd) (ancestors_trans h.inside hd) hkind hpat

theorem grandparent_inside {q : Node} (h : OnWay call scope n p) (hp : p.parent = some q)
    (hkind : p.kind ≠ .functionItem) : OnWay call scope p q where
  grammatical := h.grammatical
  spaced := h.spaced
  function := h.function
  mem := h.parent_mem
  parent := hp
  inside := by
    rcases (mem_ancestors_of_parent hp).mp h.inside with rfl | hin
    · exact absurd h.function.kind hkind
    · exact hin

theorem site_let (h : OnWay call scope n p) (hs : s ∈ n.before) (hblock : p.kind = .block)
    (hkind : s.kind = .letDeclaration)
    (hpat : s.childByFieldName .pattern = some pat) : Site call scope s.endByte (s, pat) := by
  have hsp := h.parent_before hs
  refine ⟨h.site_of_pattern (parent_mem_ancestors hsp) (by rw [hkind]; decide) hpat, .inl ?_⟩
  rw [scopeOf_let hkind hsp hblock, isAncestor, decide_eq_true h.parent_mem,
    decide_eq_true (h.le_call hs), Bool.and_self]

theorem site_for (h : OnWay call scope n p) (hs : s ∈ n.before) (hkind : p.kind = .forExpression)
    (hbody : p.childByFieldName .body = some n) (hvalue : p.childByFieldName .value = some s) (hpat : p.childByFieldName .pattern = some pat) :
    Site call scope s.endByte (p, pat) := by
  refine ⟨h.site_of_pattern (self_mem_ancestors p) (by rw [hkind]; decide) hpat, .inl ?_⟩
  rw [scopeOf_for hkind hbody hvalue, isAncestor, decide_eq_true h.mem,
    decide_eq_true (h.le_call hs), Bool.and_self]

variable {b : Node × Node}

theorem site_list (h : OnWay call scope n p) (hs : s ∈ n.before) (hparams : ParametersOf s p)
    (hbody : p.childByFieldName .body = some n) (hb : b ∈ listBindings s) :
    Site call scope s.endByte b := by
  have hsp := h.parent_before hs
  have hps := parent_mem_ancestors hsp
  obtain ⟨c, hc, hb⟩ := mem_flatMap.mp hb
  have hcs := (Node.mem_namedChildren.mp hc).1
  have hpc := ancestors_trans hps (parent_mem_ancestors hcs)
  have hreach (hkind : Node.kind c ∉
      [Kind.letDeclaration, .forExpression, .letCondition, .matchArm]) :
      ReachesSince call c s.endByte := by
    left
    rw [scopeOf_parameter hkind hcs hsp hparams hbody, isAncestor, decide_eq_true h.mem,
      decide_eq_true (h.le_call hs), Bool.and_self]
  split_ifs at hb with hparam hbare
  · obtain ⟨pat, hpat, rfl⟩ := mem_map.mp hb
    exact ⟨h.site_of_pattern hpc (by rw [hparam]; decide) (Option.mem_toList.mp hpat),
      hreach (by rw [hparam]; decide)⟩
  · obtain rfl := mem_singleton.mp hb
    refine ⟨site_of_parameter (h.root_below hps) (ancestors_trans h.inside hps) hbare.1 hc hbare.2,
      hreach fun hkind => ?_⟩
    have hlist := (every_of_root (h.root_below hps)).1.lists hbare.1 _ (mem_trees_of_parent hcs)
    rcases mem_cons.mp hkind with hlet | hkind
    · exact hbare.2 (by rw [hlet]; decide)
    · exact hlist hkind
  · cases hb

theorem below_le_call (h : OnWay call scope n p) (hs : s ∈ n.before)
    (hd : s ∈ d.ancestors) : d.endByte ≤ call.startByte := by
  have hps := parent_mem_ancestors (h.parent_before hs)
  have hsd : Spaced d := ((h.spaced.ancestor h.parent_mem).descendant hps).descendant hd
  have hend : d.endByte ≤ s.endByte := (hsd.within hd).2
  exact hend.trans (h.le_call hs)

theorem site_condition (h : OnWay call scope n p) (hd : p ∈ d.ancestors)
    (hkind : d.kind = .letCondition) (hle : d.endByte ≤ call.startByte)
    (howner : ∀ owner condition : Node, conditionOwner d = some owner →
      owner.childByFieldName .condition = some condition → condition ∈ d.ancestors →
      condition ∈ call.ancestors ∨
        ∃ body, owner.childByFieldName (thenField owner) = some body ∧ body ∈ call.ancestors) (hrib : .names since bindings ∈ letRib d) (hb : b ∈ bindings) : Site call scope since b := by
  obtain ⟨pat, hpat, heq⟩ := mem_letRib.mp hrib
  cases heq
  obtain rfl := mem_singleton.mp hb
  exact ⟨h.site_of_pattern hd (by rw [hkind]; decide) hpat, reaches_condition hkind hle howner⟩

theorem site_link (h : OnWay call scope n p) (hs : s ∈ n.before) (hchain : p.kind = .letChain)
    (hkind : s.kind = .letCondition) (hrib : .names since bindings ∈ letRib s) (hb : b ∈ bindings) :
    Site call scope since b := by
  have hsp := h.parent_before hs
  refine h.site_condition (parent_mem_ancestors hsp) hkind (h.le_call hs) ?_ hrib hb
  intro owner condition howner hcond habove
  have hc := (Node.mem_children_of_field hcond).1
  have hup := climb hc (conditionOwner_kind howner) habove hsp (by rw [hchain]; decide)
  exact .inl (ancestors_trans hup h.parent_mem)

theorem site_then (h : OnWay call scope n p) (hs : s ∈ n.before) (hkind : p.kind ∈ ownerKinds)
    (hthen : p.childByFieldName (thenField p) = some n) (hrib : .names since bindings ∈ conditionRibs s) (hb : b ∈ bindings) : Site call scope since b := by
  have hsp := h.parent_before hs
  obtain ⟨d, hlet, hrib, hd⟩ := exists_let_of_condition hrib
  have hsd : s ∈ d.ancestors := by
    rcases hd with rfl | ⟨-, hd⟩
    · exact self_mem_ancestors d
    · exact parent_mem_ancestors hd
  refine h.site_condition (ancestors_trans (parent_mem_ancestors hsp) hsd) hlet
    (h.below_le_call hs hsd) ?_ hrib hb
  intro owner condition howner _ _
  rw [conditionOwner_eq hd hsp hkind] at howner
  obtain rfl := Option.some.inj howner
  exact .inr ⟨n, hthen, h.mem⟩

theorem site_arm (h : OnWay call scope n p) (hs : s ∈ n.before) (harm : p.kind = .matchArm)
    (hpat : p.childByFieldName .pattern = some s) (hpattern : s.kind = .matchPattern) (hrib : .names since bindings ∈ armRibs p s) (hb : b ∈ bindings) : Site call scope since b := by
  have hsp := h.parent_before hs
  have hps := parent_mem_ancestors hsp
  obtain ⟨c, hc, hrib⟩ := mem_flatMap.mp hrib
  have hcs := mem_children.mp (mem_reverse.mp hc)
  have hsc := parent_mem_ancestors hcs
  split_ifs at hrib with hguard hhead
  · obtain ⟨d, hlet, hrib, hd⟩ := exists_let_of_condition hrib
    have hcd : c ∈ d.ancestors := by
      rcases hd with rfl | ⟨-, hd⟩
      · exact self_mem_ancestors d
      · exact parent_mem_ancestors hd
    have hsd := ancestors_trans hsc hcd
    refine h.site_condition (ancestors_trans hps hsd) hlet (h.below_le_call hs hsd) ?_ hrib hb
    intro owner condition howner hcond habove
    have hkind := conditionOwner_kind howner
    have hparent := (Node.mem_children_of_field hcond).1
    have hup : condition ∈ c.ancestors := by
      rcases hd with rfl | ⟨hchain, hd⟩
      · exact habove
      · exact climb hparent hkind habove hd (by rw [hchain]; decide)
    have hup := climb hparent hkind hup hcs (by rw [hpattern]; decide)
    have hup := climb hparent hkind hup hsp (by rw [harm]; decide)
    exact .inl (ancestors_trans hup h.parent_mem)
  · cases mem_singleton.mp hrib
    obtain rfl := mem_singleton.mp hb
    refine ⟨h.site_of_pattern (self_mem_ancestors p) (by rw [harm]; decide) hpat, .inl ?_⟩
    rw [scopeOf_arm harm hpat hhead, isAncestor, decide_eq_true h.parent_mem,
      decide_eq_true (h.below_le_call hs hsc), Bool.and_self]
  · cases hrib

theorem site_guard (h : OnWay call scope n p) (hs : s ∈ n.before)
    (hpattern : p.kind = .matchPattern) (hp : p.parent = some arm)
    (hhead : p.namedChildren.head? = some s) (harm : arm.kind = .matchArm)
    (hpat : arm.childByFieldName .pattern = some p) : Site call scope s.endByte (arm, p) := by
  have hup := h.grandparent_inside hp (by rw [hpattern]; decide)
  refine ⟨hup.site_of_pattern (self_mem_ancestors arm) (by rw [harm]; decide) hpat, .inl ?_⟩
  rw [scopeOf_arm harm hpat hhead, isAncestor, decide_eq_true hup.parent_mem,
    decide_eq_true (h.le_call hs), Bool.and_self]

theorem site_of_brought (h : OnWay call scope n p) (hs : s ∈ n.before) (hrib : .names since bindings ∈ brought n s) (hb : b ∈ bindings) : Site call scope since b := by
  unfold brought at hrib
  rw [h.parent] at hrib
  dsimp only at hrib
  split at hrib
  · next hkind =>
      unfold statementRibs at hrib
      split_ifs at hrib with hlet
      · obtain ⟨pat, hpat, heq⟩ := mem_letRib.mp hrib
        cases heq
        obtain rfl := mem_singleton.mp hb
        exact h.site_let hs hkind hlet hpat
      · obtain ⟨_, -, heq⟩ := mem_map.mp hrib
        cases heq
  · next hkind =>
      split_ifs at hrib with hbody
      · obtain ⟨hlist, rfl, rfl⟩ := mem_listRibs hrib
        exact h.site_list hs (.inl ⟨hlist.resolve_right hbody.2, hkind⟩) hbody.1 hb
      · cases hrib
  · next hkind =>
      split_ifs at hrib with hbody
      · obtain ⟨-, rfl, rfl⟩ := mem_listRibs hrib
        exact h.site_list hs (.inr ⟨hbody.2, hkind⟩) hbody.1 hb
      · cases hrib
  · next hkind =>
      split_ifs at hrib with hbody
      · obtain ⟨pat, hpat, heq⟩ := mem_map.mp hrib
        cases heq
        obtain rfl := mem_singleton.mp hb
        exact h.site_for hs hkind hbody.1 hbody.2 (Option.mem_toList.mp hpat)
      · cases hrib
  · next hkind =>
      split_ifs at hrib with hthen
      · refine h.site_then hs (by rw [hkind]; decide) ?_ hrib hb
        rw [thenField, if_pos hkind]
        exact hthen.1
      · cases hrib
  · next hkind =>
      split_ifs at hrib with hthen
      · refine h.site_then hs (by rw [hkind]; decide) ?_ hrib hb
        rw [thenField, if_neg (by rw [hkind]; decide)]
        exact hthen.1
      · cases hrib
  · next hkind =>
      split_ifs at hrib with hlet
      · exact h.site_link hs hkind hlet hrib hb
      · cases hrib
  · next hkind =>
      split_ifs at hrib with hvalue
      · exact h.site_arm hs hkind hvalue.2.1 hvalue.2.2 hrib hb
      · cases hrib
  · next hkind =>
      split at hrib
      · cases hrib
      · next arm hp =>
          split_ifs at hrib with hguard
          · cases mem_singleton.mp hrib
            obtain rfl := mem_singleton.mp hb
            exact h.site_guard hs hkind hp hguard.2.1 hguard.2.2.1 hguard.2.2.2
          · cases hrib
  · next hkind =>
      split_ifs at hrib
      · cases mem_singleton.mp hrib
      · cases hrib
  · cases hrib

end OnWay

namespace FunctionOf

/-- Of the functions around the call none is below another but the innermost. -/
theorem eq_of_kind (h : FunctionOf call scope) (hp : p ∈ call.ancestors)
    (hscope : scope ∈ p.ancestors) (hkind : p.kind = .functionItem) : p = scope := by
  rcases eq_or_mem_parent hscope with heq | ⟨q, hq, hscope⟩
  · exact heq.symm
  · have hmem := h.mem_takeWhile_iff.mpr ⟨hp, q, hq, hscope⟩
    have hno := mem_takeWhile_imp hmem
    simp [hkind] at hno

theorem onWay (h : FunctionOf call scope) (hroot : call.root.Every Grammatical)
    (hcall : Spaced call) (hn : n ∈ call.ancestors) (hp : n.parent = some p)
    (hscope : scope ∈ p.ancestors) : OnWay call scope n p :=
  ⟨hroot, hcall, h, hn, hp, hscope⟩

theorem exists_site (h : FunctionOf call scope) (hroot : call.root.Every Grammatical)
    (hcall : Spaced call)
    (hrib : .names since bindings ∈ ribsAt call) {b : Node × Node} (hb : b ∈ bindings) :
    Site call scope since b := by
  obtain ⟨n, p, hn, hp, hscope, ⟨s, hs, hrib⟩ | hheld⟩ := h.mem_ribsAt.mp hrib
  · exact (h.onWay hroot hcall hn hp hscope).site_of_brought hs hrib hb
  · obtain ⟨_, _, _, heq⟩ := mem_held.mp hheld
    cases heq

end FunctionOf

/-! ## Macros and constant parameters -/

def Rib.isNames : Rib → Prop
  | names _ _ => True
  | _ => False

theorem isNames_condition (h : rib ∈ conditionRibs s) : rib.isNames := by
  obtain ⟨d, -, hrib, -⟩ := exists_let_of_condition h
  obtain ⟨_, -, rfl⟩ := mem_letRib.mp hrib
  trivial

theorem isNames_arm (h : rib ∈ armRibs arm s) : rib.isNames := by
  obtain ⟨c, -, hrib⟩ := mem_flatMap.mp h
  split_ifs at hrib
  · exact isNames_condition hrib
  · cases mem_singleton.mp hrib
    trivial
  · cases hrib

theorem listRibs_cases (h : rib ∈ listRibs s) :
    rib.isNames ∨ s.kind = .typeParameters ∧ rib = .consts s.endByte s := by
  unfold listRibs at h
  split at h
  · cases mem_singleton.mp h; exact .inl trivial
  · cases mem_singleton.mp h; exact .inl trivial
  · next hkind => exact .inr ⟨hkind, mem_singleton.mp h⟩
  · cases h

theorem brought_cases (hp : n.parent = some p) (h : rib ∈ brought n s) : rib.isNames ∨
      (∃ since invocation, rib = .expansion since invocation ∧
        (statementMacro s = some invocation ∨ invocation = p)) ∨
      (p.kind = .functionItem ∧ s.kind = .typeParameters ∧ rib = .consts s.endByte s) := by
  unfold brought at h
  rw [hp] at h
  dsimp only at h
  split at h
  · unfold statementRibs at h
    split_ifs at h
    · obtain ⟨_, -, rfl⟩ := mem_letRib.mp h
      exact .inl trivial
    · obtain ⟨invocation, hinv, rfl⟩ := mem_map.mp h
      exact .inr (.inl ⟨_, invocation, rfl, .inl (Option.mem_toList.mp hinv)⟩)
  · next hkind =>
      split_ifs at h
      · rcases listRibs_cases h with hnames | ⟨hlist, rfl⟩
        · exact .inl hnames
        · exact .inr (.inr ⟨hkind, hlist, rfl⟩)
      · cases h
  · split_ifs at h with hlist
    · rcases listRibs_cases h with hnames | ⟨htypes, -⟩
      · exact .inl hnames
      · rw [hlist.2] at htypes
        cases htypes
    · cases h
  · split_ifs at h
    · obtain ⟨_, -, rfl⟩ := mem_map.mp h
      exact .inl trivial
    · cases h
  · split_ifs at h
    · exact .inl (isNames_condition h)
    · cases h
  · split_ifs at h
    · exact .inl (isNames_condition h)
    · cases h
  · split_ifs at h
    · obtain ⟨_, -, rfl⟩ := mem_letRib.mp h
      exact .inl trivial
    · cases h
  · split_ifs at h
    · exact .inl (isNames_arm h)
    · cases h
  · split at h
    · cases h
    · split_ifs at h
      · cases mem_singleton.mp h
        exact .inl trivial
      · cases h
  · split_ifs at h
    · exact .inr (.inl ⟨_, p, mem_singleton.mp h, .inr rfl⟩)
    · cases h
  · cases h

variable {cc : CharClass}

theorem mem_otherBinders_of_invocation {invocation : Node}
    (hscope : scope ∈ invocation.ancestors) (hname : name ∈ macroNamesAt invocation) :
    name ∈ otherBinders cc scope := by
  refine mem_append_left _ (mem_flatMap.mpr ⟨invocation, ?_, hname⟩)
  exact mem_below_of_ancestors (fun _ => List.Subset.refl _) hscope
    fun c _ p hp _ => mem_children.mpr hp

theorem ancestor_statementMacro {invocation : Node} (h : statementMacro s = some invocation) :
    s ∈ invocation.ancestors := by
  unfold statementMacro at h
  split_ifs at h
  · cases h
    exact self_mem_ancestors s
  · have hmem := mem_of_mem_head? (Option.filter_eq_some_iff.mp h).1
    exact parent_mem_ancestors (Node.mem_namedChildren.mp hmem).1

theorem mem_otherBinders_of_const {c : Node}
    (hlist : list.parent = some scope) (hkind : list.kind = .typeParameters)
    (hfn : scope.kind = .functionItem) (hc : c ∈ list.namedChildren)
    (hconst : c.kind = .constParameter) (hname : name ∈ definedName c) :
    name ∈ otherBinders cc scope := by
  refine mem_append_right _ (mem_flatMap.mpr ⟨c, ?_, ?_⟩)
  · have hsubset (n : Node) : pastUses n ⊆ n.children := by
      unfold pastUses
      split
      · exact nil_subset _
      · exact n.namedChildren_subset
    have hnamed : list.isNamed = true := by
      rw [Node.isNamed, hkind]
      rfl
    rw [mem_below hsubset]
    refine (Relation.ReflTransGen.single (b := list) ?_).tail ?_
    · rw [pastUses, if_neg (by rw [hfn]; decide)]
      exact Node.mem_namedChildren.mpr ⟨hlist, hnamed⟩
    · rw [pastUses, if_neg (by rw [hkind]; decide)]
      exact hc
  · rw [itemNamesAt, if_pos (by rw [hconst]; decide)]
    exact hname

/-- A rib in scope at the call that binds a name the code ascribes to nothing else is one of
names or of items. -/
theorem FunctionOf.names_or_items (h : FunctionOf call scope) (hroot : call.root.Every Grammatical)
    (hcall : Spaced call) (hother : name ∉ otherBinders cc scope) (hrib : rib ∈ ribsAt call)
    (hbinds : rib.Binds outside name) : rib.isNames ∨ rib.isItems := by
  obtain ⟨n, p, hn, hp, hscope, ⟨s, hs, hrib⟩ | hheld⟩ := h.mem_ribsAt.mp hrib
  · have hway := h.onWay hroot hcall hn hp hscope
    have hsp := hway.parent_before hs
    rcases brought_cases hp hrib with hnames | ⟨_, invocation, rfl, hinv⟩ | ⟨hkind, hlist, rfl⟩
    · exact .inl hnames
    · have hscope : scope ∈ invocation.ancestors := by
        rcases hinv with hinv | rfl
        · exact ancestors_trans (ancestors_trans hscope (parent_mem_ancestors hsp))
            (ancestor_statementMacro hinv)
        · exact hscope
      exact absurd (mem_otherBinders_of_invocation hscope (outside.handed _ hbinds)) hother
    · obtain rfl := h.eq_of_kind hway.parent_mem hscope hkind
      obtain ⟨c, hc, hconst, hname⟩ := hbinds
      exact absurd (mem_otherBinders_of_const hsp hlist hkind hc hconst hname) hother
  · obtain ⟨_, _, _, rfl⟩ := mem_held.mp hheld
    exact .inr trivial

/-! ## A site with a type stands on a rib -/

theorem kind_of_declared {throughResults : Bool} {declared : Declared}
    (hroot : d.root.Every Grammatical) (h : bindingDeclared d throughResults = some declared) :
    d.kind ∉ [Kind.forExpression, .letCondition, .matchArm] := by
  intro hkind
  have hnone : d.childByFieldName .type = none := by
    refine Option.eq_none_iff_forall_ne_some.mpr fun c hc => ?_
    obtain ⟨hparent, hfield⟩ := Node.mem_children_of_field hc
    obtain ⟨l, hl, hentry⟩ := mem_entries_of_parent hparent
    have htype : l = some .type := by
      rw [Node.field, hl] at hfield
      exact hfield
    exact (every_of_root hroot).1.untyped hkind _ hentry htype
  rw [bindingDeclared, hnone] at h
  dsimp only at h
  rw [if_pos] at h
  · cases h
  · rintro hlet
    rw [hlet] at hkind
    exact absurd hkind (by decide)

variable {point : ℕ}

theorem parameterScope_eq (h : parameterScope d call = some (true, point)) :
    ∃ list owner body : Node, d.parent = some list ∧ list.parent = some owner ∧
      ParametersOf list owner ∧ owner.childByFieldName .body = some body ∧
      body ∈ call.ancestors ∧ list.endByte ≤ call.startByte ∧ point = list.endByte := by
  unfold parameterScope at h
  obtain ⟨list, hlist, h⟩ := Option.bind_eq_some_iff.mp h
  obtain ⟨owner, howner, h⟩ := Option.bind_eq_some_iff.mp h
  split_ifs at h with hparams
  obtain ⟨body, hbody, h⟩ := Option.bind_eq_some_iff.mp h
  simp only [Option.some.injEq, Prod.mk.injEq, Bool.and_eq_true, decide_eq_true_eq] at h
  exact ⟨list, owner, body, hlist, howner, hparams, hbody, of_decide_eq_true h.1.1, h.1.2,
    h.2.symm⟩

namespace FunctionOf

theorem grammatical_below (h : FunctionOf call scope)
    (hroot : call.root.Every Grammatical) (hd : scope ∈ d.ancestors) : d.root.Every Grammatical := by
  rw [← root_of_ancestor hd, root_of_ancestor h.mem]
  exact hroot

theorem parent_inside (h : FunctionOf call scope) (hn : scope ∈ n.ancestors)
    (hp : n.parent = some p) (hkind : n.kind ≠ .functionItem) : scope ∈ p.ancestors := by
  rcases (mem_ancestors_of_parent hp).mp hn with rfl | hin
  · exact absurd h.kind hkind
  · exact hin

theorem exists_rib_let (h : FunctionOf call scope) (hcall : Spaced call)
    (hd : scope ∈ d.ancestors) (hlet : d.kind = .letDeclaration)
    (hpat : d.childByFieldName .pattern = some pat)
    (hreach : scopeOf d call = some (true, point)) : .names point [(d, pat)] ∈ ribsAt call := by
  rw [scopeOf, hlet] at hreach
  obtain ⟨p, hp, hreach⟩ := Option.bind_eq_some_iff.mp hreach
  obtain ⟨hp, hblock⟩ := Option.filter_eq_some_iff.mp hp
  simp only [Option.some.injEq, Prod.mk.injEq, Bool.and_eq_true, decide_eq_true_eq]
    at hreach hblock
  obtain ⟨⟨hin, hle⟩, rfl⟩ := hreach
  obtain ⟨n, hn, hmem, hbefore⟩ := exists_before hcall (of_decide_eq_true hin) hp hle
  refine h.mem_ribsAt.mpr ⟨n, p, hmem, hn, h.parent_inside hd hp (by rw [hlet]; decide),
    .inl ⟨d, hbefore, ?_⟩⟩
  unfold brought
  rw [hn]
  dsimp only
  rw [hblock]
  dsimp only
  rw [statementRibs, if_pos hlet]
  exact mem_letRib.mpr ⟨pat, hpat, rfl⟩

theorem exists_rib_list (h : FunctionOf call scope) (hcall : Spaced call)
    (hlist : scope ∈ list.ancestors) (hd : d.parent = some list)
    (hreach : parameterScope d call = some (true, point)) :
    .names point (listBindings list) ∈ ribsAt call := by
  obtain ⟨list', owner, body, hd', howner, hparams, hbody, hin, hle, rfl⟩ :=
    parameterScope_eq hreach
  obtain rfl := Option.some.inj (hd.symm.trans hd')
  have hbodyParent := (Node.mem_children_of_field hbody).1
  have hkind : list.kind ≠ .functionItem := by
    rcases hparams with ⟨hkind, -⟩ | ⟨hkind, -⟩ <;> rw [hkind] <;> decide
  refine h.mem_ribsAt.mpr ⟨body, owner, hin, hbodyParent, h.parent_inside hlist howner hkind,
    .inl ⟨list, before_of_le hcall hin hbodyParent howner hle, ?_⟩⟩
  unfold brought
  rw [hbodyParent]
  dsimp only
  rcases hparams with ⟨hparams, hfn⟩ | ⟨hparams, hclosure⟩
  · rw [hfn]
    dsimp only
    rw [if_pos ⟨hbody, by rw [hparams]; decide⟩, listRibs, hparams]
    exact mem_singleton_self _
  · rw [hclosure]
    dsimp only
    rw [if_pos ⟨hbody, hparams⟩, listRibs, hparams]
    exact mem_singleton_self _

theorem exists_rib (h : FunctionOf call scope) (hroot : call.root.Every Grammatical)
    (hcall : Spaced call) {site : Node × Node} (hsite : site ∈ bindingPatterns scope true)
    {declared : Declared} (htyped : bindingDeclared site.1 false = some declared)
    (hreach : scopeOf site.1 call = some (true, point)) :
    ∃ bindings, .names point bindings ∈ ribsAt call ∧ site ∈ bindings := by
  obtain ⟨d, pat⟩ := site
  obtain ⟨node, hnode, hsite⟩ := mem_flatMap.mp hsite
  have hscope := mem_ancestors_of_below Node.namedChildren_subset hnode
  rcases mem_bindingsAt.mp hsite with ⟨rfl, hkind, hpat⟩ | ⟨hlist, hmem, hkind, rfl⟩
  · have huntyped := kind_of_declared (h.grammatical_below hroot hscope) htyped
    by_cases hlet : d.kind = .letDeclaration
    · exact ⟨_, h.exists_rib_let hcall hscope hlet hpat hreach, mem_singleton_self _⟩
    · have hparam : d.kind = .parameter := by
        generalize d.kind = kind at hkind huntyped hlet
        simp only [bindingKinds, extraBindingKinds, cons_append, nil_append,
          mem_cons, not_mem_nil, or_false, not_or] at hkind huntyped
        tauto
      rw [scopeOf_eq_parameterScope (by rw [hparam]; decide)] at hreach
      obtain ⟨list, -, -, hd, -⟩ := parameterScope_eq hreach
      have hlist := h.parent_inside hscope hd (by rw [hparam]; decide)
      refine ⟨_, h.exists_rib_list hcall hlist hd hreach, mem_flatMap.mpr ⟨d, ?_, ?_⟩⟩
      · refine Node.mem_namedChildren.mpr ⟨hd, ?_⟩
        rw [Node.isNamed, hparam]
        rfl
      · rw [if_pos hparam, hpat]
        exact mem_singleton_self _
  · have hd := (Node.mem_namedChildren.mp hmem).1
    have huntyped := kind_of_declared
      (h.grammatical_below hroot (ancestors_trans hscope (parent_mem_ancestors hd))) htyped
    have hkinds : Node.kind pat ∉ [Kind.letDeclaration, .forExpression, .letCondition, .matchArm] :=
      fun hmem => (mem_cons.mp hmem).elim (fun hlet => hkind (by rw [hlet]; decide)) huntyped
    rw [scopeOf_eq_parameterScope hkinds] at hreach
    refine ⟨_, h.exists_rib_list hcall hscope hd hreach, mem_flatMap.mpr ⟨pat, hmem, ?_⟩⟩
    rw [if_neg fun hparam => hkind (by rw [hparam]; decide), if_pos ⟨hlist, hkind⟩]
    exact mem_singleton_self _

end FunctionOf

end RustScope

end CodeGraph
