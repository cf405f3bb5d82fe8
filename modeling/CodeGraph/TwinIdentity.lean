import CodeGraph.TwinWalk
import Mathlib.Data.Finset.Card

/-!
# Twins are told apart

Where no owner of a definition is a twin, the gate stands behind the name of the definition;
where one is, only the gate of the outermost such owner is in the name. So two definitions
of one path under different gates share their name when they share that owner, and in no
other case.
-/

namespace CodeGraph

open List

namespace TwinWalk

/-- The path of an owner, made of the texts of the file. -/
def plainScope (path : Text) (owners : List Owner) : Text :=
  owners.foldl (fun scope owner => qual scope owner.text) path

def Definition.plainPath (path : Text) (d : Definition) : Text :=
  qual (plainScope path d.owners) d.name

/-- The texts below a scope, in an id. -/
def below (owners : List Owner) : Text := owners.flatMap fun owner => "::".toList ++ owner.text

theorem plainScope_eq (path : Text) (owners : List Owner) :
    plainScope path owners = path ++ below owners := by
  induction owners generalizing path with
  | nil => exact (append_nil path).symm
  | cons owner owners ih =>
      rw [plainScope, foldl_cons, ← plainScope, ih, qual]
      simp only [below, flatMap_cons, append_assoc]

theorem plainScope_unmarked {path : Text} (hpath : Unmarked path) {owners : List Owner}
    (howners : ∀ owner ∈ owners, owner.Spelled) : Unmarked (plainScope path owners) := by
  induction owners generalizing path with
  | nil => exact hpath
  | cons owner owners ih =>
      obtain ⟨hhead, htail⟩ := forall_mem_cons.mp howners
      exact ih (hpath.join hhead.text) htail

/-! ## The keys of the second walk -/

theorem twinQn_empty (label : SymbolLabel) (gate plain : Text) :
    twinQn .empty label gate plain = plain := rfl

theorem scopeOf_empty (path : Text) (owners : List Owner) :
    scopeOf .empty path owners = plainScope path owners := by
  unfold scopeOf plainScope
  congr 1
  funext scope owner
  rw [Owner.enter]
  split
  · rfl
  · rfl

theorem node_empty (path : Text) (d : Definition) :
    (d.node .empty path).qualifiedName = d.plainPath path := by
  rw [Definition.node, Definition.plainPath, twinQn_empty, scopeOf_empty]

variable {label : SymbolLabel} {qn gate : Text}

theorem mem_memberGates {nodes : List Node} : gate ∈ memberGates nodes label qn ↔
      ∃ node ∈ nodes, node.label = label ∧ node.qualifiedName = qn ∧ node.gate = gate := by
  simp only [memberGates, mem_dedup, mem_map, mem_filter, decide_eq_true_eq, and_assoc]

theorem twinKeys_isSome {nodes : List Node} : (twinKeys nodes label qn).isSome ↔
      ∃ node ∈ nodes, ∃ node' ∈ nodes, node.label = label ∧ node'.label = label ∧
        node.qualifiedName = qn ∧ node'.qualifiedName = qn ∧ node.gate ≠ node'.gate := by
  have hcard : 1 < (memberGates nodes label qn).length ↔
      ∃ a ∈ memberGates nodes label qn, ∃ b ∈ memberGates nodes label qn, a ≠ b := by
    have hnodup : (memberGates nodes label qn).Nodup := nodup_dedup _
    rw [← toFinset_card_of_nodup hnodup, Finset.one_lt_card]
    simp only [mem_toFinset]
  rw [twinKeys]
  constructor
  · intro h
    split at h
    · next hlt =>
      obtain ⟨a, ha, b, hb, hne⟩ := hcard.mp hlt
      obtain ⟨node, hnode, hlabel, hqn, rfl⟩ := mem_memberGates.mp ha
      obtain ⟨node', hnode', hlabel', hqn', rfl⟩ := mem_memberGates.mp hb
      exact ⟨node, hnode, node', hnode', hlabel, hlabel', hqn, hqn', hne⟩
    · cases h
  · rintro ⟨node, hnode, node', hnode', hlabel, hlabel', hqn, hqn', hne⟩
    rw [if_pos (hcard.mpr ⟨node.gate, mem_memberGates.mpr ⟨node, hnode, hlabel, hqn, rfl⟩,
      node'.gate, mem_memberGates.mpr ⟨node', hnode', hlabel', hqn', rfl⟩, hne⟩)]
    rfl

namespace RustFile

variable (file : RustFile)

/-- What the first walk finds. -/
def twins : Twins := twinKeys (walkDefs .empty file)

/-- The node of a definition in the second walk. -/
def emitted (d : Definition) : Node := d.node file.twins file.path.text

def plainPath (d : Definition) : Text := d.plainPath file.path.text

variable {file}

theorem twins_isSome : (file.twins label qn).isSome ↔
    ∃ d ∈ file.definitions, ∃ d' ∈ file.definitions, d.label = label ∧ d'.label = label ∧
      file.plainPath d = qn ∧ file.plainPath d' = qn ∧ d.gate ≠ d'.gate := by
  rw [twins, twinKeys_isSome, walkDefs_eq]
  simp only [mem_map, exists_exists_and_eq_and, node_empty]
  rfl

theorem unmarked_of_twins (label : SymbolLabel) (qn : Text) (h : (file.twins label qn).isSome) :
    Unmarked qn := by
  obtain ⟨d, hd, -, -, -, -, rfl, -⟩ := twins_isSome.mp h
  have hspelled := file.spelled hd
  exact (plainScope_unmarked file.path.unmarked hspelled.owners).join hspelled.name

end RustFile

/-! ## The owner that is renamed -/

section Owners

variable {twins : Twins}

/-- Whether the name of an owner of this path has its gate behind it: the owner is a twin, or
the block of an `impl` under the gate of a member of one. -/
def Owner.gated (twins : Twins) (plain : Text) (owner : Owner) : Bool :=
  match owner.label with
  | some label => (twins label plain).isSome
  | none =>
      match implOwnerLabels.findSome? fun label => twins label plain with
      | none => false
      | some memberGates => owner.gate ≠ [] ∧ owner.gate ∈ memberGates

theorem Owner.enter_eq (owner : Owner) (scope : Text) :
    owner.enter twins scope = if owner.gated twins (qual scope owner.text) then
      qual scope owner.text ++ twinSuffix owner.gate else qual scope owner.text := by
  obtain ⟨label, text, gate⟩ := owner
  cases label with
  | some label => rfl
  | none =>
      cases hfound : implOwnerLabels.findSome? fun label => twins label (qual scope text) with
      | none =>
          have hgated : (Owner.mk none text gate).gated twins (qual scope text) = false := by
            simp only [Owner.gated, hfound]
          rw [if_neg (Bool.eq_false_iff.mp hgated)]
          simp only [Owner.enter, implOwner, hfound, Option.getD_some]
      | some memberGates =>
          have hgated : (Owner.mk none text gate).gated twins (qual scope text) =
              decide (gate ≠ [] ∧ gate ∈ memberGates) := by
            simp only [Owner.gated, hfound]
          by_cases h : gate ≠ [] ∧ gate ∈ memberGates
          · rw [if_pos (hgated.trans (decide_eq_true h))]
            simp only [Owner.enter, implOwner, hfound, if_pos h, Option.getD_some]
          · rw [if_neg (Bool.eq_false_iff.mp (hgated.trans (decide_eq_false h)))]
            simp only [Owner.enter, implOwner, hfound, if_neg h, Option.getD_none]

/-- The path and the gate of the outermost owner that has its gate behind it. -/
def renamedOwner (twins : Twins) : (scope : Text) → List Owner → Option (Text × Text)
  | _, [] => none
  | scope, owner :: owners =>
      if owner.gated twins (qual scope owner.text) then some (qual scope owner.text, owner.gate)
      else renamedOwner twins (qual scope owner.text) owners

theorem marked_suffix (plain gate : Text) : ¬Unmarked (plain ++ twinSuffix gate) := by
  intro h
  refine h ⟨plain, gate ++ [')'], ?_⟩
  rw [twinSuffix, append_assoc, append_assoc]

variable (hkeys : ∀ label qn, (twins label qn).isSome → Unmarked qn)

include hkeys

theorem Owner.unmarked_of_gated {owner : Owner} {plain : Text} (h : owner.gated twins plain) :
    Unmarked plain := by
  rw [Owner.gated] at h
  split at h
  · exact hkeys _ _ h
  · split at h
    · cases h
    · next memberGates hfound =>
      obtain ⟨label, -, hlabel⟩ := exists_of_findSome?_eq_some hfound
      exact hkeys label plain (hlabel ▸ rfl)

/-- Below a name with a gate in it nothing is a twin. -/
theorem scopeOf_marked {scope : Text} (h : ¬Unmarked scope) (owners : List Owner) :
    scopeOf twins scope owners = plainScope scope owners := by
  induction owners generalizing scope with
  | nil => rfl
  | cons owner owners ih =>
      have hqual : ¬Unmarked (qual scope owner.text) := fun hqual =>
        h fun hin => hqual (hin.trans ⟨[], "::".toList ++ owner.text, by
          rw [nil_append, qual, append_assoc]⟩)
      have henter : owner.enter twins scope = qual scope owner.text := by
        rw [owner.enter_eq, if_neg fun hgated => hqual (Owner.unmarked_of_gated hkeys hgated)]
      rw [scopeOf, foldl_cons, henter]
      exact ih hqual

theorem scopeOf_eq {scope : Text} {owners : List Owner} :
    (renamedOwner twins scope owners = none → scopeOf twins scope owners = plainScope scope owners) ∧
      ∀ plain gate, renamedOwner twins scope owners = some (plain, gate) →
        ∃ owner ∈ owners, owner.gate = gate ∧ Unmarked plain ∧ ∃ after : List Owner, after ⊆ owners ∧
          plainScope scope owners = plain ++ below after ∧
          scopeOf twins scope owners = plain ++ twinSuffix gate ++ below after := by
  induction owners generalizing scope with
  | nil => exact ⟨fun _ => rfl, fun _ _ h => by cases h⟩
  | cons owner owners ih =>
      rw [renamedOwner, scopeOf, foldl_cons, ← scopeOf, owner.enter_eq]
      by_cases hgated : owner.gated twins (qual scope owner.text)
      · rw [if_pos hgated, if_pos hgated]
        refine ⟨fun h => (by cases h), ?_⟩
        rintro plain gate ⟨⟩
        refine ⟨owner, mem_cons_self, rfl, Owner.unmarked_of_gated hkeys hgated, owners,
          subset_cons_self _ _, ?_, ?_⟩
        · rw [plainScope, foldl_cons, ← plainScope, plainScope_eq]
        · rw [scopeOf_marked hkeys (marked_suffix _ _), plainScope_eq]
      · rw [if_neg hgated, if_neg hgated]
        obtain ⟨hnone, hsome⟩ := @ih (qual scope owner.text)
        refine ⟨hnone, fun plain gate h => ?_⟩
        obtain ⟨found, hfound, hgate, hplain, after, hafter, hpath, hscope⟩ := hsome plain gate h
        exact ⟨found, mem_cons_of_mem _ hfound, hgate, hplain, after,
          List.Subset.trans hafter (subset_cons_self _ _), hpath, hscope⟩

end Owners

/-! ## Names with and without a gate -/

theorem stripCfgGates_unmarked {text : Text} (h : Unmarked text) : stripCfgGates text = text := by
  rw [stripCfgGates, firstGate_unmarked h]

theorem stripCfgGates_suffix {before rest : Text} (hbefore : Unmarked before)
    (hgate : Balanced gate) (hrest : Unmarked rest) :
    stripCfgGates (before ++ twinSuffix gate ++ rest) = before ++ rest := by
  rw [append_assoc, stripCfgGates, firstGate_suffix hbefore hgate]
  exact congrArg _ (stripCfgGates_unmarked hrest)

theorem suffix_inj {before before' gate' rest rest' : Text} (hbefore : Unmarked before)
    (hbefore' : Unmarked before') (hgate : Balanced gate) (hgate' : Balanced gate')
    (h : before ++ twinSuffix gate ++ rest = before' ++ twinSuffix gate' ++ rest') :
    before = before' ∧ gate = gate' ∧ rest = rest' := by
  have hfirst := firstGate_suffix hbefore hgate rest
  rw [← append_assoc, h, append_assoc, firstGate_suffix hbefore' hgate'] at hfirst
  cases hfirst
  exact ⟨rfl, rfl, rfl⟩

namespace RustFile

variable {file : RustFile}

def renamedOwner (file : RustFile) (d : Definition) : Option (Text × Text) :=
  TwinWalk.renamedOwner file.twins file.path.text d.owners

variable {d : Definition}

theorem emitted_none (h : file.renamedOwner d = none) : (file.emitted d).qualifiedName =
      if (file.twins d.label (file.plainPath d)).isSome then file.plainPath d ++ twinSuffix d.gate
      else file.plainPath d := by
  have hscope := (scopeOf_eq unmarked_of_twins).1 h
  rw [emitted, Definition.node, hscope]
  rfl

/-- The parts of the name of a definition below an owner that is renamed. -/
structure Below (file : RustFile) (d : Definition) (plain gate rest : Text) : Prop where
  unmarked_plain : Unmarked plain
  balanced : Balanced gate
  unmarked_rest : Unmarked rest
  rest_ne : rest ≠ []
  path : file.plainPath d = plain ++ rest
  qualifiedName : (file.emitted d).qualifiedName = plain ++ twinSuffix gate ++ rest
  own : (file.emitted d).qualifiedName = qual (file.emitted d).scope d.name

theorem emitted_some (hd : d ∈ file.definitions) {plain : Text}
    (h : file.renamedOwner d = some (plain, gate)) : ∃ rest, file.Below d plain gate rest := by
  have hspelled := file.spelled hd
  obtain ⟨owner, howner, rfl, hplain, after, hafter, hpath, hscope⟩ :=
    (scopeOf_eq unmarked_of_twins).2 plain gate h
  have hmarked : ¬Unmarked (qual (scopeOf file.twins file.path.text d.owners) d.name) := by
    intro hun
    rw [hscope, qual] at hun
    refine marked_suffix plain owner.gate fun hin => hun (hin.trans ⟨[], below after ++
      ("::".toList ++ d.name), ?_⟩)
    simp only [nil_append, append_assoc]
  have hown : (file.emitted d).qualifiedName = qual (file.emitted d).scope d.name := by
    rw [emitted, Definition.node, twinQn,
      if_neg fun htwin => hmarked (unmarked_of_twins d.label _ htwin)]
  refine ⟨below after ++ "::".toList ++ d.name, hplain, (hspelled.owners owner howner).gate.balanced,
    ?_, ?_, ?_, ?_, hown⟩
  · have hrest : Unmarked (plainScope [] after) := plainScope_unmarked (by decide)
      fun o ho => hspelled.owners o (hafter ho)
    rw [plainScope_eq, nil_append] at hrest
    exact hrest.join hspelled.name
  · exact append_ne_nil_of_left_ne_nil (append_ne_nil_of_right_ne_nil _ (by decide)) _
  · rw [plainPath, Definition.plainPath, hpath, qual]
    simp only [append_assoc]
  · rw [hown, emitted, Definition.node, hscope, qual]
    simp only [append_assoc]

theorem parseWithSpec_eq (file : RustFile) :
    parseWithSpec file = file.definitions.map file.emitted := by
  have hsecond : walkDefs file.twins file = file.definitions.map file.emitted := walkDefs_eq file
  rw [parseWithSpec]
  split
  · exact hsecond
  · next hnone =>
    have htwins : file.twins = .empty := by
      funext label qn
      refine Option.not_isSome_iff_eq_none.mp fun hsome => hnone ?_
      obtain ⟨node, hnode, -, -, rfl, -, rfl, -⟩ := twinKeys_isSome.mp hsome
      exact any_eq_true.mpr ⟨node, hnode, hsome⟩
    rw [← hsecond, htwins]

/-- The definitions of a file, each with the node that is emitted for it. -/
def emissions (file : RustFile) : List (Definition × Node) :=
  file.definitions.zip (parseWithSpec file)

theorem mem_emissions {node : Node} :
    (d, node) ∈ file.emissions ↔ d ∈ file.definitions ∧ node = file.emitted d := by
  have hzip : file.emissions = file.definitions.map fun d => (d, file.emitted d) := by
    have h := zip_map' (f := id) (g := file.emitted) (l := file.definitions)
    rw [map_id] at h
    rw [emissions, parseWithSpec_eq]
    exact h
  simp only [hzip, mem_map, Prod.mk.injEq]
  constructor
  · rintro ⟨d', hd', rfl, rfl⟩
    exact ⟨hd', rfl⟩
  · rintro ⟨hd, rfl⟩
    exact ⟨d, hd, rfl, rfl⟩

/-- Twins are told apart, a definition that is none has no gate of its own, and without the gates
every name is a path. -/
structure TwinIdentity (file : RustFile) : Prop where
  all : (parseWithSpec file).length = file.definitions.length
  distinct : ∀ d node d' node', (d, node) ∈ file.emissions → (d', node') ∈ file.emissions →
    node.label = node'.label → d.gate ≠ d'.gate → node.qualifiedName ≠ node'.qualifiedName
  plain : ∀ d node, (d, node) ∈ file.emissions →
    (∀ d' ∈ file.definitions, d'.label = d.label → file.plainPath d' = file.plainPath d →
      d'.gate = d.gate) →
    node.qualifiedName = qual node.scope d.name
  stripped : ∀ d node, (d, node) ∈ file.emissions →
    stripCfgGates node.qualifiedName = file.plainPath d

theorem stripped_emitted (hd : d ∈ file.definitions) :
    stripCfgGates (file.emitted d).qualifiedName = file.plainPath d := by
  have hspelled := file.spelled hd
  cases howner : file.renamedOwner d with
  | none =>
      have hplain : Unmarked (file.plainPath d) :=
        (plainScope_unmarked file.path.unmarked hspelled.owners).join hspelled.name
      rw [emitted_none howner]
      split
      · have hstrip := stripCfgGates_suffix hplain hspelled.gate.balanced (by decide : Unmarked [])
        rwa [append_nil, append_nil] at hstrip
      · exact stripCfgGates_unmarked hplain
  | some owner =>
      obtain ⟨rest, hbelow⟩ := emitted_some hd howner
      rw [hbelow.qualifiedName, hbelow.path]
      exact stripCfgGates_suffix hbelow.unmarked_plain hbelow.balanced hbelow.unmarked_rest

theorem renamedOwner_eq {d' : Definition} (hd : d ∈ file.definitions) (hd' : d' ∈ file.definitions)
    (hlabel : d.label = d'.label) (hgate : d.gate ≠ d'.gate)
    (hqn : (file.emitted d).qualifiedName = (file.emitted d').qualifiedName) :
    ∃ owner, file.renamedOwner d = some owner ∧ file.renamedOwner d' = some owner := by
  have hpath : file.plainPath d = file.plainPath d' := by
    rw [← stripped_emitted hd, hqn, stripped_emitted hd']
  have htwin : (file.twins d.label (file.plainPath d)).isSome :=
    twins_isSome.mpr ⟨d, hd, d', hd', rfl, hlabel.symm, rfl, hpath.symm, hgate⟩
  have hunmarked := unmarked_of_twins _ _ htwin
  have hbalanced := (file.spelled hd).gate.balanced
  have hbalanced' := (file.spelled hd').gate.balanced
  -- Above, a twin has its own gate at the end; below, no name ends in a gate.
  have hself : ∀ {e : Definition}, e.label = d.label → file.plainPath e = file.plainPath d →
      file.renamedOwner e = none →
      (file.emitted e).qualifiedName = file.plainPath d ++ twinSuffix e.gate ++ [] := by
    intro e helabel hepath hnone
    rw [emitted_none hnone, helabel, hepath, if_pos htwin, append_nil]
  cases howner : file.renamedOwner d with
  | none =>
      cases howner' : file.renamedOwner d' with
      | none =>
          rw [hself rfl rfl howner, hself hlabel.symm hpath.symm howner'] at hqn
          exact absurd (suffix_inj hunmarked hunmarked hbalanced hbalanced' hqn).2.1 hgate
      | some owner' =>
          obtain ⟨rest, hbelow⟩ := emitted_some hd' howner'
          rw [hself rfl rfl howner, hbelow.qualifiedName] at hqn
          have hsplit := suffix_inj hunmarked hbelow.unmarked_plain hbalanced hbelow.balanced hqn
          exact absurd hsplit.2.2.symm hbelow.rest_ne
  | some owner =>
      obtain ⟨rest, hbelow⟩ := emitted_some hd howner
      cases howner' : file.renamedOwner d' with
      | none =>
          rw [hself hlabel.symm hpath.symm howner', hbelow.qualifiedName] at hqn
          have hsplit := suffix_inj hbelow.unmarked_plain hunmarked hbelow.balanced hbalanced' hqn
          exact absurd hsplit.2.2 hbelow.rest_ne
      | some owner' =>
          obtain ⟨rest', hbelow'⟩ := emitted_some hd' howner'
          rw [hbelow.qualifiedName, hbelow'.qualifiedName] at hqn
          obtain ⟨hplain, hsame, -⟩ := suffix_inj hbelow.unmarked_plain hbelow'.unmarked_plain
            hbelow.balanced hbelow'.balanced hqn
          exact ⟨owner, rfl, congrArg some (Prod.ext hplain.symm hsame.symm)⟩

end RustFile

/-- Twins are told apart but below one owner that is itself a twin. -/
theorem twinIdentity_iff (file : RustFile) : file.TwinIdentity ↔
    ∀ d ∈ file.definitions, ∀ d' ∈ file.definitions, d.label = d'.label →
      file.plainPath d = file.plainPath d' → d.gate ≠ d'.gate →
      ∀ owner, file.renamedOwner d = some owner → file.renamedOwner d' ≠ some owner := by
  constructor
  · intro h d hd d' hd' hlabel hpath hgate ⟨plain, gate⟩ howner howner'
    obtain ⟨rest, hbelow⟩ := RustFile.emitted_some hd howner
    obtain ⟨rest', hbelow'⟩ := RustFile.emitted_some hd' howner'
    rw [hbelow.path, hbelow'.path] at hpath
    obtain rfl : rest = rest' := append_cancel_left hpath
    refine h.distinct d _ d' _ (RustFile.mem_emissions.mpr ⟨hd, rfl⟩)
      (RustFile.mem_emissions.mpr ⟨hd', rfl⟩) hlabel hgate ?_
    rw [hbelow.qualifiedName, hbelow'.qualifiedName]
  · intro h
    refine ⟨?_, ?_, ?_, ?_⟩
    · rw [RustFile.parseWithSpec_eq, length_map]
    · intro d node d' node' hmem hmem' hlabel hgate hqn
      obtain ⟨hd, rfl⟩ := RustFile.mem_emissions.mp hmem
      obtain ⟨hd', rfl⟩ := RustFile.mem_emissions.mp hmem'
      obtain ⟨owner, howner, howner'⟩ := RustFile.renamedOwner_eq hd hd' hlabel hgate hqn
      have hpath : file.plainPath d = file.plainPath d' := by
        rw [← RustFile.stripped_emitted hd, hqn, RustFile.stripped_emitted hd']
      exact h d hd d' hd' hlabel hpath hgate owner howner howner'
    · intro d node hmem halone
      obtain ⟨hd, rfl⟩ := RustFile.mem_emissions.mp hmem
      cases howner : file.renamedOwner d with
      | none =>
          rw [RustFile.emitted_none howner, if_neg]
          · have hscope := (scopeOf_eq RustFile.unmarked_of_twins).1 howner
            rw [RustFile.emitted, Definition.node, hscope]
            rfl
          · intro htwin
            obtain ⟨a, ha, b, hb, halabel, hblabel, hapath, hbpath, hne⟩ := RustFile.twins_isSome.mp htwin
            exact hne ((halone a ha halabel hapath).trans (halone b hb hblabel hbpath).symm)
      | some owner =>
          obtain ⟨rest, hbelow⟩ := RustFile.emitted_some hd howner
          exact hbelow.own
    · intro d node hmem
      obtain ⟨hd, rfl⟩ := RustFile.mem_emissions.mp hmem
      exact RustFile.stripped_emitted hd

/-- Two functions `f` under `a` and `not(a)`, in the module that is there under `unix`. -/
def twinInTwin : RustFile where
  path := ⟨"src/lib.rs".toList, by decide⟩
  inner := []
  items :=
    [.mod ⟨"m".toList, by decide⟩ [.option "unix".toList none] []
        [.function ⟨"f".toList, by decide⟩ [.option "a".toList none],
          .function ⟨"f".toList, by decide⟩ [.not (.option "a".toList none)]],
      .mod ⟨"m".toList, by decide⟩ [.not (.option "unix".toList none)] [] []]

/-- The two functions get one name. -/
theorem twinInTwin_collides : ¬twinInTwin.TwinIdentity := by
  intro h
  have hlength : twinInTwin.emissions.length = 4 := by decide +kernel
  have hfirst : twinInTwin.emissions[1] ∈ twinInTwin.emissions := getElem_mem _
  have hsecond : twinInTwin.emissions[2] ∈ twinInTwin.emissions := getElem_mem _
  refine h.distinct _ _ _ _ hfirst hsecond ?_ ?_ ?_ <;> decide +kernel

end TwinWalk

end CodeGraph
