import CodeGraph.CfgVerdict

/-!
# Twin selection is sound

A selected twin is one every build that has the caller has, and every other
candidate is compiled out of those builds.

A file is in a build when the declarations on a way to it hold there; `present`
stands for that. The columns are sound for a profile (`TwinView.Sound`) when a
build that has a file satisfies the gate the file inherits, and when what they
call active or inactive is, in every build that matches the profile.
-/

namespace CodeGraph

/-- The columns say what they are documented to say, for `profile`. -/
structure TwinView.Sound (view : TwinView) (profile : BuildProfile)
    (present : Build → Text → Prop) : Prop where
  active : ∀ id, view.active id = some .active →
    ∀ build : Build, build.Matches profile → build.GatesHold id
  inactive : ∀ id, view.active id = some .inactive → ∀ build : Build, build.Matches profile →
    build.GatesFail id ∨ ∃ file, extractFilePrefix id = some file ∧ ¬ present build file
  gate : ∀ file facts, view.files file = some facts → facts.gate ≠ [] →
    ∀ p, CfgPredicate.parseCompact facts.gate = some p →
      ∀ build : Build, present build file → build.Holds p
  fileInactive : ∀ file facts, view.files file = some facts → facts.active = .inactive →
    ∀ build : Build, build.Matches profile → ¬ present build file

/-- Some gate of the id is false in the build, or its file is not in it. -/
def CompiledOut (present : Build → Text → Prop) (build : Build) (id : Text) : Prop :=
  build.GatesFail id ∨ ∃ file, extractFilePrefix id = some file ∧ ¬ present build file

/-- The build satisfies every gate the caller holds: those in its id and the
one of its file. -/
def HasCaller (view : TwinView) (build : Build) (caller : Text) : Prop :=
  (∀ gate ∈ cfgGatesIn caller, ∀ p, CfgPredicate.parseCompact gate = some p → build.Holds p) ∧
    ∀ p, view.FileGate caller p → build.Holds p

section Soundness

variable {view : TwinView} {profile : BuildProfile} {present : Build → Text → Prop}
  {build : Build}

theorem holds_of_mem_held {caller : Text} (h : HasCaller view build caller) :
    ∀ c ∈ (callerGates view caller).held, build.Holds c := by
  intro c hc
  unfold callerGates at hc
  cases hcs : conjunctsInFile view caller with
  | none => simp [hcs] at hc
  | some cs =>
      rw [hcs, Option.getD_some] at hc
      obtain ⟨gate, hgate, p, hp, hcp⟩ | ⟨p, hp, hcp⟩ := ((mem_conjunctsInFile hcs).2 c).mp hc
      · exact holds_gateParts.mpr (h.1 gate hgate p hp) c hcp
      · exact holds_gateParts.mpr (h.2 p hp) c hcp

theorem file_eq_some {id : Text} {facts : FileCfg} (h : view.file id = some facts) :
    ∃ file, extractFilePrefix id = some file ∧ view.files file = some facts :=
  Option.bind_eq_some_iff.mp h

/-- The caller's gates decide: what they compile holds, what they rule out is
compiled out. -/
theorem syntacticVerdict_sound (hview : view.Sound profile present) {held : List CfgPredicate}
    (hheld : ∀ c ∈ held, build.Holds c) (id : Text) :
    (syntacticVerdict view held id = some .compiled → build.GatesHold id) ∧
      (syntacticVerdict view held id = some .notCompiled → CompiledOut present build id) := by
  unfold syntacticVerdict
  cases hcs : conjunctsInFile view id with
  | none => exact ⟨nofun, nofun⟩
  | some cs =>
      obtain ⟨hparse, hmem⟩ := mem_conjunctsInFile hcs
      dsimp only
      refine ⟨fun hv gate hgate => ?_, fun hv => ?_⟩
      · have hsub : ∀ c ∈ cs, c ∈ held := by
          split at hv
          · next h => exact h.2
          · split at hv <;> cases hv
        obtain ⟨p, hp⟩ := hparse gate hgate
        refine ⟨p, hp, holds_gateParts.mp fun c hc => hheld c (hsub c ?_)⟩
        exact (hmem c).mpr (Or.inl ⟨gate, hgate, p, hp, hc⟩)
      · obtain ⟨c, hc, hneg⟩ : ∃ c ∈ cs, negation c ∈ held := by
          split at hv
          · cases hv
          · split at hv
            · assumption
            · cases hv
        have hfalse : ¬ build.Holds c := holds_negation (hheld _ hneg)
        rcases (hmem c).mp hc with ⟨gate, hgate, p, hp, hcp⟩ | ⟨p, ⟨facts, hfile, hne, hp⟩, hcp⟩
        · exact Or.inl ⟨gate, hgate, p, hp, fun h => hfalse (holds_gateParts.mpr h c hcp)⟩
        · obtain ⟨file, hprefix, hfacts⟩ := file_eq_some hfile
          refine Or.inr ⟨file, hprefix, fun hpresent => hfalse ?_⟩
          exact holds_gateParts.mpr (hview.gate file facts hfacts hne p hp build hpresent) c hcp

theorem columnVerdict_sound (hview : view.Sound profile present) (hb : build.Matches profile)
    (id : Text) :
    (columnVerdict view id id = .compiled → build.GatesHold id) ∧
      (columnVerdict view id id = .notCompiled → CompiledOut present build id) := by
  unfold columnVerdict
  dsimp only
  split
  · next hinactive =>
    refine ⟨nofun, fun _ => Or.inr ?_⟩
    obtain ⟨facts, hfile, hactive⟩ := Option.map_eq_some_iff.mp hinactive
    obtain ⟨file, hprefix, hfacts⟩ := file_eq_some hfile
    exact ⟨file, hprefix, hview.fileInactive file facts hfacts hactive build hb⟩
  · split
    · next hactive => exact ⟨fun _ => hview.active id hactive build hb, nofun⟩
    · next hinactive => exact ⟨nofun, fun _ => hview.inactive id hinactive build hb⟩
    · split
      · next h =>
        refine ⟨fun _ gate hgate => ?_, nofun⟩
        rw [h.2] at hgate
        cases hgate
      · exact ⟨nofun, nofun⟩

theorem verdict_sound (hview : view.Sound profile present) (hb : build.Matches profile)
    {caller : Text} (hcaller : HasCaller view build caller) (id : Text) :
    (verdict view (callerGates view caller) id id = .compiled → build.GatesHold id) ∧
      (verdict view (callerGates view caller) id id = .notCompiled →
        CompiledOut present build id) := by
  have hsyntactic := syntacticVerdict_sound hview (holds_of_mem_held hcaller) id
  unfold verdict
  cases hv : syntacticVerdict view (callerGates view caller).held id with
  | some v => exact ⟨fun h => hsyntactic.1 (h ▸ hv), fun h => hsyntactic.2 (h ▸ hv)⟩
  | none =>
      dsimp only
      split
      · exact ⟨nofun, nofun⟩
      · exact columnVerdict_sound hview hb id

end Soundness

/-! ## The choice -/

/-- What a selection says: one candidate is compiled and all the others, by
position, are ruled out. -/
theorem select_eq_some {view : TwinView} {callerQn : Text} {twins : List SymbolEntry}
    {t : SymbolEntry} (h : select view callerQn twins = some t) :
    verdict view (callerGates view callerQn) t.id t.qualifiedName = .compiled ∧
      ∃ pre post, twins = pre ++ t :: post ∧ ∀ c ∈ pre ++ post,
        verdict view (callerGates view callerQn) c.id c.qualifiedName = .notCompiled := by
  unfold select at h
  dsimp only at h
  split at h
  · next twin hfilter =>
    split at h
    · next hcompiled =>
      cases h
      refine ⟨hcompiled, ?_⟩
      obtain ⟨pre, post, rfl, hpre, -, hpost⟩ := List.filter_eq_cons_iff.mp hfilter
      refine ⟨pre, post, rfl, fun c hc => ?_⟩
      rcases List.mem_append.mp hc with hc | hc
      · simpa using hpre c hc
      · simpa using List.filter_eq_nil_iff.mp hpost c hc
    · cases h
  · cases h

theorem select_perm (view : TwinView) (callerQn : Text) {twins twins' : List SymbolEntry}
    (h : twins.Perm twins') : select view callerQn twins = select view callerQn twins' := by
  have hfilter := h.filter fun t =>
    decide (verdict view (callerGates view callerQn) t.id t.qualifiedName ≠ .notCompiled)
  unfold select
  dsimp only
  generalize hl : twins.filter _ = l at hfilter
  generalize hl' : twins'.filter _ = l' at hfilter
  match l, l', hfilter with
  | [t], l', hfilter => rw [List.singleton_perm.mp hfilter]
  | l, [t], hfilter => rw [List.perm_singleton.mp hfilter]
  | [], [], _ => rfl
  | [], _ :: _ :: _, _ => rfl
  | _ :: _ :: _, [], _ => rfl
  | _ :: _ :: _, _ :: _ :: _, _ => rfl

theorem areTwinsOfOneItem_iff {view : TwinView} {cs : List SymbolEntry} :
    areTwinsOfOneItem view cs = true ↔ 2 ≤ cs.length ∧ (∀ c ∈ cs, isGated view c = true) ∧
      ∀ c ∈ cs, ∀ d ∈ cs, c.label = d.label ∧ twinName view c = twinName view d := by
  match cs with
  | [] => simp [areTwinsOfOneItem]
  | [_] => simp [areTwinsOfOneItem]
  | first :: second :: rest =>
      show ((first :: second :: rest).all fun c => c.label = first.label &&
        isGated view c && twinName view c = twinName view first) = true ↔ _
      rw [List.all_eq_true]
      simp only [Bool.and_eq_true, decide_eq_true_eq]
      constructor
      · intro h
        refine ⟨by simp, fun c hc => (h c hc).1.2, fun c hc d hd => ⟨?_, ?_⟩⟩
        · rw [(h c hc).1.1, (h d hd).1.1]
        · rw [(h c hc).2, (h d hd).2]
      · rintro ⟨-, hgated, hsame⟩ c hc
        obtain ⟨hlabel, hname⟩ := hsame c hc first List.mem_cons_self
        exact ⟨⟨hlabel, hgated c hc⟩, hname⟩

theorem choose_perm (view : TwinView) (callerQn : Text) {cs cs' : List SymbolEntry}
    (h : cs.Perm cs') : choose view callerQn cs = choose view callerQn cs' := by
  have htwins : areTwinsOfOneItem view cs = areTwinsOfOneItem view cs' := by
    rw [Bool.eq_iff_iff, areTwinsOfOneItem_iff, areTwinsOfOneItem_iff, h.length_eq]
    simp only [h.mem_iff]
  rw [choose, choose, htwins, select_perm view callerQn h]

theorem select_of_choose {view : TwinView} {callerQn : Text} {cs : List SymbolEntry}
    {t : SymbolEntry} (h : choose view callerQn cs = some t) : select view callerQn cs = some t := by
  unfold choose at h
  split at h
  · exact h
  · cases h

/-- A twin that `select` or `choose` returns is in every build that has the
caller, and every other candidate is compiled out of it; the order of the
candidates does not matter. -/
theorem twin_selection_sound {view : TwinView} {profile : BuildProfile}
    {present : Build → Text → Prop} (hview : view.Sound profile present) (callerQn : Text)
    (twins : List SymbolEntry) :
    (∀ t, select view callerQn twins = some t ∨ choose view callerQn twins = some t →
      ∃ pre post, twins = pre ++ t :: post ∧
        ∀ build : Build, build.Matches profile → HasCaller view build callerQn →
          build.GatesHold t.id ∧ ∀ c ∈ pre ++ post, CompiledOut present build c.id) ∧
    ∀ twins', twins.Perm twins' → select view callerQn twins = select view callerQn twins' ∧
      choose view callerQn twins = choose view callerQn twins' := by
  refine ⟨fun t ht => ?_, fun twins' h => ⟨select_perm view callerQn h, choose_perm view callerQn h⟩⟩
  have hselect : select view callerQn twins = some t := ht.elim id select_of_choose
  obtain ⟨hcompiled, pre, post, htwins, hothers⟩ := select_eq_some hselect
  refine ⟨pre, post, htwins, fun build hb hcaller => ⟨?_, fun c hc => ?_⟩⟩
  · rw [t.same] at hcompiled
    exact (verdict_sound hview hb hcaller t.id).1 hcompiled
  · have hnot := hothers c hc
    rw [c.same] at hnot
    exact (verdict_sound hview hb hcaller c.id).2 hnot

/-- The twins `#cfg(feature=fast)` and `#cfg(not(feature=fast))` of a package
whose default features are empty: the second is selected. -/
theorem twin_selection_sound_fast :
    let fast : SymbolEntry := ⟨"src/lib.rs::f#cfg(feature=fast)".toList, [], _, rfl⟩
    let slow : SymbolEntry := ⟨"src/lib.rs::f#cfg(not(feature=fast))".toList, [], _, rfl⟩
    let view : TwinView :=
      { active := fun id =>
          if id = slow.id then some .active else if id = fast.id then some .inactive else none
        files := fun _ => none
        gatedCallers := fun _ => false }
    ∃ pre post, [fast, slow] = pre ++ slow :: post ∧
      ∀ build : Build, build.Matches (.withFeatures ∅) →
        HasCaller view build "src/lib.rs::g".toList →
          build.GatesHold slow.id ∧
            ∀ c ∈ pre ++ post, CompiledOut (fun _ _ => True) build c.id := by
  intro fast slow view
  have hfast : ∀ build : Build, build.Matches (.withFeatures ∅) →
      ¬ build.Holds (.feature "fast".toList) := by
    intro build hb
    rw [Build.Holds, Build.holds, hb.features]
    simp [BuildProfile.withFeatures]
  have hslowGates : cfgGatesIn slow.id = ["not(feature=fast)".toList] := by decide +kernel
  have hfastGates : cfgGatesIn fast.id = ["feature=fast".toList] := by decide +kernel
  have hslowParse : CfgPredicate.parseCompact "not(feature=fast)".toList =
      some (.not (.feature "fast".toList)) := by decide +kernel
  have hfastParse : CfgPredicate.parseCompact "feature=fast".toList =
      some (.feature "fast".toList) := by decide +kernel
  have hne : fast.id ≠ slow.id := by decide +kernel
  have hview : view.Sound (.withFeatures ∅) fun _ _ => True := by
    refine ⟨fun id hid build hb => ?_, fun id hid build hb => Or.inl ?_,
      fun _ _ h => (by cases h), fun _ _ h => (by cases h)⟩
    · have hid : id = slow.id := by
        simp only [view] at hid
        split_ifs at hid <;> simp_all
      intro gate hgate
      rw [hid, hslowGates, List.mem_singleton] at hgate
      exact ⟨_, hgate ▸ hslowParse, Build.holds_not.mpr (hfast build hb)⟩
    · have hid : id = fast.id := by
        simp only [view] at hid
        split_ifs at hid <;> simp_all
      exact ⟨_, by rw [hid, hfastGates, List.mem_singleton], _, hfastParse, hfast build hb⟩
  refine (twin_selection_sound hview "src/lib.rs::g".toList [fast, slow]).1 slow (Or.inl ?_)
  decide +kernel

end CodeGraph
