import CodeGraph.DocCounts

/-!
# When a count is never refuted wrongly

An item that is found again by its line is the first of its kind on the line. Where that is
the item itself, and its attributes are read whole, what it says of itself holds in the build:
a function in the floor is run (`runs_of_credited`). So the answers are right just when, in
every build, the functions in the floor that another item or an unread attribute speaks for
and that do not run are outnumbered by those that run outside the floor (`counts_exact`).
-/

namespace CodeGraph

open List

namespace DocCounts

open ItemGates

variable {cc : CharClass} {cb : CodeBase} {h : Harness} {f : IndexedFile} {n : Item} {b : Build}

/-! ## Found by the line -/

def OnItsLine (cc : CharClass) (f : IndexedFile) (n : Item) : Prop :=
  (functionGates cc f.root).find? (fun g => g.line = n.node.line) = some (functionGate cc n)

instance : Decidable (OnItsLine cc f n) := inferInstanceAs (Decidable (_ = _))

instance (a : Attribute) : Decidable (a.ReadRight cc) :=
  decidable_of_iff (a.cfgOf.isNone = true → a.addsCfg cc = a.listsCfg) <| by
    rw [Option.isNone_iff_eq_none]
    rfl

instance : Decidable (ReadWhole cc n) :=
  decidable_of_iff ((∀ a ∈ n.node.inner, a.listsCfg = false) ∧
      (∀ m ∈ n.ancestors, ∀ a ∈ (Item.node m).attributes, a.ReadRight cc) ∧
      ∀ m ∈ n.around, ∀ a ∈ m.node.inner, a.ReadRight cc)
    ⟨fun ⟨inner, outer, around⟩ => ⟨inner, outer, around⟩, fun h => ⟨h.inner, h.outer, h.around⟩⟩

/-- The function is in the floor. -/
def credited (cc : CharClass) (cb : CodeBase) (h : Harness) (f : IndexedFile) (n : Item) : Bool :=
  isVisited n && n.node.name ≠ [] && f.isHeld n && entryKind n = some h.entryKind &&
    (rowVerdict cc cb h (f.row n)).isNone

/-- Something else speaks for the function: the first function on its line, or not all of
its attributes. -/
def Misled (cc : CharClass) (f : IndexedFile) (n : Item) : Prop :=
  ¬OnItsLine cc f n ∨ ¬ReadWhole cc n

instance : Decidable (Misled cc f n) := inferInstanceAs (Decidable (_ ∨ _))

/-- In every build of the harness no more functions are in the floor and not run, each of them
misled, than are run and not in the floor. -/
def EntriesCovered (cc : CharClass) (cb : CodeBase) (h : Harness) (subject : Text) : Prop :=
  cb.queryError = none → ∀ b : Build, b.bare h.option = true →
    countFunctions cb (fun f n =>
        claimed cc subject f n && credited cc cb h f n && !runs h b f n && Misled cc f n) ≤
      countFunctions cb (fun f n =>
        claimed cc subject f n && runs h b f n && !credited cc cb h f n)

/-- No build of the enum leaves out more variants than are gated in the first enum of as many
variants on its line. -/
def VariantsCovered (cc : CharClass) (cb : CodeBase) (subject : Text) : Prop :=
  ∀ f n, singleEnum cc cb subject = .ok (.rust f n) → f.unread.isNone → ∀ s,
    (enumShapes cc f.root).find? (fun s => s.line = n.node.line) = some s →
      s.variants = n.node.variants.length →
        ∀ b : Build, EnumRow.compiledIn b (.rust f n) = true →
          n.node.variants.length - n.variantsIn b ≤ s.gatedVariants

theorem find?_path {files : List IndexedFile} (hdistinct : (files.map IndexedFile.path).Nodup)
    (hf : f ∈ files) : files.find? (fun g => g.path = f.path) = some f := by
  induction files with
  | nil => cases hf
  | cons g files ih =>
      rw [map_cons, nodup_cons] at hdistinct
      rcases mem_cons.mp hf with rfl | hf
      · exact find?_cons_of_pos (decide_eq_true rfl)
      · rw [find?_cons_of_neg, ih hdistinct.2 hf]
        rw [decide_eq_true_eq]
        exact fun heq => hdistinct.1 (heq ▸ mem_map_of_mem hf)

theorem fileOf_inFile (name : Text) : fileOf (inFile f.path name) = f.path := by
  rw [fileOf, breakOn_scope f.plain.unscoped]

/-! ## In the floor -/

theorem Harness.option_plain (h : Harness) :
    CfgPredicate.encode h.option = h.option ∧ h.option ≠ [] ∧ FileScope.unparsedGate ≠ h.option := by
  cases h <;> decide

theorem compiledGates_ok {gates : List FunctionGate} (hok : f.compiledGates cc h = .ok gates) :
    f.targetContext ∈ h.contexts ∧ gates = functionGates cc f.root ∧
      (FileScope.gateText f.gates = [] ∨ FileScope.gateText f.gates = h.option) := by
  rw [IndexedFile.compiledGates] at hok
  split at hok
  next => cases hok
  next hcontext =>
    split at hok
    next => cases hok
    next hgate =>
      split at hok
      next => cases hok
      next => cases hok
      next =>
        cases hok
        exact ⟨not_not.mp hcontext, rfl, or_iff_not_imp_left.mpr fun hne =>
          not_not.mp fun hother => hgate ⟨hne, hother⟩⟩

theorem compiled_of_gate (hgate : FileScope.gateText f.gates = [] ∨
      FileScope.gateText f.gates = h.option) (hb : b.bare h.option = true) :
    f.compiled b = true := by
  obtain ⟨hplain, hne, hunparsed⟩ := h.option_plain
  cases hgates : f.gates with
  | none =>
      rw [hgates] at hgate
      rcases hgate with hgate | hgate
      · exact absurd hgate (by decide)
      · exact absurd hgate hunparsed
  | some ps =>
      have htext : FileScope.gateText (some ps) = effectiveGate ps := by
        cases ps with
        | nil => rfl
        | cons p ps => exact (if_neg (cons_ne_nil p ps)).symm
      rw [hgates, htext] at hgate
      exact (f.agrees ps hgates b).mpr
        (holds_of_gate (f.wellFormed ps hgates) hplain hne hgate hb)

theorem functionVerdict_none {gates : List FunctionGate} {line : ℕ}
    (hnone : functionVerdict gates line h = none) {g : FunctionGate}
    (hg : gates.find? (fun g => g.line = line) = some g) :
    g.cfgAttr = false ∧ (g.gate = [] ∨ g.gate = h.option) := by
  rw [functionVerdict, hg] at hnone
  dsimp only at hnone
  split at hnone
  next => cases hnone
  next =>
    split at hnone
    next => cases hnone
    next hattr =>
      split at hnone
      next => cases hnone
      next hgate =>
        exact ⟨Bool.not_eq_true _ ▸ hattr, or_iff_not_imp_left.mpr fun hne =>
          not_not.mp fun hother => hgate ⟨hne, hother⟩⟩

theorem rowVerdict_none (hf : f ∈ cb.files) (hnone : rowVerdict cc cb h (f.row n) = none) :
    ∃ gates, f.compiledGates cc h = .ok gates ∧ functionVerdict gates n.node.line h = none := by
  rw [rowVerdict, IndexedFile.row, fileOf_inFile, fileGates, find?_path cb.distinct hf] at hnone
  dsimp only at hnone
  split at hnone
  next => cases hnone
  next gates hok =>
    refine ⟨gates, ?_, hnone⟩
    split at hok
    · cases hok
    · split at hok
      · cases hok
      · exact hok

theorem runs_of_credited (hf : f ∈ cb.files) (hn : n ∈ items f.root .function)
    (hcredited : credited cc cb h f n = true) (hmisled : ¬Misled cc f n)
    (hb : b.bare h.option = true) : runs h b f n = true := by
  obtain ⟨hline, hwhole⟩ := not_or.mp hmisled
  simp only [credited, Bool.and_eq_true, decide_eq_true_eq] at hcredited
  obtain ⟨⟨⟨⟨hvisited, -⟩, -⟩, hkind⟩, hverdict⟩ := hcredited
  obtain ⟨gates, hok, hnone⟩ := rowVerdict_none hf (Option.isNone_iff_eq_none.mp hverdict)
  obtain ⟨hcontext, rfl, hfile⟩ := compiledGates_ok hok
  obtain ⟨hattr, hgate⟩ := functionVerdict_none hnone (not_not.mp hline)
  obtain ⟨hplain, hne, -⟩ := h.option_plain
  have hroot : n.root.Every Unheaded := by
    rw [root_of_mem_items hn]
    exact f.unheaded
  have hcompiled : n.compiledIn b = true :=
    compiledIn_of_read hroot hvisited (not_not.mp hwhole)
      (holds_of_gate wellFormed_gatePredicates hplain hne hgate hb) hattr
  have hcollected := collected_of_visited (of_decide_eq_true (mem_filter.mp hn).2) hvisited
  simp only [runs, Bool.and_eq_true, decide_eq_true_eq]
  exact ⟨⟨⟨⟨hcontext, compiled_of_gate hfile hb⟩, hcollected⟩, hcompiled⟩,
    marks_of_entryKind hkind b⟩

/-! ## Counting -/

theorem countFunctions_congr {p q : IndexedFile → Item → Bool}
    (hpq : ∀ f ∈ cb.files, ∀ n ∈ items f.root .function, p f n = q f n) :
    countFunctions cb p = countFunctions cb q := by
  rw [countFunctions, countFunctions]
  congr 1
  refine map_congr_left fun f hf => countP_congr fun n hn => ?_
  rw [hpq f hf n hn]

theorem countFunctions_split (p q : IndexedFile → Item → Bool) :
    countFunctions cb p = countFunctions cb (fun f n => p f n && q f n) +
      countFunctions cb (fun f n => p f n && !q f n) := by
  rw [countFunctions, countFunctions, countFunctions, ← sum_map_add]
  congr 1
  refine map_congr_left fun f _ => ?_
  rw [countP_eq_countP_filter_add _ (p f) (q f), countP_filter, countP_filter]

theorem countFunctions_le_iff (p q : IndexedFile → Item → Bool) :
    countFunctions cb p ≤ countFunctions cb q ↔
      countFunctions cb (fun f n => p f n && !q f n) ≤
        countFunctions cb (fun f n => q f n && !p f n) := by
  have hboth : countFunctions cb (fun f n => q f n && p f n) =
      countFunctions cb (fun f n => p f n && q f n) :=
    countFunctions_congr fun _ _ _ _ => Bool.and_comm _ _
  rw [countFunctions_split p q, countFunctions_split q p, hboth]
  omega

theorem compiledFloor_eq (subject : Text) :
    compiledFloor cc cb h (claimedRows cc cb h subject) =
      countFunctions cb fun f n => claimed cc subject f n && credited cc cb h f n := by
  rw [compiledFloor, claimedRows, countP_filter, countP_flatMap, countFunctions]
  congr 1
  refine map_congr_left fun f _ => ?_
  rw [Function.comp_apply, IndexedFile.entryRows, countP_map, countP_filter,
    definedFunctions_eq, countP_filter]
  refine countP_congr fun n _ => ?_
  simp only [Function.comp_apply, claimed, credited, Bool.and_eq_true, decide_eq_true_eq]
  tauto

variable {expected : Expected} {declared : ℕ}

theorem countVerdict_contradicted {floor : ℕ}
    (hverdict : (countVerdict expected declared floor).verdict = .contradicted) :
    ∃ n, expected = .exact n ∧ n < floor := by
  cases expected with
  | exact n =>
      refine ⟨n, rfl, not_le.mp fun hle => ?_⟩
      rw [countVerdict] at hverdict
      dsimp only at hverdict
      rw [if_neg (not_lt.mpr hle)] at hverdict
      split_ifs at hverdict <;> cases hverdict
  | atLeast n =>
      rw [countVerdict] at hverdict
      dsimp only at hverdict
      split_ifs at hverdict <;> cases hverdict

theorem countVerdict_atLeast {n floor : ℕ} :
    (countVerdict (.atLeast n) declared floor).verdict = .supported ↔ n ≤ floor := by
  rw [countVerdict]
  dsimp only
  split_ifs with hle hmore
  · exact iff_of_true rfl hle
  · exact iff_of_false nofun hle
  · exact iff_of_false nofun hle

theorem countRight_iff (subject : Text) :
    (∀ expected, CountRight (entryOutcome cc cb h subject expected) expected h.option
        (runCount cc cb h subject)) ↔
      (cb.queryError = none → ∀ b : Build, b.bare h.option = true →
        compiledFloor cc cb h (claimedRows cc cb h subject) ≤ runCount cc cb h subject b) := by
  cases herror : cb.queryError with
  | some e =>
      refine iff_of_true (fun expected => ?_) nofun
      rw [entryOutcome, herror]
      exact ⟨nofun, nofun⟩
  | none =>
      have houtcome : ∀ expected, entryOutcome cc cb h subject expected =
          countVerdict expected (claimedRows cc cb h subject).length
            (compiledFloor cc cb h (claimedRows cc cb h subject)) := fun expected => by
        rw [entryOutcome, herror]
      constructor
      · intro hright _ b hb
        refine (hright (.atLeast _)).supported ?_ _ rfl b hb
        rw [houtcome]
        exact countVerdict_atLeast.mpr le_rfl
      · intro hfloor expected
        rw [houtcome]
        constructor
        · intro hverdict
          obtain ⟨n, hn, hlt⟩ := countVerdict_contradicted hverdict
          exact ⟨n, hn, fun b hb => hlt.trans_le (hfloor rfl b hb)⟩
        · rintro hverdict n rfl b hb
          exact (countVerdict_atLeast.mp hverdict).trans (hfloor rfl b hb)

theorem entries_exact (subject : Text) :
    (∀ expected, CountRight (entryOutcome cc cb h subject expected) expected h.option
        (runCount cc cb h subject)) ↔ EntriesCovered cc cb h subject := by
  rw [countRight_iff, EntriesCovered]
  refine forall_congr' fun _ => forall₂_congr fun b hb => ?_
  rw [compiledFloor_eq, runCount, countFunctions_le_iff]
  refine iff_of_eq (congrArg₂ _ (countFunctions_congr fun f hf n hn => ?_)
    (countFunctions_congr fun f hf n hn => ?_))
  · -- what is in the floor and not run is misled
    have hmisled : credited cc cb h f n = true → runs h b f n = false →
        Misled cc f n := fun hcredited hruns =>
      not_not.mp fun hnot => Bool.false_ne_true
        (hruns.symm.trans (runs_of_credited hf hn hcredited hnot hb))
    cases hclaimed : claimed cc subject f n <;> cases hcredited : credited cc cb h f n <;>
      cases hruns : runs h b f n <;> simp [hmisled, hcredited, hruns]
  · cases claimed cc subject f n <;> cases credited cc cb h f n <;> cases runs h b f n <;> rfl

/-! ## Variants -/

variable {gated : ℕ}

theorem variantVerdict_contradicted {text : Text} (hsmall : declared < 2 ^ 64)
    (hverdict : (variantVerdict expected declared gated text).verdict = .contradicted) {count : ℕ}
    (hlow : declared - gated ≤ count) (hhigh : count ≤ declared) : ¬expected.Holds count := by
  cases expected with
  | exact n =>
      rw [variantVerdict] at hverdict
      rw [Expected.Holds]
      split_ifs at hverdict
      · omega
      all_goals cases hverdict
  | atLeast n =>
      rw [variantVerdict] at hverdict
      rw [Expected.Holds]
      split_ifs at hverdict
      · omega
      all_goals cases hverdict

theorem variantVerdict_supported {text : Text}
    (hverdict : (variantVerdict expected declared gated text).verdict = .supported) {count : ℕ}
    (hlow : declared - gated ≤ count) (hhigh : count ≤ declared) : expected.Holds count := by
  cases expected with
  | exact n =>
      rw [variantVerdict] at hverdict
      rw [Expected.Holds]
      split_ifs at hverdict with hout hcertain
      · have hgated := of_decide_eq_true hcertain
        omega
      · cases hverdict
  | atLeast n =>
      rw [variantVerdict] at hverdict
      rw [Expected.Holds]
      split_ifs at hverdict with hout hcertain
      · exact (of_decide_eq_true hcertain).trans hlow
      · cases hverdict

theorem variantVerdict_ungated (text : Text) (hsmall : declared < 2 ^ 64) :
    (variantVerdict (.atLeast (declared - gated)) declared gated text).verdict = .supported := by
  have hin : ¬(2 ^ 64 - 1 < declared - gated ∨ declared < declared - gated) := by omega
  rw [variantVerdict]
  rw [if_neg hin, if_pos (decide_eq_true le_rfl)]

variable {subject : Text}

theorem lookup_of_singleEnum {e : EnumRow}
    (hsingle : singleEnum cc cb subject = .ok e) : lookup cb subject = [e] ∧ e ∈ cb.enums := by
  rw [singleEnum] at hsingle
  split at hsingle
  next => cases hsingle
  next =>
    split at hsingle
    next => cases hsingle
    next =>
      split at hsingle
      next => cases hsingle
      next only honly =>
        cases hsingle
        exact ⟨honly, (mem_filter.mp (honly ▸ mem_singleton_self e :
          e ∈ lookup cb subject)).1⟩
      next => cases hsingle

theorem verdict_of_singleEnum {outcome : Outcome}
    (hsingle : singleEnum cc cb subject = .error outcome) :
    outcome.verdict = .notVerifiable ∨ outcome.verdict = .notFound := by
  rw [singleEnum] at hsingle
  split at hsingle
  next =>
    cases hsingle
    exact .inl rfl
  next =>
    split at hsingle
    next =>
      cases hsingle
      exact .inl rfl
    next =>
      split at hsingle
      next =>
        cases hsingle
        rw [absent]
        split
        · exact .inl rfl
        · exact .inr rfl
      next => cases hsingle
      next =>
        cases hsingle
        exact .inl rfl

variable (cc) in
theorem rustGatedVariants_ok (hf : f ∈ cb.files) :
    rustGatedVariants cc cb (EnumRow.id (.rust f n)) n.node.line n.node.variants.length = .ok gated ↔
      f.unread.isNone ∧ ∃ s, (enumShapes cc f.root).find? (fun s => s.line = n.node.line) = some s ∧
        s.variants = n.node.variants.length ∧ s.gatedVariants = gated := by
  rw [rustGatedVariants, EnumRow.id, fileOf_inFile]
  simp only [find?_path cb.distinct hf]
  split
  next why hunread => simp [hunread]
  next why hunread => simp [hunread]
  next hunread =>
    rw [hunread]
    split
    next hnone => simp [hnone]
    next s hs =>
      rw [hs]
      by_cases hvariants : s.variants = n.node.variants.length
      · simp [hvariants]
      · simp [hvariants]

theorem foreign_right {id name language : Text} {variants : ℕ}
    (hlookup : lookup cb subject = [.foreign id name language variants]) (expected : Expected) :
    VariantsRight cb subject (unreadLanguageVerdict expected variants language) expected := by
  constructor
  · intro hverdict
    cases expected with
    | exact n | atLeast n =>
        rw [unreadLanguageVerdict] at hverdict
        split_ifs at hverdict
        cases hverdict
  · intro hverdict
    refine ⟨_, hlookup, fun b _ => ?_⟩
    cases expected with
    | exact n =>
        rw [unreadLanguageVerdict] at hverdict
        split_ifs at hverdict with heq
        · exact heq.symm
        · cases hverdict
    | atLeast n =>
        rw [unreadLanguageVerdict] at hverdict
        split_ifs at hverdict with hle
        · exact hle
        · cases hverdict

theorem right_of_undecided {outcome : Outcome}
    (hverdict : outcome.verdict = .notVerifiable ∨ outcome.verdict = .notFound) :
    VariantsRight cb subject outcome expected := by
  constructor <;> intro heq <;> rw [heq] at hverdict <;> rcases hverdict with h | h <;> cases h

theorem variants_exact (subject : Text) :
    (∀ expected text, VariantsRight cb subject (variantOutcome cc cb subject expected text) expected) ↔
      VariantsCovered cc cb subject := by
  cases hsingle : singleEnum cc cb subject with
  | error outcome =>
      refine iff_of_true (fun expected text => ?_) fun f n h => by cases hsingle.symm.trans h
      rw [variantOutcome, hsingle]
      exact right_of_undecided (verdict_of_singleEnum hsingle)
  | ok e =>
      obtain ⟨hlookup, hmem⟩ := lookup_of_singleEnum hsingle
      cases e with
      | foreign id name language variants =>
          refine iff_of_true (fun expected text => ?_) fun f n h => by cases hsingle.symm.trans h
          have hother : EnumRow.language (.foreign id name language variants) ≠ "rust".toList :=
            cb.foreign _ _ _ _ hmem
          rw [variantOutcome, hsingle]
          dsimp only
          rw [if_pos hother]
          exact foreign_right hlookup expected
      | rust f n =>
          obtain ⟨hf, -⟩ := cb.read f n hmem
          have hsmall : n.node.variants.length < 2 ^ 64 := cb.small _ hmem
          have hhigh : ∀ b, n.variantsIn b ≤ n.node.variants.length := fun b =>
            countP_le_length
          have hread : ∀ {gated}, rustGatedVariants cc cb (EnumRow.id (.rust f n)) n.node.line
              n.node.variants.length = .ok gated → ∀ expected text,
                variantOutcome cc cb subject expected text =
                  variantVerdict expected n.node.variants.length gated text :=
            fun hok expected text => by
              rw [variantOutcome, hsingle]
              refine (if_neg (not_not.mpr rfl)).trans ?_
              rw [EnumRow.startLine, EnumRow.variants, hok]
          have hunread : ∀ {why}, rustGatedVariants cc cb (EnumRow.id (.rust f n)) n.node.line
              n.node.variants.length = .error why → ∀ expected text,
                variantOutcome cc cb subject expected text = .notVerifiable why :=
            fun herror expected text => by
              rw [variantOutcome, hsingle]
              refine (if_neg (not_not.mpr rfl)).trans ?_
              rw [EnumRow.startLine, EnumRow.variants, herror]
          constructor
          · intro hright f' n' hsingle' hunread s hs hvariants b hcompiled
            obtain ⟨rfl, rfl⟩ : f = f' ∧ n = n' := by
              cases hsingle.symm.trans hsingle'
              exact ⟨rfl, rfl⟩
            have hok := (rustGatedVariants_ok cc hf).mpr ⟨hunread, s, hs, hvariants, rfl⟩
            have hsupported :=
              (hright (.atLeast (n.node.variants.length - s.gatedVariants)) []).supported
            rw [hread hok] at hsupported
            obtain ⟨e, he, hall⟩ := hsupported (variantVerdict_ungated [] hsmall)
            obtain rfl : EnumRow.rust f n = e := singleton_injective (hlookup.symm.trans he)
            have hleast : n.node.variants.length - s.gatedVariants ≤ n.variantsIn b :=
              hall b hcompiled
            omega
          · intro hcovered expected text
            cases hok : rustGatedVariants cc cb (EnumRow.id (.rust f n)) n.node.line
                n.node.variants.length with
            | error why =>
                rw [hunread hok]
                exact right_of_undecided (.inl rfl)
            | ok gated =>
                rw [hread hok]
                obtain ⟨hunread, s, hs, hvariants, rfl⟩ := (rustGatedVariants_ok cc hf).mp hok
                have hlow : ∀ b, EnumRow.compiledIn b (.rust f n) = true →
                    n.node.variants.length - s.gatedVariants ≤ n.variantsIn b := fun b hb => by
                  have hle := hcovered f n hsingle hunread s hs hvariants b hb
                  omega
                exact ⟨fun hverdict => ⟨_, hlookup, fun b hb =>
                    variantVerdict_contradicted hsmall hverdict (hlow b hb) (hhigh b)⟩,
                  fun hverdict => ⟨_, hlookup, fun b hb =>
                    variantVerdict_supported hverdict (hlow b hb) (hhigh b)⟩⟩

/-! ## Both counts -/

/-- The answers on the entry points of a scope, and on the variants of an enum, are right to
every count just when no misled item makes the difference. -/
theorem counts_exact (cc : CharClass) (cb : CodeBase) :
    (∀ (h : Harness) (subject : Text), (∀ expected, CountRight
        (entryOutcome cc cb h subject expected) expected h.option (runCount cc cb h subject)) ↔
          EntriesCovered cc cb h subject) ∧
      ∀ subject : Text, (∀ expected text, VariantsRight cb subject
        (variantOutcome cc cb subject expected text) expected) ↔ VariantsCovered cc cb subject :=
  ⟨fun _ => entries_exact, variants_exact⟩

def testAttribute : Attribute := .other (some ["test".toList]) false

def featureX : Attribute := .cfg (.feature ['x']) (CfgPredicate.wellFormed_feature _)

/-- One line: `#[test] fn a() {} #[cfg(feature = "x")] #[test] fn b() {}`. -/
def oneLine : IndexedFile where
  path := "src/lib.rs".toList
  plain := by decide
  targetContext := "production".toList
  gates := some []
  wellFormed := CfgPredicate.wellFormed_of_nil
  compiled _ := true
  agrees _ hps _ := by
    obtain rfl := Option.some.inj hps
    exact iff_of_true rfl nofun
  root := ⟨{ kind := .sourceFile, line := 1 },
    .cons () { kind := .function, line := 1, name := ['a'], attributes := [testAttribute] } .nil
      (.cons () { kind := .function, line := 1, name := ['b'],
                  attributes := [testAttribute, featureX] } .nil .nil)⟩
  unheaded := ⟨fun _ => rfl, nofun, trivial, nofun, trivial, trivial⟩
  name n := n.node.name
  isHeld _ := true
  unread := none

def twoTests : CodeBase where
  files := [oneLine]
  distinct := nodup_singleton _
  enums := []
  read := nofun
  foreign := nofun
  small := nofun
  hasColumn _ := true
  queryError := none
  unverifiableReason _ := none

/-- A build of the tests without the feature runs one, and "1" is contradicted. -/
theorem gate_of_another_function : ¬CountRight
    (entryCount .ascii twoTests .tests "src/lib.rs".toList ['1']) (.exact 1) "test".toList
      (runCount .ascii twoTests .tests "src/lib.rs".toList) := by
  intro hright
  have hverdict : (entryCount .ascii twoTests .tests "src/lib.rs".toList ['1']).verdict =
      .contradicted := by decide +kernel
  obtain ⟨n, hn, hrun⟩ := hright.contradicted hverdict
  cases hn
  have hmore := hrun ⟨∅, fun key => key = "test".toList, fun _ _ => false⟩ (by decide +kernel)
  revert hmore
  decide +kernel

end DocCounts

end CodeGraph
