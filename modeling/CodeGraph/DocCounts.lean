import CodeGraph.UnifiedDiff
import CodeGraph.IndexOwners
import CodeGraph.ItemGates

/-!
# Counts a document claims

`doc_claims::counts`: how many tests or proof harnesses there are, and how many variants an
enum has. The answer to the first rests on the compiled floor, the entry points of the graph
that every build of the harness runs. Both read the source again, and find an item of the
graph there by its line.
-/

namespace CodeGraph

namespace DocCounts

open ItemGates

/-! ## Claims -/

inductive Verdict where
  | supported
  | contradicted
  | notFound
  | notVerifiable
  deriving DecidableEq

structure Outcome where
  verdict : Verdict
  reason : Option Text
  deriving DecidableEq

def Outcome.notVerifiable (reason : Text) : Outcome := ⟨.notVerifiable, some reason⟩

inductive Expected where
  | exact (n : ℕ)
  | atLeast (n : ℕ)
  deriving DecidableEq

/-- A count that is as claimed. -/
def Expected.Holds : Expected → ℕ → Prop
  | .exact n, count => count = n
  | .atLeast n, count => n ≤ count

def parseExpected (cc : CharClass) (raw : Text) : Option Expected :=
  match stripPrefix ">=".toList (trim cc raw) with
  | some n => (GitDiff.parseU64 (trim cc n)).map .atLeast
  | none => (GitDiff.parseU64 (trim cc raw)).map .exact

def number (n : ℕ) : Text := Nat.toDigits 10 n

def badExpected (raw : Text) : Outcome :=
  .notVerifiable ("expected_not_a_count: '".toList ++ raw ++
    "'; write \"N\" for exactly N or \">=N\" for at least N".toList)

def scopePrefix (cc : CharClass) (subject : Text) : Option Text :=
  let s := trimStartMatches "./".toList (trim cc subject)
  if s = [] ∨ s = ['.'] then none
  else if s.getLast? = some '/' then some s
  else some (s ++ "::".toList)

/-! ## The graph and the source -/

/-- What counts the entry points, and what compiles them. -/
inductive Harness where
  | tests
  | proofs
  deriving DecidableEq

namespace Harness

def entryKind : Harness → Attribute.Marker
  | tests => .test
  | proofs => .proof

def option : Harness → Text
  | tests => "test".toList
  | proofs => "kani".toList

def contexts : Harness → List Text
  | tests => ["production".toList, "test".toList]
  | proofs => ["production".toList, "proof".toList]

end Harness

/-- Why the source of a file cannot be read now. -/
inductive Unread where
  | unreadable (why : Text)
  | unparsed (why : Text)

/-- A Rust file as the graph has it, with its source. The graph agrees with the source: a
build that has the target of the file compiles the file just where the gates of its row hold.
Of two functions of one name the graph may hold one. -/
structure IndexedFile where
  path : Text
  plain : IsFileId path
  targetContext : Text
  gates : Option (List CfgPredicate)
  wellFormed : FileScope.GatesWellFormed gates
  compiled : Build → Bool
  agrees : ∀ ps ∈ gates, ∀ b, compiled b = true ↔ ∀ p ∈ ps, b.Holds p
  root : ItemTree
  unheaded : root.Every Unheaded
  name : Item → Text
  isHeld : Item → Bool
  unread : Option Unread

/-- An enum of the graph: one of a Rust file, or one of a language whose enums are not read. -/
inductive EnumRow where
  | rust (file : IndexedFile) (item : Item)
  | foreign (id name language : Text) (variants : ℕ)

namespace EnumRow

def id : EnumRow → Text
  | rust file item => inFile file.path (file.name item)
  | foreign id _ _ _ => id

def name : EnumRow → Text
  | rust _ item => item.node.name
  | foreign _ name _ _ => name

def language : EnumRow → Text
  | rust _ _ => "rust".toList
  | foreign _ _ language _ => language

def startLine : EnumRow → ℕ
  | rust _ item => item.node.line
  | foreign _ _ _ _ => 0

def variants : EnumRow → ℕ
  | rust _ item => item.node.variants.length
  | foreign _ _ _ variants => variants

/-- The qualified name without the suffixes of twins. -/
def plainName (e : EnumRow) : Text := stripCfgGates e.id

end EnumRow

structure CodeBase where
  files : List IndexedFile
  distinct : (files.map IndexedFile.path).Nodup
  enums : List EnumRow
  read : ∀ file item, .rust file item ∈ enums → file ∈ files ∧ item ∈ items file.root .enum
  foreign : ∀ id name language variants, .foreign id name language variants ∈ enums →
    language ≠ "rust".toList
  small : ∀ e ∈ enums, e.variants < 2 ^ 64
  hasColumn : Text → Bool
  queryError : Option Text
  /-- Why nothing can be said of a subject that is in no file of the graph. -/
  unverifiableReason : Text → Option Text

/-! ## Entry points -/

structure Row where
  id : Text
  startLine : ℕ

def IndexedFile.row (f : IndexedFile) (n : Item) : Row := ⟨inFile f.path (f.name n), n.node.line⟩

def IndexedFile.entryRows (f : IndexedFile) (h : Harness) : List Row :=
  ((definedFunctions f.root).filter fun n => f.isHeld n && entryKind n = some h.entryKind).map f.row

def fileOf (id : Text) : Text :=
  match breakOn "::".toList id with
  | some (file, _) => file
  | none => id

def inScope (scope : Option Text) (id : Text) : Bool :=
  match scope with
  | some pre => pre.isPrefixOf id
  | none => true

def IndexedFile.compiledGates (cc : CharClass) (f : IndexedFile) (h : Harness) :
    Except Text (List FunctionGate) :=
  let gate := FileScope.gateText f.gates
  if f.targetContext ∉ h.contexts then
    .error ("target_not_run_by_harness(".toList ++
      (if f.targetContext = [] then "none".toList else f.targetContext) ++ [')'])
  else if gate ≠ [] ∧ gate ≠ h.option then .error ("file_gated(".toList ++ gate ++ [')'])
  else
    match f.unread with
    | some (.unreadable why) => .error ("source_unreadable(".toList ++ why ++ [')'])
    | some (.unparsed _) => .error "source_parse_failed".toList
    | none => .ok (functionGates cc f.root)

def fileGates (cc : CharClass) (cb : CodeBase) (file : Text) (h : Harness) :
    Except Text (List FunctionGate) :=
  if ¬".rs".toList <:+ file then .error "not_rust_source".toList
  else
    match ["target_context".toList, "cfg_gate".toList].find? fun column => !cb.hasColumn column with
    | some column => .error ("graph_without_file_".toList ++ column)
    | none =>
        match cb.files.find? fun f => f.path = file with
        | none => .error "file_not_in_graph".toList
        | some f => f.compiledGates cc h

/-- `none` when the function on the line is in the floor. -/
def functionVerdict (gates : List FunctionGate) (line : ℕ) (h : Harness) : Option Text :=
  match gates.find? fun g => g.line = line with
  | none => some "not_at_graph_line".toList
  | some g =>
      if g.nested then some "nested_function".toList
      else if g.cfgAttr then some "cfg_attr".toList
      else if g.gate ≠ [] ∧ g.gate ≠ h.option then some ("gated(".toList ++ g.gate ++ [')'])
      else none

/-- Why the row is left out of the floor. -/
def rowVerdict (cc : CharClass) (cb : CodeBase) (h : Harness) (row : Row) : Option Text :=
  match fileGates cc cb (fileOf row.id) h with
  | .error why => some why
  | .ok gates => functionVerdict gates row.startLine h

def compiledFloor (cc : CharClass) (cb : CodeBase) (h : Harness) (rows : List Row) : ℕ :=
  rows.countP fun row => (rowVerdict cc cb h row).isNone

def countVerdict (expected : Expected) (declared floor : ℕ) : Outcome :=
  let range := "declared ".toList ++ number declared ++ ", compiled floor ".toList ++ number floor
  let undecided (n : ℕ) : Outcome :=
    if declared < n then
      .notVerifiable ("lower_bound: ".toList ++ range ++ ", claimed ".toList ++ number n ++
        "; more may exist than the graph holds".toList)
    else
      .notVerifiable ("build_dependent: ".toList ++ range ++ ", claimed ".toList ++ number n ++
        "; it depends on what the build compiles".toList)
  match expected with
  | .exact n =>
      if n < floor then
        ⟨.contradicted, some ("floor_exceeds_claim: ".toList ++ range ++ ", claimed ".toList ++
          number n)⟩
      else if floor = n ∧ declared = n then ⟨.supported, none⟩
      else undecided n
  | .atLeast n => if n ≤ floor then ⟨.supported, none⟩ else undecided n

def claimedRows (cc : CharClass) (cb : CodeBase) (h : Harness) (subject : Text) : List Row :=
  (cb.files.flatMap fun f => f.entryRows h).filter fun row =>
    inScope (scopePrefix cc subject) row.id

/-- The answer to a claim whose count was read. -/
def entryOutcome (cc : CharClass) (cb : CodeBase) (h : Harness) (subject : Text)
    (expected : Expected) : Outcome :=
  match cb.queryError with
  | some e => .notVerifiable ("graph_query_failed: ".toList ++ e)
  | none =>
      let rows := claimedRows cc cb h subject
      countVerdict expected rows.length (compiledFloor cc cb h rows)

def entryCount (cc : CharClass) (cb : CodeBase) (h : Harness) (subject raw : Text) : Outcome :=
  match parseExpected cc raw with
  | some expected => entryOutcome cc cb h subject expected
  | none => badExpected raw

/-! ## Variants -/

def fileQualified (subject : Text) : Bool :=
  match breakOn "::".toList subject with
  | some (before, _) => '.' ∈ before
  | none => false

/-- `lookup` among the enums. -/
def lookup (cb : CodeBase) (subject : Text) : List EnumRow := cb.enums.filter fun e =>
  e.name = lastPiece "::".toList subject ∧
    (e.plainName = subject ∨ e.id = subject ∨
      fileQualified subject = false ∧ "::".toList ++ subject <:+ e.plainName)

/-- What is said of a subject that no enum matches. -/
def absent (cb : CodeBase) (subject : Text) : Outcome :=
  match if fileQualified subject then cb.unverifiableReason subject else none with
  | some reason => .notVerifiable reason
  | none => ⟨.notFound, some ("absent_from_graph: no node has this name; absence from the graph".toList
      ++ " is not proof of absence from the code (macro output and unsupported languages".toList ++
      " are not indexed)".toList)⟩

def singleEnum (cc : CharClass) (cb : CodeBase) (subject : Text) : Except Outcome EnumRow :=
  if trim cc subject = [] then .error (.notVerifiable "subject_empty".toList)
  else
    match cb.queryError with
    | some e => .error (.notVerifiable ("graph_query_failed: ".toList ++ e))
    | none =>
        match lookup cb subject with
        | [] => .error (absent cb subject)
        | [only] => .ok only
        | found => .error (.notVerifiable ("ambiguous_subject: ".toList ++ number found.length ++
            " enums match (".toList ++ number (found.map EnumRow.plainName).dedup.length ++
            " distinct); name one, or a #[cfg] twin, by its id".toList))

def unreadLanguageVerdict (expected : Expected) (declared : ℕ) (language : Text) : Outcome :=
  let unknown : Outcome := .notVerifiable ("variant_completeness_not_established: '".toList ++
    language ++ "' enums are not read from source; the graph holds ".toList ++ number declared)
  match expected with
  | .exact n => if n = declared then ⟨.supported, none⟩ else unknown
  | .atLeast n => if n ≤ declared then ⟨.supported, none⟩ else unknown

/-- `gated` of the `declared` variants are under a `cfg` of their own. -/
def variantVerdict (expected : Expected) (declared gated : ℕ) (claimed : Text) : Outcome :=
  let ungated := declared - gated
  let range := number ungated ++ " ungated of ".toList ++ number declared ++ " declared".toList
  let (low, high, certain) : ℕ × ℕ × Bool :=
    match expected with
    | .exact n => (n, n, gated = 0)
    | .atLeast n => (n, 2 ^ 64 - 1, n ≤ ungated)
  if high < ungated ∨ declared < low then
    ⟨.contradicted, some ("variant_count_differs: ".toList ++ range ++ ", claimed ".toList ++ claimed)⟩
  else if certain then ⟨.supported, none⟩
  else .notVerifiable ("build_dependent: ".toList ++ range ++ ", claimed ".toList ++ claimed)

/-- `rust_gated_variants`: how many variants of the enum on the line are under a `cfg`. -/
def rustGatedVariants (cc : CharClass) (cb : CodeBase) (enumId : Text) (line declared : ℕ) :
    Except Text ℕ :=
  let file := fileOf enumId
  let location := file ++ ":".toList ++ number line
  match cb.files.find? fun f => f.path = file with
  | none => .error ("source_unreadable: ".toList ++ file ++ ": file_not_found".toList)
  | some f =>
      match f.unread with
      | some (.unreadable why) => .error ("source_unreadable: ".toList ++ file ++ ": ".toList ++ why)
      | some (.unparsed why) => .error ("source_parse_failed: ".toList ++ why)
      | none =>
          match (enumShapes cc f.root).find? fun s => s.line = line with
          | none => .error ("source_changed_since_indexing: no enum at ".toList ++ location)
          | some s =>
              if s.variants ≠ declared then
                .error ("graph_and_source_disagree: the source declares ".toList ++
                  number s.variants ++ " variants at ".toList ++ location ++
                  ", the graph holds ".toList ++ number declared)
              else .ok s.gatedVariants

def variantOutcome (cc : CharClass) (cb : CodeBase) (subject : Text) (expected : Expected)
    (claimed : Text) : Outcome :=
  match singleEnum cc cb subject with
  | .error outcome => outcome
  | .ok e =>
      if e.language ≠ "rust".toList then unreadLanguageVerdict expected e.variants e.language
      else
        match rustGatedVariants cc cb e.id e.startLine e.variants with
        | .ok gated => variantVerdict expected e.variants gated claimed
        | .error why => .notVerifiable why

def variantCount (cc : CharClass) (cb : CodeBase) (subject raw : Text) : Outcome :=
  match parseExpected cc raw with
  | some expected => variantOutcome cc cb subject expected (trim cc raw)
  | none => badExpected raw

/-! ## What a build has -/

def runs (h : Harness) (b : Build) (f : IndexedFile) (n : Item) : Bool :=
  f.targetContext ∈ h.contexts && f.compiled b && n.collected && n.compiledIn b &&
    Attribute.anyMarks h.entryKind b n.node.attributes

/-- How many functions of the files have a property. -/
def countFunctions (cb : CodeBase) (p : IndexedFile → Item → Bool) : ℕ :=
  (cb.files.map fun f => (items f.root .function).countP (p f)).sum

def claimed (cc : CharClass) (subject : Text) (f : IndexedFile) (n : Item) : Bool :=
  inScope (scopePrefix cc subject) (f.row n).id

/-- How many entry points of the scope the harness runs. -/
def runCount (cc : CharClass) (cb : CodeBase) (h : Harness) (subject : Text) (b : Build) : ℕ :=
  countFunctions cb fun f n => claimed cc subject f n && runs h b f n

/-- The answer is right about every build that sets the option of the harness. -/
structure CountRight (outcome : Outcome) (expected : Expected) (option : Text) (run : Build → ℕ) :
    Prop where
  contradicted : outcome.verdict = .contradicted →
    ∃ n, expected = .exact n ∧ ∀ b, b.bare option = true → n < run b
  supported : outcome.verdict = .supported → ∀ n, expected = .atLeast n →
    ∀ b, b.bare option = true → n ≤ run b

namespace EnumRow

def compiledIn (b : Build) : EnumRow → Bool
  | rust file item => file.compiled b && item.compiledIn b
  | foreign _ _ _ _ => true

def variantsIn (b : Build) : EnumRow → ℕ
  | rust _ item => item.variantsIn b
  | foreign _ _ _ variants => variants

end EnumRow

/-- The answer is right about every build that has the enum. -/
structure VariantsRight (cb : CodeBase) (subject : Text) (outcome : Outcome) (expected : Expected) :
    Prop where
  contradicted : outcome.verdict = .contradicted → ∃ e, lookup cb subject = [e] ∧
    ∀ b, e.compiledIn b = true → ¬expected.Holds (e.variantsIn b)
  supported : outcome.verdict = .supported → ∃ e, lookup cb subject = [e] ∧
    ∀ b, e.compiledIn b = true → expected.Holds (e.variantsIn b)

end DocCounts

end CodeGraph
