import CodeGraph.GitListing
import CodeGraph.Lib.BlockTree
import CodeGraph.ManifestScan

/-!
# Manifests in block style

What a manifest is before it is text: a tree of mappings and sequences with plain keys, whose
scalars are plain or quoted, and the lines it is written in. The scan reads off the line of a
key that key and its scalar, save that a key behind two dashes keeps the second one.
-/

namespace CodeGraph

open Option List

namespace ManifestScan

open BlockTree

/-! ## Keys and scalars -/

/-- Neither end of the text is trimmed away. -/
def IsTrimmed (text : Text) : Prop :=
  (∀ c ∈ text.head?, space.isWhitespace c = false) ∧
    ∀ c ∈ text.getLast?, space.isWhitespace c = false

/-- A text on one line that stands for itself: no entry, no item, no comment, not quoted. -/
structure IsPlain (text : Text) : Prop where
  trimmed : IsTrimmed text
  line : '\n' ∉ text
  colon : ¬ ": ".toList <:+: text
  last : text.getLast? ≠ some ':'
  head : ∀ c ∈ text.head?, c ≠ '#' ∧ c ≠ '"' ∧ c ≠ '\''
  item : ¬ "- ".toList <+: text

variable {c : Char}

theorem isWhitespace_of_isAlpha (h : c.isAlpha) : space.isWhitespace c = false := by
  have hrange := isAlpha_iff.mp h
  change Ast.isWhiteSpace c = false
  simp only [Ast.isWhiteSpace, contains_eq_mem, mem_cons, not_mem_nil, or_false]
  simp only [Bool.or_eq_false_iff, Bool.and_eq_false_iff, decide_eq_false_iff_not]
  omega

variable {text : Text}

theorem isPlain_of_letters (h : text.all Char.isAlpha) : IsPlain text := by
  have hletter {c : Char} (hc : c ∈ text) : c.isAlpha = true := all_eq_true.mp h c hc
  have hno {d : Char} (hd : d.isAlpha = false) : d ∉ text := fun hmem => by
    rw [hletter hmem] at hd
    cases hd
  exact {
    trimmed := ⟨fun c hc => isWhitespace_of_isAlpha (hletter (mem_of_mem_head? hc)),
      fun c hc => isWhitespace_of_isAlpha (hletter (mem_of_getLast? hc))⟩
    line := hno rfl
    colon := fun hin => @hno ':' rfl (hin.subset mem_cons_self)
    last := fun hlast => @hno ':' rfl (mem_of_getLast? hlast)
    head := fun c hc =>
      have hmem : c ∈ text := mem_of_mem_head? hc
      ⟨fun heq => hno rfl (heq ▸ hmem), fun heq => hno rfl (heq ▸ hmem),
        fun heq => hno rfl (heq ▸ hmem)⟩
    item := fun hitem => @hno '-' rfl (hitem.subset mem_cons_self) }

structure Key where
  text : Text
  plain : IsPlain text
  ne_nil : text ≠ []
  deriving DecidableEq

inductive Quote
  | double | single
  deriving DecidableEq

def Quote.char : Quote → Char
  | .double => '"'
  | .single => '\''

/-- A text that is written between two quotes as it is. -/
def Quote.IsBody (quote : Quote) (text : Text) : Prop :=
  '\n' ∉ text ∧ quote.char ∉ text ∧ (quote = .double → '\\' ∉ text)

inductive Scalar
  | plain (text : Text) (h : IsPlain text)
  | quoted (quote : Quote) (text : Text) (h : quote.IsBody text)

namespace Scalar

def value : Scalar → Text
  | .plain text _ => text
  | .quoted _ text _ => text

/-- The scalar as it stands on its line. -/
def written : Scalar → Text
  | .plain text _ => text
  | .quoted quote text _ => quote.char :: (text ++ [quote.char])

def empty : Scalar := .plain [] (isPlain_of_letters rfl)

end Scalar

/-! ## Documents -/

/-- A manifest as it is written: its tree, and how far its lines are indented. -/
structure Manifest where
  layout : Layout
  root : Entries Key Scalar
  distinct : root.Distinct

abbrev Line := BlockTree.Row Key Scalar

abbrev Path := List (Step Key)

def dashes (n : ℕ) : Text := (List.replicate n "- ".toList).flatten

def behindColon : Option Scalar → Text
  | none => []
  | some a => if a.written = [] then [] else ' ' :: a.written

def lineText (row : Line) : Text :=
  List.replicate row.indent ' ' ++ (dashes row.dashes ++
    match row.key with
    | some key => key.text ++ ':' :: behindColon row.scalar
    | none => (row.scalar.map Scalar.written).getD [])

namespace Manifest

variable (doc : Manifest)

def rows : List Line := doc.root.rows doc.layout 0 0

def lines : List Text := doc.rows.map lineText

/-- The document with other scalars under its keys. -/
def refill (f : Path → Scalar) : Manifest where
  layout := doc.layout
  root := doc.root.refill f
  distinct := doc.distinct.refill

/-- The text of the scalar at a path, empty when there is none. -/
def valueAt (path : Path) : Text :=
  match (Block.mapping doc.root).at? path with
  | some (.scalar a) => a.value
  | _ => []

end Manifest

/-- A file of manifests, with a separator before each but the first. -/
def fileLines : List Manifest → List Text
  | [] => []
  | [doc] => doc.lines
  | doc :: docs => doc.lines ++ "---".toList :: fileLines docs

def fileText (docs : List Manifest) : Text := printLines (fileLines docs)

/-! ## What is read of a line -/

theorem trim_trimmed (h : IsTrimmed text) : trim space text = text :=
  Ast.trim_eq_self (fun c hc => h.1 c hc) fun c hc => h.2 c hc

theorem trim_indented (n : ℕ) (text : Text) :
    trim space (List.replicate n ' ' ++ text) = trim space text := by
  rw [trim, dropWhile_append_of_pos, ← trim]
  intro c hc
  rw [eq_of_mem_replicate hc]
  decide

theorem indentOf_indented (n : ℕ) (h : text.head? ≠ some ' ') :
    indentOf (List.replicate n ' ' ++ text) = n := by
  have htext : text.takeWhile (fun c => decide (c = ' ')) = [] := by
    cases text with
    | nil => rfl
    | cons c text => exact takeWhile_cons_of_neg (by simpa using h)
  rw [indentOf, takeWhile_append_of_pos, htext, append_nil, length_replicate]
  intro c hc
  rw [eq_of_mem_replicate hc]
  decide

theorem breakOn_colon {before : Text} (h : ¬": ".toList <:+: before ++ [':']) (after : Text) :
    breakOn ": ".toList (before ++ (": ".toList ++ after)) = some (before, after) :=
  breakOn_append (by decide) h after

theorem dashes_succ (n : ℕ) : dashes (n + 1) = '-' :: ' ' :: dashes n := rfl

variable {a : Scalar}

theorem Scalar.last_written (h : c ∈ a.written.getLast?) :
    space.isWhitespace c = false ∧ c ≠ ':' := by
  cases a with
  | plain text hplain => exact ⟨hplain.trimmed.2 c h, fun hc => hplain.last (hc ▸ h)⟩
  | quoted quote text hbody =>
      rw [Scalar.written, ← cons_append, getLast?_concat] at h
      cases h
      cases quote <;> exact ⟨by decide, by decide⟩

/-- A key is written with its colon and its scalar, behind the dashes of its line. -/
def entryText (n : ℕ) (key : Key) (scalar : Option Scalar) : Text :=
  dashes n ++ (key.text ++ ':' :: behindColon scalar)

theorem head_entryText (n : ℕ) (key : Key) (scalar : Option Scalar)
    (h : c ∈ (entryText n key scalar).head?) :
    space.isWhitespace c = false ∧ c ≠ '#' ∧ c ≠ ' ' := by
  cases n with
  | succ n =>
      rw [entryText, dashes_succ] at h
      cases h
      exact ⟨by decide, by decide, by decide⟩
  | zero =>
      obtain ⟨d, text, htext⟩ := exists_cons_of_ne_nil key.ne_nil
      have hd : d ∈ key.text.head? := by rw [htext]; rfl
      have hc : c = d := by
        rw [entryText, htext] at h
        exact (Option.some.inj h).symm
      subst hc
      have hspace := key.plain.trimmed.1 c hd
      exact ⟨hspace, (key.plain.head c hd).1, fun hc => by rw [hc] at hspace; cases hspace⟩

/-- What is behind the colon of a line. -/
def scalarText (scalar : Option Scalar) : Text := (scalar.map Scalar.written).getD []

theorem behindColon_eq (scalar : Option Scalar) :
    behindColon scalar = if scalarText scalar = [] then [] else ' ' :: scalarText scalar := by
  cases scalar <;> rfl

theorem last_scalarText {scalar : Option Scalar}
    (h : c ∈ (scalarText scalar).getLast?) : space.isWhitespace c = false ∧ c ≠ ':' := by
  cases scalar with
  | none => cases h
  | some a => exact Scalar.last_written h

theorem isTrimmed_scalarText (scalar : Option Scalar) : IsTrimmed (scalarText scalar) := by
  refine ⟨fun c hc => ?_, fun c hc => (last_scalarText hc).1⟩
  match scalar, hc with
  | some (.plain text h), hc => exact h.trimmed.1 c hc
  | some (.quoted .double text h), hc => cases hc; decide
  | some (.quoted .single text h), hc => cases hc; decide

theorem getLast?_entryText (n : ℕ) (key : Key) (scalar : Option Scalar) :
    (entryText n key scalar).getLast?
      = if scalarText scalar = [] then some ':' else (scalarText scalar).getLast? := by
  rw [entryText, ← append_assoc, getLast?_append_of_ne_nil _ (cons_ne_nil _ _),
    behindColon_eq]
  split_ifs with hempty
  · rfl
  · exact getLast?_append_of_ne_nil [':', ' '] hempty

theorem isTrimmed_entryText (n : ℕ) (key : Key) (scalar : Option Scalar) :
    IsTrimmed (entryText n key scalar) := by
  refine ⟨fun _ h => (head_entryText n key scalar h).1, fun c h => ?_⟩
  rw [getLast?_entryText] at h
  split_ifs at h with hempty
  · cases h
    decide
  · exact (last_scalarText h).1

theorem isTrimmed_dashed (n : ℕ) (key : Key) : IsTrimmed (dashes n ++ key.text) := by
  constructor
  · intro c hc
    cases n with
    | zero => exact key.plain.trimmed.1 c hc
    | succ n =>
        rw [dashes_succ] at hc
        cases hc
        decide
  · intro c hc
    rw [getLast?_append_of_ne_nil _ key.ne_nil] at hc
    exact key.plain.trimmed.2 c hc

theorem notInfix_dashes (h : ¬ ": ".toList <:+: text) (n : ℕ) :
    ¬ ": ".toList <:+: dashes n ++ text := by
  induction n with
  | zero => exact h
  | succ n ih =>
      rw [dashes_succ, cons_append, cons_append, infix_cons_iff,
        infix_cons_iff]
      rintro (⟨_, h⟩ | ⟨_, h⟩ | h)
      · cases h
      · cases h
      · exact ih h

theorem colon_notInfix (n : ℕ) (key : Key) :
    ¬ ": ".toList <:+: dashes n ++ key.text ++ [':'] := by
  rw [append_assoc]
  refine notInfix_dashes ?_ n
  rw [infix_concat_iff, not_or]
  refine ⟨fun ⟨before, hbefore⟩ => ?_, key.plain.colon⟩
  have := congrArg List.getLast? hbefore
  rw [getLast?_concat, getLast?_append_of_ne_nil _ (by decide)] at this
  cases this

theorem splitKey_entryText (n : ℕ) (key : Key) (scalar : Option Scalar) :
    splitKey (entryText n key scalar) = some (dashes n ++ key.text, scalarText scalar) := by
  rw [splitKey, getLast?_entryText]
  by_cases hempty : scalarText scalar = []
  · have hentry : entryText n key scalar = dashes n ++ key.text ++ [':'] := by
      rw [entryText, behindColon_eq, if_pos hempty, append_assoc]
    rw [if_pos (if_pos hempty), hentry, dropLast_concat, trim_trimmed (isTrimmed_dashed n key),
      hempty]
  · have hcolon : (if scalarText scalar = [] then some ':' else (scalarText scalar).getLast?)
        ≠ some ':' := by
      rw [if_neg hempty]
      exact fun h => (last_scalarText h).2 rfl
    have hentry : entryText n key scalar
        = dashes n ++ key.text ++ (": ".toList ++ scalarText scalar) := by
      rw [entryText, behindColon_eq, if_neg hempty, append_assoc]
      rfl
    rw [if_neg hcolon, hentry, breakOn_colon (colon_notInfix n key), map_some]
    dsimp only
    rw [trim_trimmed (isTrimmed_dashed n key), trim_trimmed (isTrimmed_scalarText scalar)]

theorem unquote_scalarText (scalar : Option Scalar) :
    unquote (scalarText scalar) = (scalar.map Scalar.value).getD [] := by
  rw [unquote, trim_trimmed (isTrimmed_scalarText scalar)]
  match scalar with
  | none => rfl
  | some (.plain text h) =>
      refine if_neg ?_
      rintro ⟨-, ⟨hhead, -⟩ | ⟨hhead, -⟩⟩
      · exact (h.head _ hhead).2.1 rfl
      · exact (h.head _ hhead).2.2 rfl
  | some (.quoted quote text h) =>
      have hlast : (quote.char :: (text ++ [quote.char])).getLast? = some quote.char := by
        rw [← cons_append, getLast?_concat]
      have hbody : (quote.char :: (text ++ [quote.char])).tail.dropLast = text := by
        rw [tail_cons, dropLast_concat]
      have hlength : 2 ≤ (quote.char :: (text ++ [quote.char])).length := by simp
      refine (if_pos ⟨hlength, ?_⟩).trans hbody
      cases quote with
      | double => exact .inl ⟨rfl, hlast⟩
      | single => exact .inr ⟨rfl, hlast⟩

theorem stripPrefix_entryText (key : Key) (scalar : Option Scalar) :
    stripPrefix "- ".toList (entryText 0 key scalar) = none := by
  refine eq_none_iff_forall_ne_some.mpr fun rest hrest => ?_
  have heq : key.text ++ ':' :: behindColon scalar = '-' :: ' ' :: rest := stripPrefix_eq hrest
  have hitem := key.plain.item
  rcases htext : key.text with _ | ⟨c, _ | ⟨d, text⟩⟩
  · exact key.ne_nil htext
  · rw [htext] at heq
    cases (List.cons.inj (List.cons.inj heq).2).1
  · rw [htext] at heq hitem
    obtain ⟨rfl, hd⟩ := List.cons.inj heq
    obtain ⟨rfl, -⟩ := List.cons.inj hd
    exact hitem ⟨text, rfl⟩

/-- The line of a key says its indent, the key and the scalar; of the dashes before the key all
but the first are read into it. -/
theorem readLine_key {row : Line} {key : Key} (hkey : row.key = some key) :
    readLine (lineText row)
      = some (row.indent, dashes (row.dashes - 1) ++ key.text, scalarText row.scalar) := by
  have htext : lineText row = List.replicate row.indent ' ' ++
      entryText row.dashes key row.scalar := by rw [lineText, hkey, entryText]
  have hhead : ∀ c ∈ (entryText row.dashes key row.scalar).head?, c ≠ '#' ∧ c ≠ ' ' :=
    fun _ h => (head_entryText _ _ _ h).2
  have hline : ¬ (entryText row.dashes key row.scalar = [] ∨
      (entryText row.dashes key row.scalar).head? = some '#') := by
    rintro (h | h)
    · simp [entryText] at h
    · exact (hhead '#' h).1 rfl
  have hentry : ((stripPrefix "- ".toList (entryText row.dashes key row.scalar)).map
      (trim space)).getD (entryText row.dashes key row.scalar)
        = entryText (row.dashes - 1) key row.scalar := by
    cases row.dashes with
    | zero =>
        rw [stripPrefix_entryText, map_none, getD_none]
    | succ n =>
        rw [show entryText (n + 1) key row.scalar = "- ".toList ++ entryText n key row.scalar from
          rfl, stripPrefix_append]
        exact trim_trimmed (isTrimmed_entryText n key row.scalar)
  rw [readLine, htext, trim_indented, trim_trimmed (isTrimmed_entryText _ _ _)]
  dsimp only
  rw [if_neg hline, hentry, splitKey_entryText, map_some,
    indentOf_indented row.indent fun h => (hhead ' ' h).2 rfl]

/-- A key that no key of a manifest is: it starts with a dash or a quote. -/
def Inert (key : Text) : Prop :=
  key.head? = some '-' ∨ key.head? = some '"' ∨ key.head? = some '\''

theorem head?_trim (h : text.head? = some c)
    (hc : space.isWhitespace c = false) : (trim space text).head? = some c := by
  obtain ⟨rest, rfl⟩ : ∃ rest, text = c :: rest := by
    cases text with
    | nil => cases h
    | cons d rest => exact ⟨rest, by cases h; rfl⟩
  rw [trim, dropWhile_cons_of_neg (by simp [hc]), reverse_cons, dropWhile_append]
  split_ifs
  · rw [dropWhile_cons_of_neg (by simp [hc])]
    rfl
  · rw [reverse_append]
    rfl

theorem splitKey_eq_none (hcolon : ¬ ": ".toList <:+: text)
    (hlast : text.getLast? ≠ some ':') : splitKey text = none := by
  rw [splitKey, if_neg hlast, breakOn_eq_none hcolon, map_none]

theorem splitKey_of_notMem (h : ':' ∉ text) : splitKey text = none :=
  splitKey_eq_none (fun hin => h (hin.subset mem_cons_self))
    fun hlast => h (mem_of_getLast? hlast)

theorem mem_of_mem_trim (h : c ∈ trim space text) : c ∈ text := by
  rw [trim, mem_reverse] at h
  have := (dropWhile_suffix _).subset h
  exact (dropWhile_suffix _).subset (mem_reverse.mp this)

variable {key value : Text}

theorem head?_splitKey (h : splitKey text = some (key, value))
    (hhead : text.head? = some c) (hspace : space.isWhitespace c = false) (hc : c ≠ ':')
    (hlast : text.getLast? ≠ some ':') : key.head? = some c := by
  rw [splitKey, if_neg hlast] at h
  obtain ⟨⟨before, after⟩, hbreak, heq⟩ := map_eq_some_iff.mp h
  cases heq
  refine head?_trim ?_ hspace
  rw [breakOn_eq hbreak, append_assoc] at hhead
  cases before with
  | nil => exact absurd (Option.some.inj hhead).symm hc
  | cons d before => exact hhead

theorem inert_of_splitKey {n : ℕ}
    (h : splitKey (dashes n ++ a.written) = some (key, value)) (hne : a.written ≠ []) :
    Inert key := by
  have hlast : (dashes n ++ a.written).getLast? ≠ some ':' := by
    rw [getLast?_append_of_ne_nil _ hne]
    exact fun hlast => (Scalar.last_written hlast).2 rfl
  cases a with
  | plain text hplain =>
      have hnone : splitKey (dashes n ++ (Scalar.plain text hplain).written) = none :=
        splitKey_eq_none (notInfix_dashes hplain.colon n) hlast
      rw [hnone] at h
      cases h
  | quoted quote text hbody =>
      cases n with
      | succ n => exact .inl (head?_splitKey h rfl (by decide) (by decide) hlast)
      | zero =>
          cases quote with
          | double => exact .inr (.inl (head?_splitKey h rfl (by decide) (by decide) hlast))
          | single => exact .inr (.inr (head?_splitKey h rfl (by decide) (by decide) hlast))

theorem stripPrefix_written (a : Scalar) : stripPrefix "- ".toList a.written = none := by
  refine eq_none_iff_forall_ne_some.mpr fun rest hrest => ?_
  have heq := stripPrefix_eq hrest
  cases a with
  | plain text hplain => exact hplain.item ⟨rest, heq.symm⟩
  | quoted quote text hbody => cases quote <;> cases (List.cons.inj heq).1

theorem colon_notMem_dashes (n : ℕ) : ':' ∉ dashes n := by
  induction n with
  | zero => exact not_mem_nil
  | succ n ih => simpa [dashes_succ] using ih

theorem isTrimmed_item (n : ℕ) (hne : a.written ≠ []) : IsTrimmed (dashes n ++ a.written) := by
  refine ⟨fun c hc => ?_, fun c hc => ?_⟩
  · cases n with
    | zero => exact (isTrimmed_scalarText (some a)).1 c hc
    | succ n =>
        cases hc
        decide
  · rw [getLast?_append_of_ne_nil _ hne] at hc
    exact (Scalar.last_written hc).1

theorem inert_of_readLine_item {row : Line} (hkey : row.key = none) {indent : ℕ} (h : readLine (lineText row) = some (indent, key, value)) : Inert key := by
  have htext : lineText row = List.replicate row.indent ' ' ++
      (dashes row.dashes ++ scalarText row.scalar) := by rw [lineText, hkey, scalarText]
  rw [readLine, htext, trim_indented] at h
  dsimp only at h
  split_ifs at h
  obtain ⟨⟨key', value'⟩, hsplit, heq⟩ := map_eq_some_iff.mp h
  cases heq
  by_cases hempty : scalarText row.scalar = []
  · rw [hempty, append_nil, splitKey_of_notMem] at hsplit
    · cases hsplit
    · intro hcolon
      refine colon_notMem_dashes row.dashes (mem_of_mem_trim ?_)
      cases hstrip : stripPrefix "- ".toList (trim space (dashes row.dashes)) with
      | none =>
          rw [hstrip] at hcolon
          exact hcolon
      | some rest =>
          rw [hstrip] at hcolon
          rw [stripPrefix_eq hstrip]
          exact mem_append_right _ (mem_of_mem_trim hcolon)
  · obtain ⟨a, ha⟩ : ∃ a, row.scalar = some a := by
      cases hscalar : row.scalar with
      | none => rw [hscalar] at hempty; exact absurd rfl hempty
      | some a => exact ⟨a, rfl⟩
    have hne : a.written ≠ [] := by rwa [ha] at hempty
    rw [ha, show scalarText (some a) = a.written from rfl,
      trim_trimmed (isTrimmed_item row.dashes hne)] at hsplit
    cases hdashes : row.dashes with
    | zero =>
        rw [hdashes, show dashes 0 ++ a.written = a.written from rfl, stripPrefix_written] at hsplit
        exact inert_of_splitKey (n := 0) hsplit hne
    | succ n =>
        rw [hdashes, show dashes (n + 1) ++ a.written = "- ".toList ++ (dashes n ++ a.written)
          from rfl, stripPrefix_append, map_some, getD_some,
          trim_trimmed (isTrimmed_item n hne)] at hsplit
        exact inert_of_splitKey hsplit hne

end ManifestScan

end CodeGraph
