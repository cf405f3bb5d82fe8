import CodeGraph.CfgCanonical

/-!
# The round trip through an id

`parseCompact` after `compact`. The reader takes a word to be non-empty, the
printer writes an empty one for an empty string literal: the text reads back
exactly when no string literal of the predicate is empty.
-/

namespace CodeGraph

open Option List

namespace CfgPredicate

/-! ## The reader's fuel -/

/-- Every successful call reads at least one byte, except that the empty list
is read by its closing bracket. -/
theorem read_rest_lt : ∀ (fuel : Nat) {bytes rest : List UInt8},
    (∀ {p : CfgPredicate}, readPredicate fuel bytes = some (p, rest) →
      rest.length < bytes.length) ∧
    (∀ {items : List CfgPredicate}, readList fuel bytes = some (items, rest) →
      rest.length ≤ bytes.length) ∧
    (∀ {items : List CfgPredicate}, readItems fuel bytes = some (items, rest) →
      rest.length < bytes.length)
  | 0, _, _ => ⟨nofun, nofun, nofun⟩
  | fuel + 1, bytes, rest => by
      refine ⟨fun h => ?_, fun h => ?_, fun h => ?_⟩
      · obtain ⟨_, tail, hword, hcase⟩ := readPredicate_cases h
        have hlt := (word_some hword).2
        have htail : tail.tail.length ≤ tail.length := by simp
        obtain ⟨_, hlist, -⟩ | ⟨_, hvalue, -⟩ | ⟨-, rfl⟩ := hcase
        · have := (read_rest_lt fuel).2.1 hlist
          omega
        · have := (word_some hvalue).2
          omega
        · exact hlt
      · obtain ⟨-, rfl⟩ | hitems := readList_cases h
        · simp
        · exact ((read_rest_lt fuel).2.2 hitems).le
      · obtain ⟨_, _, tail, hitem, -, htail⟩ := readItems_cases h
        have hlt := (read_rest_lt fuel).1 hitem
        have htl : tail.tail.length ≤ tail.length := by simp
        obtain hitems | ⟨-, rfl⟩ := htail
        · have := (read_rest_lt fuel).2.2 hitems
          omega
        · omega

/-- Fuel past three times the number of bytes changes nothing. -/
theorem read_stable : ∀ (n m : Nat) (bytes : List UInt8),
    (3 * bytes.length < n → 3 * bytes.length < m →
      readPredicate n bytes = readPredicate m bytes) ∧
    (3 * bytes.length + 2 < n → 3 * bytes.length + 2 < m →
      readList n bytes = readList m bytes) ∧
    (3 * bytes.length + 1 < n → 3 * bytes.length + 1 < m →
      readItems n bytes = readItems m bytes)
  | 0, _, _ => ⟨nofun, nofun, nofun⟩
  | _, 0, _ => ⟨nofun, nofun, nofun⟩
  | n + 1, m + 1, bytes => by
      refine ⟨fun hn hm => ?_, fun hn hm => ?_, fun hn hm => ?_⟩
      · rw [readPredicate, readPredicate]
        cases hword : word bytes with
        | none => rfl
        | some found =>
            obtain ⟨name, rest⟩ := found
            have hlt := (word_some hword).2
            simp only [bind_eq_bind, bind_some]
            split
            · next hopen =>
              have hpos : rest ≠ [] := by rintro rfl; simp at hopen
              have htail : rest.tail.length + 1 = rest.length := by
                have := length_pos_iff.mpr hpos
                simp only [length_tail]
                omega
              rw [((read_stable n m rest.tail).2.1 (by omega) (by omega))]
            · rfl
      · rw [readList, readList, ((read_stable n m bytes).2.2 (by omega) (by omega))]
      · rw [readItems, readItems, ((read_stable n m bytes).1 (by omega) (by omega))]
        cases hitem : readPredicate m bytes with
        | none => rfl
        | some found =>
            obtain ⟨item, rest⟩ := found
            have hlt := (read_rest_lt m).1 hitem
            have htail : rest.tail.length ≤ rest.length := by simp
            simp only [bind_eq_bind, bind_some]
            rw [((read_stable n m rest.tail).2.2 (by omega) (by omega))]

variable {text : Text} {p : CfgPredicate}

theorem parseCompact_eq {n : Nat}
    (h : ∀ fuel, n ≤ fuel → readPredicate fuel (Percent.utf8 text) = some (p, [])) :
    parseCompact text = some p := by
  have hstable := (read_stable (readFuel (Percent.utf8 text))
    (max n (readFuel (Percent.utf8 text))) (Percent.utf8 text)).1
    (by unfold readFuel; omega) (by unfold readFuel; omega)
  simp [parseCompact, hstable, h _ (le_max_left _ _)]

/-! ## String literals -/

/-- The string a leaf was written with, if it has one. -/
def literal : CfgPredicate → Option Text
  | .feature name => some name
  | .option _ value => value
  | _ => none

/-- The contents of the string literals of a predicate. -/
def literals (p : CfgPredicate) : List Text := p.leaves.filterMap literal

theorem mem_literals_group {isAll : Bool} {items : List CfgPredicate} {s : Text} :
    s ∈ (group isAll items).literals ↔ ∃ p ∈ items, s ∈ p.literals := by
  simp only [literals, mem_filterMap, mem_leaves_group]
  constructor
  · rintro ⟨leaf, ⟨p, hp, hleaf⟩, hs⟩
    exact ⟨p, hp, leaf, hleaf, hs⟩
  · rintro ⟨p, hp, leaf, hleaf, hs⟩
    exact ⟨leaf, ⟨p, hp, hleaf⟩, hs⟩

theorem mem_literals_canonical {s : Text} : s ∈ p.canonical.literals ↔ s ∈ p.literals := by
  simp only [literals, mem_filterMap, mem_leaves_canonical]

/-- The reader only returns predicates without empty string literals: it read
each of them as a word. -/
theorem read_literals : ∀ (fuel : Nat) {bytes rest : List UInt8},
    (∀ {p : CfgPredicate}, readPredicate fuel bytes = some (p, rest) →
      ∀ s ∈ p.literals, s ≠ []) ∧
    (∀ {items : List CfgPredicate}, readList fuel bytes = some (items, rest) →
      ∀ p ∈ items, ∀ s ∈ p.literals, s ≠ []) ∧
    (∀ {items : List CfgPredicate}, readItems fuel bytes = some (items, rest) →
      ∀ p ∈ items, ∀ s ∈ p.literals, s ≠ [])
  | 0, _, _ => ⟨nofun, nofun, nofun⟩
  | fuel + 1, bytes, rest => by
      refine ⟨fun h => ?_, fun h => ?_, fun h => ?_⟩
      · obtain ⟨name, tail, hword, hcase⟩ := readPredicate_cases h
        obtain ⟨items, hlist, hp⟩ | ⟨value, hvalue, hp⟩ | ⟨rfl, -⟩ := hcase
        · have hitems := (read_literals fuel).2.1 hlist
          obtain ⟨isAll, rfl⟩ | ⟨inner, rfl, rfl⟩ := hp
          · intro s hs
            obtain ⟨p, hp, hs⟩ := mem_literals_group.mp hs
            exact hitems p hp s hs
          · exact hitems inner (by simp)
        · have hne := (word_some hvalue).1
          obtain rfl | rfl := hp <;> simpa [literals, leaves, literal] using hne
        · simp [literals, leaves, literal]
      · obtain ⟨rfl, -⟩ | hitems := readList_cases h
        · simp
        · exact (read_literals fuel).2.2 hitems
      · obtain ⟨item, items', tail, hitem, rfl, htail⟩ := readItems_cases h
        have hfirst := (read_literals fuel).1 hitem
        have hrest : ∀ p ∈ items', ∀ s ∈ p.literals, s ≠ [] := by
          obtain hitems | ⟨rfl, -⟩ := htail
          · exact (read_literals fuel).2.2 hitems
          · simp
        intro p hp
        rcases mem_cons.mp hp with rfl | hp
        · exact hfirst
        · exact hrest p hp

theorem parseCompact_literals (h : parseCompact text = some p) : ∀ s ∈ p.literals, s ≠ [] := by
  obtain ⟨⟨q, rest⟩, hread, h⟩ := bind_eq_some_iff.mp h
  obtain ⟨-, rfl⟩ : rest = [] ∧ q = p := by simpa using h
  exact (read_literals _).1 hread

/-! ## Reading back what was printed -/

/-- Bytes that do not go on with the word before them. -/
def ByteStops (bytes : List UInt8) : Prop := ∀ b ∈ bytes.head?, isWordByte b = false

/-- Bytes that are over, or go on with what may follow a predicate. -/
def ByteEnds (bytes : List UInt8) : Prop := ∀ b ∈ bytes.head?, b = byte ',' ∨ b = byte ')'

theorem ByteEnds.stops {bytes : List UInt8} (h : ByteEnds bytes) : ByteStops bytes := by
  intro b hb
  rcases h b hb with rfl | rfl <;> decide

theorem isWordByte_hexByte : ∀ {n : Nat}, n < 16 → isWordByte (Percent.hexByte n) = true := by
  decide

theorem isWordByte_of_mem_encode {b : UInt8}
    (h : b ∈ Percent.utf8 (encode text)) : isWordByte b = true := by
  rcases Percent.mem_utf8_encode escaping.ascii h with hb | rfl | ⟨n, hn, rfl⟩
  · simp [isWordByte, hb]
  · decide
  · exact isWordByte_hexByte hn

variable {rest : List UInt8}

/-- An encoded word is read back, up to the delimiter after it. -/
theorem word_encode (hne : text ≠ []) (hrest : ByteStops rest) :
    word (Percent.utf8 (encode text) ++ rest) = some (text, rest) := by
  have hall : ∀ b ∈ Percent.utf8 (encode text), isWordByte b = true :=
    fun b => isWordByte_of_mem_encode
  have hstop : rest.takeWhile isWordByte = [] ∧ rest.dropWhile isWordByte = rest := by
    cases rest with
    | nil => exact ⟨rfl, rfl⟩
    | cons b rest => simp [hrest b rfl]
  have hdecode : Percent.decode hexPair (Percent.utf8 (encode text)) = some text :=
    Percent.decode_encode escaping text
  simp only [word, takeWhile_append_of_pos hall, dropWhile_append_of_pos hall, hstop,
    append_nil, hdecode]
  simp [Option.filter, hne]

theorem utf8_cons_byte {c : Char} (h : c.toNat < 128) (text : Text) :
    Percent.utf8 (c :: text) = byte c :: Percent.utf8 text := by
  have := Percent.utf8EncodeChar_ofNat h
  rw [Char.ofNat_toNat] at this
  rw [Percent.utf8_cons, this]
  rfl

/-- `p`'s text is read back, given enough fuel. -/
def Reads (p : CfgPredicate) : Prop :=
  ∀ rest, ByteEnds rest → ∃ n, ∀ fuel, n ≤ fuel →
    readPredicate fuel (Percent.utf8 p.compact ++ rest) = some (p, rest)

theorem readItems_compactList : ∀ {l : List CfgPredicate}, l ≠ [] → (∀ p ∈ l, p.Reads) →
    ∀ rest : List UInt8, ∃ n, ∀ fuel, n ≤ fuel →
      readItems fuel (Percent.utf8 (compactList l) ++ byte ')' :: rest) = some (l, rest)
  | [], h, _, _ => absurd rfl h
  | [p], _, hl, rest => by
      obtain ⟨n, hn⟩ := hl p (by simp) (byte ')' :: rest) (by rintro b ⟨⟩; exact Or.inr rfl)
      refine ⟨n + 1, fun fuel hfuel => ?_⟩
      obtain ⟨fuel, rfl⟩ : ∃ k, fuel = k + 1 := ⟨fuel - 1, by omega⟩
      have hcomma : byte ')' ≠ byte ',' := by decide
      simp only [readItems, compactList, hn fuel (by omega), bind_eq_bind, bind_some,
        head?_cons, Option.some.injEq, if_neg hcomma, if_true, tail_cons]
  | p :: q :: l, _, hl, rest => by
      obtain ⟨m, hm⟩ := readItems_compactList (l := q :: l) (by simp)
        (fun p hp => hl p (mem_cons_of_mem _ hp)) rest
      obtain ⟨n, hn⟩ := hl p (by simp)
        (byte ',' :: (Percent.utf8 (compactList (q :: l)) ++ byte ')' :: rest))
        (by rintro b ⟨⟩; exact Or.inl rfl)
      refine ⟨max m n + 1, fun fuel hfuel => ?_⟩
      obtain ⟨fuel, rfl⟩ : ∃ k, fuel = k + 1 := ⟨fuel - 1, by omega⟩
      have hbytes : Percent.utf8 (compactList (p :: q :: l)) ++ byte ')' :: rest =
          Percent.utf8 p.compact ++
            byte ',' :: (Percent.utf8 (compactList (q :: l)) ++ byte ')' :: rest) := by
        rw [compactList_cons, if_neg (by simp), Percent.utf8_append, utf8_cons_byte (by decide)]
        simp
      simp only [readItems, hbytes, hn fuel (by omega), bind_eq_bind, bind_some,
        head?_cons, if_true, tail_cons, hm fuel (by omega)]

/-- A predicate's text starts with a word byte, so a list that has one does
not look empty. -/
theorem head?_utf8_compact_ne (h : p.WellFormed) (c : Char)
    (hc : isWordByte (byte c) = false) (rest : List UInt8) :
    (Percent.utf8 p.compact ++ rest).head? ≠ some (byte c) := by
  obtain ⟨b, w, hw⟩ := exists_cons_of_ne_nil (l := Percent.utf8 (encode p.key)) <| by
    intro he
    have hnil : encode p.key = [] := Percent.utf8_injective (he.trans Percent.utf8_nil.symm)
    exact key_ne_nil h (Percent.encode_eq_nil.mp hnil)
  have hb : isWordByte b = true := isWordByte_of_mem_encode (by rw [hw]; exact mem_cons_self)
  rw [compact_eq, Percent.utf8_append, hw]
  simp only [cons_append, head?_cons, ne_eq, Option.some.injEq]
  rintro rfl
  exact Bool.noConfusion (hb.symm.trans hc)

theorem readList_compactList {l : List CfgPredicate} (hwf : AllWellFormed l)
    (hl : ∀ p ∈ l, p.Reads) (rest : List UInt8) : ∃ n, ∀ fuel, n ≤ fuel →
      readList fuel (Percent.utf8 (compactList l) ++ byte ')' :: rest) = some (l, rest) := by
  cases l with
  | nil =>
      refine ⟨1, fun fuel hfuel => ?_⟩
      obtain ⟨fuel, rfl⟩ : ∃ k, fuel = k + 1 := ⟨fuel - 1, by omega⟩
      simp [readList, compactList]
  | cons p l =>
      obtain ⟨n, hn⟩ := readItems_compactList (cons_ne_nil p l) hl rest
      refine ⟨n + 1, fun fuel hfuel => ?_⟩
      obtain ⟨fuel, rfl⟩ : ∃ k, fuel = k + 1 := ⟨fuel - 1, by omega⟩
      have hhead : (Percent.utf8 (compactList (p :: l)) ++ byte ')' :: rest).head? ≠
          some (byte ')') := by
        rw [compactList_cons, Percent.utf8_append, append_assoc]
        exact head?_utf8_compact_ne (hwf p (by simp)) ')' (by decide) _
      rw [readList, if_neg hhead, hn fuel (by omega)]

variable {key : Text}

theorem readPredicate_items {l : List CfgPredicate}
    (hkey : key ≠ []) (hwf : AllWellFormed l) (hl : ∀ p ∈ l, p.Reads)
    (hp : (key = kwAll ∧ p = .all l) ∨ (key = kwAny ∧ p = .any l) ∨
      (key = kwNot ∧ ∃ inner, l = [inner] ∧ p = .not inner))
    (rest : List UInt8) : ∃ n, ∀ fuel, n ≤ fuel → readPredicate fuel
        (Percent.utf8 (encode key ++ (Body.items l).text) ++ rest) = some (p, rest) := by
  obtain ⟨n, hn⟩ := readList_compactList hwf hl rest
  refine ⟨n + 1, fun fuel hfuel => ?_⟩
  obtain ⟨fuel, rfl⟩ : ∃ k, fuel = k + 1 := ⟨fuel - 1, by omega⟩
  have hbytes : Percent.utf8 (encode key ++ (Body.items l).text) ++ rest =
      Percent.utf8 (encode key) ++
        byte '(' :: (Percent.utf8 (compactList l) ++ byte ')' :: rest) := by
    rw [Percent.utf8_append, Body.text, utf8_cons_byte (by decide), Percent.utf8_append,
      utf8_cons_byte (by decide)]
    simp
  have hstop : ByteStops (byte '(' :: (Percent.utf8 (compactList l) ++ byte ')' :: rest)) := by
    rintro b ⟨⟩
    decide
  have hword := word_encode hkey hstop
  simp only [readPredicate, hbytes, hword, bind_eq_bind, bind_some, head?_cons,
    if_true, tail_cons, hn fuel (by omega)]
  have hdistinct : kwAny ≠ kwAll ∧ kwNot ≠ kwAll ∧ kwNot ≠ kwAny := by decide
  obtain ⟨rfl, rfl⟩ | ⟨rfl, rfl⟩ | ⟨rfl, inner, rfl, rfl⟩ := hp
  · simp
  · simp [hdistinct.1]
  · simp [hdistinct.2.1, hdistinct.2.2]

theorem readPredicate_value {v : Text} (hkey : key ≠ []) (hv : v ≠ [])
    (hp : (key = kwFeature ∧ p = .feature v) ∨ (key ≠ kwFeature ∧ p = .option key (some v))) (hrest : ByteEnds rest) (fuel : Nat) :
    readPredicate (fuel + 1) (Percent.utf8 (encode key ++ (Body.value v).text) ++ rest) =
      some (p, rest) := by
  have hbytes : Percent.utf8 (encode key ++ (Body.value v).text) ++ rest =
      Percent.utf8 (encode key) ++ byte '=' :: (Percent.utf8 (encode v) ++ rest) := by
    rw [Percent.utf8_append, Body.text, utf8_cons_byte (by decide)]
    simp
  have hstop : ByteStops (byte '=' :: (Percent.utf8 (encode v) ++ rest)) := by
    rintro b ⟨⟩
    decide
  have hword := word_encode hkey hstop
  have hopen : byte '=' ≠ byte '(' := by decide
  simp only [readPredicate, hbytes, hword, bind_eq_bind, bind_some, head?_cons,
    Option.some.injEq, if_neg hopen, if_true, tail_cons, word_encode hv hrest.stops]
  obtain ⟨rfl, rfl⟩ | ⟨hne, rfl⟩ := hp
  · simp
  · simp [hne]

theorem readPredicate_bare (hkey : key ≠ []) (hrest : ByteEnds rest) (fuel : Nat) :
    readPredicate (fuel + 1) (Percent.utf8 (encode key) ++ rest) =
      some (.option key none, rest) := by
  have hdelimiter : ∀ c, byte c ≠ byte ',' → byte c ≠ byte ')' → rest.head? ≠ some (byte c) :=
    fun c hcomma hclose hhead => (hrest _ hhead).elim hcomma hclose
  simp only [readPredicate, word_encode hkey hrest.stops, bind_eq_bind, bind_some,
    if_neg (hdelimiter '(' (by decide) (by decide)),
    if_neg (hdelimiter '=' (by decide) (by decide))]

theorem reads (p : CfgPredicate) : p.WellFormed → (∀ s ∈ p.literals, s ≠ []) → p.Reads := by
  have hkw : kwFeature ≠ [] ∧ kwAll ≠ [] ∧ kwAny ≠ [] ∧ kwNot ≠ [] := by decide
  induction p using groupInduction with
  | feature name =>
      intro _ hlit rest hrest
      have hname : name ≠ [] := hlit name (by simp [literals, leaves, literal])
      refine ⟨1, fun fuel hfuel => ?_⟩
      obtain ⟨fuel, rfl⟩ : ∃ k, fuel = k + 1 := ⟨fuel - 1, by omega⟩
      rw [compact_eq]
      exact readPredicate_value hkw.1 hname (Or.inl ⟨rfl, rfl⟩) hrest fuel
  | option key value =>
      intro hwf hlit rest hrest
      obtain ⟨hkey, hfeature⟩ := wellFormed_option.mp hwf
      refine ⟨1, fun fuel hfuel => ?_⟩
      obtain ⟨fuel, rfl⟩ : ∃ k, fuel = k + 1 := ⟨fuel - 1, by omega⟩
      rw [compact_eq]
      cases value with
      | none =>
          simp only [CfgPredicate.key, body, Body.text, append_nil]
          exact readPredicate_bare hkey hrest fuel
      | some v =>
          have hv : v ≠ [] := hlit v (by simp [literals, leaves, literal])
          exact readPredicate_value hkey hv (Or.inr ⟨hfeature (by simp), rfl⟩) hrest fuel
  | group isAll items ih =>
      intro hwf hlit rest _
      have hitems := wellFormed_group.mp hwf
      have hreads : ∀ p ∈ items, p.Reads := fun p hp =>
        ih p hp (hitems p hp) fun s hs => hlit s (mem_literals_group.mpr ⟨p, hp, hs⟩)
      rw [compact_eq]
      cases isAll with
      | true => exact readPredicate_items hkw.2.1 hitems hreads (Or.inl ⟨rfl, rfl⟩) rest
      | false =>
          exact readPredicate_items hkw.2.2.1 hitems hreads (Or.inr (Or.inl ⟨rfl, rfl⟩)) rest
  | not inner ih =>
      intro hwf hlit rest _
      have hreads : ∀ p ∈ [inner], p.Reads := by simpa using ih hwf hlit
      have hwf : AllWellFormed [inner] := by simpa [AllWellFormed] using hwf
      rw [compact_eq]
      exact readPredicate_items hkw.2.2.2 hwf hreads (Or.inr (Or.inr ⟨rfl, inner, rfl, rfl⟩)) rest

/-! ## The round trip -/

theorem parseCompact_compact (hwf : p.WellFormed)
    (hlit : ∀ s ∈ p.literals, s ≠ []) : parseCompact p.compact = some p := by
  obtain ⟨n, hn⟩ := reads p hwf hlit [] nofun
  exact parseCompact_eq fun fuel hfuel => by simpa using hn fuel hfuel

example : parseCompact (compact (.not (.option ['a'] none))) = some (.not (.option ['a'] none)) := by
  decide +kernel

/-- The compact text of a parsed predicate's canonical form reads back to it
exactly when no string literal of the predicate is empty. -/
theorem parseCompact_canonical_iff {cc : CharClass} {text : Text} {p : CfgPredicate}
    (h : parseCfgArguments cc text = some p) :
    parseCompact p.canonical.compact = some p.canonical ↔ ∀ s ∈ p.literals, s ≠ [] := by
  have hp := parseCfgArguments_wellFormed h
  constructor
  · intro hread s hs
    exact parseCompact_literals hread s (mem_literals_canonical.mpr hs)
  · intro hlit
    exact parseCompact_compact hp.canonical fun s hs => hlit s (mem_literals_canonical.mp hs)

/-- `(all(unix, feature = "a b"))` survives the round trip. -/
theorem parseCompact_canonical_iff_spaced :
    ∃ p, parseCfgArguments .ascii "(all(unix, feature = \"a b\"))".toList = some p ∧
      parseCompact p.canonical.compact = some p.canonical := by
  let p : CfgPredicate := .all [.option "unix".toList none, .feature "a b".toList]
  have hp : parseCfgArguments .ascii "(all(unix, feature = \"a b\"))".toList = some p := by
    decide +kernel
  exact ⟨p, hp, (parseCompact_canonical_iff hp).mpr (by decide +kernel)⟩

/-- `(feature = "")` is accepted, and its compact text `feature=` is not read. -/
theorem empty_literal_does_not_read_back :
    ¬ ∀ (cc : CharClass) (text : Text) (p : CfgPredicate), parseCfgArguments cc text = some p →
      parseCompact p.canonical.compact = some p.canonical := by
  intro h
  have hparse : parseCfgArguments .ascii "(feature = \"\")".toList = some (.feature []) := by
    decide +kernel
  have hread : parseCompact (canonical (.feature [])).compact = none := by decide +kernel
  have hsome := h _ _ _ hparse
  rw [hread] at hsome
  cases hsome

end CfgPredicate

end CodeGraph
