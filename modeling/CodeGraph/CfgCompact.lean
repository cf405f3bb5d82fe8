import CodeGraph.CfgExpr

/-!
# The compact text of a predicate

The text that identifies a `#[cfg]` twin, `not(feature=fast)`, and the reader
that turns it back into a predicate. The reader works on bytes; the first half
of this module is what the text looks like, the second half the reader itself.
-/

namespace CodeGraph

open List

namespace CfgPredicate

/-! ## The shape of the text

Every compact text is a word, followed by nothing, by `=` and a word, or by a
bracketed list. `key` and `body` are the two parts, the word still unescaped; a
well-formed predicate is determined by them (`eq_of_key_body`). -/

/-- What follows the first word of a compact text. -/
inductive Body where
  | bare
  | value (v : Text)
  | items (l : List CfgPredicate)

def Body.text : Body → Text
  | .bare => []
  | .value v => '=' :: encode v
  | .items l => '(' :: (compactList l ++ [')'])

/-- The first word of the compact text, before it is encoded. -/
def key : CfgPredicate → Text
  | .feature _ => kwFeature
  | .option key _ => key
  | .all _ => kwAll
  | .any _ => kwAny
  | .not _ => kwNot

def body : CfgPredicate → Body
  | .feature name => .value name
  | .option _ none => .bare
  | .option _ (some v) => .value v
  | .all items => .items items
  | .any items => .items items
  | .not inner => .items [inner]

theorem encode_keyword : ∀ word ∈ [kwFeature, kwAll, kwAny, kwNot], encode word = word := by
  decide

theorem compact_eq (p : CfgPredicate) : p.compact = encode p.key ++ p.body.text := by
  have hkw := encode_keyword
  simp only [forall_mem_cons, not_mem_nil, false_implies, implies_true] at hkw
  obtain ⟨hfeature, hall, hany, hnot, -⟩ := hkw
  cases p with
  | option k value => cases value <;> simp [compact, key, body, Body.text]
  | _ => simp_all [compact, compactList, key, body, Body.text]

/-! ### Words -/

/-- A character of an encoded word. -/
def IsWordChar (c : Char) : Prop := c.isAlphanum = true ∨ c = '_' ∨ c = '-' ∨ c = '%'

instance (c : Char) : Decidable (IsWordChar c) := inferInstanceAs (Decidable (_ ∨ _))

/-- A text that does not go on with the word before it. -/
def Stops (text : Text) : Prop := ∀ c ∈ text.head?, ¬ IsWordChar c

/-- A text that is over, or goes on with what may follow a predicate. -/
def Ends (text : Text) : Prop := ∀ c ∈ text.head?, c = ',' ∨ c = ')'

variable {text : Text}

theorem Ends.stops (h : Ends text) : Stops text := by
  intro c hc
  rcases h c hc with rfl | rfl <;> decide

theorem Ends.ne_cons {rest : Text} {c : Char} (h : Ends text) (hc : c ≠ ',')
    (hc' : c ≠ ')') : text ≠ c :: rest := by
  rintro rfl
  exact (h c rfl).elim hc hc'

theorem isPlainByte_ascii {byte : UInt8} (h : isPlainByte byte = true) : byte.toNat < 128 := by
  simp only [isPlainByte, Bool.or_eq_true, Bool.and_eq_true, decide_eq_true_eq,
    UInt8.le_iff_toNat_le] at h
  rcases h with (((⟨-, h⟩ | ⟨-, h⟩) | ⟨-, h⟩) | rfl) | rfl
  · exact h.trans_lt (by decide)
  · exact h.trans_lt (by decide)
  · exact h.trans_lt (by decide)
  · decide
  · decide

theorem isWordChar_ofNat_of_isPlainByte : ∀ {n : Nat}, n < 128 →
    isPlainByte (UInt8.ofNat n) = true → IsWordChar (Char.ofNat n) := by
  decide

theorem isWordChar_hexDigit : ∀ {n : Nat}, n < 16 → IsWordChar (Percent.hexDigit n) := by
  decide

theorem isWordChar_of_mem_encode {c : Char} (h : c ∈ encode text) : IsWordChar c := by
  rcases Percent.mem_encode h with ⟨b, hb, rfl⟩ | rfl | ⟨n, hn, rfl⟩
  · exact isWordChar_ofNat_of_isPlainByte (isPlainByte_ascii hb) (by simpa using hb)
  · exact Or.inr (Or.inr (Or.inr rfl))
  · exact isWordChar_hexDigit hn

/-- Words end where a delimiter starts, so a text splits into its first word
and the rest in one way. -/
theorem word_append_inj {a b r s : Text} (ha : ∀ c ∈ a, IsWordChar c)
    (hb : ∀ c ∈ b, IsWordChar c) (hr : Stops r) (hs : Stops s) (h : a ++ r = b ++ s) :
    a = b ∧ r = s := by
  have hsplit : ∀ {a r : Text}, (∀ c ∈ a, IsWordChar c) → Stops r →
      (a ++ r).takeWhile (IsWordChar ·) = a := by
    intro a r ha hr
    have hnil : r.takeWhile (IsWordChar ·) = [] := by
      cases r with
      | nil => rfl
      | cons c r =>
          rw [takeWhile_cons, if_neg]
          simpa using hr c rfl
    rw [takeWhile_append_of_pos (by simpa using ha), hnil, append_nil]
  have hab : a = b := by rw [← hsplit ha hr, h, hsplit hb hs]
  subst hab
  exact ⟨rfl, append_cancel_left h⟩

theorem stops_body_append {b : Body} {r : Text} (hr : Ends r) : Stops (b.text ++ r) := by
  cases b with
  | bare => exact hr.stops
  | value v =>
      rintro c ⟨⟩
      decide
  | items l =>
      rintro c ⟨⟩
      decide

/-! ### Unique readability -/

/-- `decode` reads the two bytes after a `%` as a hexadecimal number. -/
def hexPair (hi lo : UInt8) : Option UInt8 := do
  let hex ← Percent.fromUtf8 [hi, lo]
  let n ← fromStrRadix16 256 hex
  some (UInt8.ofNat n)

theorem hexPair_hexByte : ∀ {n : Nat}, n < 256 →
    hexPair (Percent.hexByte (n / 16)) (Percent.hexByte (n % 16)) = some (UInt8.ofNat n) := by
  decide +kernel

theorem escaping : Percent.Escaping isPlainByte hexPair where
  ascii := fun _ h => isPlainByte_ascii h
  percent := by decide
  hex := fun b => by simpa using hexPair_hexByte b.toNat_lt

theorem encode_injective : Function.Injective encode := Percent.encode_injective escaping

variable {p : CfgPredicate}

theorem eq_of_key_body {q : CfgPredicate} (hp : p.WellFormed) (hq : q.WellFormed)
    (hkey : p.key = q.key) (hbody : p.body = q.body) : p = q := by
  have hfeature : ∀ {key : Text} {v : Text}, (option key (some v)).WellFormed →
      kwFeature ≠ key := fun h => ((wellFormed_option.mp h).2 (by simp)).symm
  have hall : kwAll ≠ kwAny := by decide
  have hnot : kwNot ≠ kwAll ∧ kwNot ≠ kwAny := by decide
  cases p with
  | feature name =>
      cases q with
      | feature _ => simp_all [body]
      | option key value =>
          cases value with
          | none => simp [body] at hbody
          | some v => exact absurd hkey (hfeature hq)
      | _ => simp [body] at hbody
  | option key value =>
      cases q with
      | feature _ =>
          cases value with
          | none => simp [body] at hbody
          | some v => exact absurd hkey.symm (hfeature hp)
      | option key' value' =>
          have : key = key' := hkey
          cases value <;> cases value' <;> simp_all [body]
      | _ => cases value <;> simp [body] at hbody
  | all items =>
      cases q with
      | option _ value => cases value <;> simp [body] at hbody
      | _ => simp_all [CfgPredicate.key, body]
  | any items =>
      cases q with
      | option _ value => cases value <;> simp [body] at hbody
      | _ => simp_all [CfgPredicate.key, body]
  | not inner =>
      cases q with
      | option _ value => cases value <;> simp [body] at hbody
      | _ => simp_all [CfgPredicate.key, body]

/-- `p`'s text can be read off the front of a text in no other way. -/
def ReadsAlone (p : CfgPredicate) : Prop :=
  ∀ (q : CfgPredicate) (r s : Text), q.WellFormed → Ends r → Ends s →
    p.compact ++ r = q.compact ++ s → p = q ∧ r = s

theorem key_ne_nil (h : p.WellFormed) : p.key ≠ [] := by
  have hkw : kwFeature ≠ [] ∧ kwAll ≠ [] ∧ kwAny ≠ [] ∧ kwNot ≠ [] := by decide
  cases p with
  | option key value => exact (wellFormed_option.mp h).1
  | feature name => exact hkw.1
  | all items => exact hkw.2.1
  | any items => exact hkw.2.2.1
  | not inner => exact hkw.2.2.2

theorem not_stops_compact_append (h : p.WellFormed) (r : Text) : ¬ Stops (p.compact ++ r) := by
  obtain ⟨c, w, hw⟩ := exists_cons_of_ne_nil
    fun he => key_ne_nil h (Percent.encode_eq_nil.mp he)
  have hw : encode p.key = c :: w := hw
  intro hstop
  refine hstop c (by simp [compact_eq, hw]) ?_
  exact isWordChar_of_mem_encode (by rw [hw]; exact mem_cons_self)

theorem compactList_cons (p : CfgPredicate) (l : List CfgPredicate) :
    compactList (p :: l) = p.compact ++ if l = [] then [] else ',' :: compactList l := by
  cases l with
  | nil => simp [compactList]
  | cons q l => simp [compactList]

theorem ends_close (r : Text) : Ends (')' :: r) := by
  rintro c ⟨⟩
  exact Or.inr rfl

theorem ends_comma (r : Text) : Ends (',' :: r) := by
  rintro c ⟨⟩
  exact Or.inl rfl

theorem compactList_unique : ∀ {l m : List CfgPredicate} {r s : Text},
    (∀ p ∈ l, p.ReadsAlone) → (∀ p ∈ l, p.WellFormed) → (∀ q ∈ m, q.WellFormed) →
    compactList l ++ ')' :: r = compactList m ++ ')' :: s → l = m ∧ r = s
  | [], [], _, _, _, _, _, h => ⟨rfl, (List.cons.inj h).2⟩
  | [], q :: m, r, s, _, _, hm, h => by
      refine absurd (ends_close r).stops ?_
      have h : ')' :: r = compactList (q :: m) ++ ')' :: s := h
      rw [h, compactList_cons, append_assoc]
      exact not_stops_compact_append (hm q (by simp)) _
  | p :: l, [], r, s, _, hl, _, h => by
      refine absurd (ends_close s).stops ?_
      have h : compactList (p :: l) ++ ')' :: r = ')' :: s := h
      rw [← h, compactList_cons, append_assoc]
      exact not_stops_compact_append (hl p (by simp)) _
  | p :: l, q :: m, r, s, hread, hl, hm, h => by
      rw [compactList_cons, compactList_cons, append_assoc, append_assoc] at h
      have hends : ∀ (l : List CfgPredicate) (r : Text),
          Ends ((if l = [] then [] else ',' :: compactList l) ++ ')' :: r) := by
        intro l r
        split
        · exact ends_close r
        · exact ends_comma _
      obtain ⟨rfl, hrest⟩ := hread p (by simp) q _ _ (hm q (by simp)) (hends l r) (hends m s) h
      have htail : ∀ p ∈ l, p.ReadsAlone := fun p hp => hread p (mem_cons_of_mem _ hp)
      have hl : ∀ p ∈ l, p.WellFormed := fun p hp => hl p (mem_cons_of_mem _ hp)
      have hm : ∀ q ∈ m, q.WellFormed := fun q hq => hm q (mem_cons_of_mem _ hq)
      by_cases hlnil : l = []
      · by_cases hmnil : m = []
        · subst hlnil hmnil
          exact ⟨rfl, by simpa using hrest⟩
        · simp [hlnil, hmnil] at hrest
      · by_cases hmnil : m = []
        · simp [hlnil, hmnil] at hrest
        · rw [if_neg hlnil, if_neg hmnil, cons_append, cons_append] at hrest
          obtain ⟨rfl, hrs⟩ := compactList_unique htail hl hm (List.cons.inj hrest).2
          exact ⟨rfl, hrs⟩

theorem wellFormed_of_mem_items {l : List CfgPredicate} (h : p.WellFormed)
    (hbody : p.body = .items l) : ∀ q ∈ l, q.WellFormed := by
  cases p with
  | option key value => cases value <;> simp [body] at hbody
  | feature name => simp [body] at hbody
  | all items =>
      cases hbody
      exact (@wellFormed_group true l).mp h
  | any items =>
      cases hbody
      exact (@wellFormed_group false l).mp h
  | not inner =>
      cases hbody
      simpa using h

/-- One step of the induction: reading `p` alone reduces to reading the items
of its body alone. -/
theorem readsAlone_of_items (hp : p.WellFormed)
    (hitems : ∀ l, p.body = .items l → ∀ q ∈ l, q.ReadsAlone) : p.ReadsAlone := by
  intro q r s hq hr hs h
  rw [compact_eq p, compact_eq q, append_assoc, append_assoc] at h
  obtain ⟨hkey, h⟩ := word_append_inj (fun _ => isWordChar_of_mem_encode)
    (fun _ => isWordChar_of_mem_encode) (stops_body_append hr) (stops_body_append hs) h
  suffices hb : p.body = q.body ∧ r = s from
    ⟨eq_of_key_body hp hq (encode_injective hkey) hb.1, hb.2⟩
  cases hpb : p.body with
  | bare =>
      cases hqb : q.body with
      | bare => simpa [hpb, hqb, Body.text] using h
      | value v =>
          have h : r = '=' :: (encode v ++ s) := by simpa [hpb, hqb, Body.text] using h
          exact absurd h (hr.ne_cons (by decide) (by decide))
      | items m =>
          have h : r = '(' :: (compactList m ++ ')' :: s) := by
            simpa [hpb, hqb, Body.text] using h
          exact absurd h (hr.ne_cons (by decide) (by decide))
  | value v =>
      cases hqb : q.body with
      | bare =>
          have h : s = '=' :: (encode v ++ r) := by simpa [hpb, hqb, Body.text] using h.symm
          exact absurd h (hs.ne_cons (by decide) (by decide))
      | value w =>
          simp only [hpb, hqb, Body.text, cons_append, List.cons.injEq, true_and] at h
          obtain ⟨hvw, hrs⟩ := word_append_inj (fun _ => isWordChar_of_mem_encode)
            (fun _ => isWordChar_of_mem_encode) hr.stops hs.stops h
          exact ⟨by rw [encode_injective hvw], hrs⟩
      | items m => simp [hpb, hqb, Body.text] at h
  | items l =>
      cases hqb : q.body with
      | bare =>
          have h : s = '(' :: (compactList l ++ ')' :: r) := by
            simpa [hpb, hqb, Body.text] using h.symm
          exact absurd h (hs.ne_cons (by decide) (by decide))
      | value w => simp [hpb, hqb, Body.text] at h
      | items m =>
          have h : compactList l ++ ')' :: r = compactList m ++ ')' :: s := by
            simpa [hpb, hqb, Body.text] using h
          obtain ⟨rfl, hrs⟩ := compactList_unique (hitems l hpb)
            (wellFormed_of_mem_items hp hpb) (wellFormed_of_mem_items hq hqb) h
          exact ⟨rfl, hrs⟩

theorem readsAlone (p : CfgPredicate) : p.WellFormed → p.ReadsAlone := by
  induction p using groupInduction with
  | feature name =>
      intro hp
      exact readsAlone_of_items hp fun l hl => by simp [body] at hl
  | option key value =>
      intro hp
      exact readsAlone_of_items hp fun l hl => by cases value <;> simp [body] at hl
  | group isAll items ih =>
      refine fun hp => readsAlone_of_items hp ?_
      intro l hl q hq
      have hl : l = items := by cases isAll <;> cases hl <;> rfl
      subst hl
      exact ih q hq (wellFormed_group.mp hp q hq)
  | not inner ih =>
      refine fun hp => readsAlone_of_items hp ?_
      intro l hl q hq
      cases hl
      rw [mem_singleton.mp hq]
      exact ih hp

/-- The compact text tells well-formed predicates apart. -/
theorem compact_injective {q : CfgPredicate} (hp : p.WellFormed) (hq : q.WellFormed)
    (h : p.compact = q.compact) : p = q :=
  (readsAlone p hp q [] [] hq nofun nofun (by rw [h])).1

/-! ## The reader -/

/-- A delimiter as the byte the reader peeks at. -/
def byte (c : Char) : UInt8 := UInt8.ofNat c.toNat

def isWordByte (b : UInt8) : Bool := isPlainByte b || b = Percent.percent

/-- The word the bytes start with, decoded, and the bytes after it. A word is
never empty. -/
def word (bytes : List UInt8) : Option (Text × List UInt8) := do
  let name ← (Percent.decode hexPair (bytes.takeWhile isWordByte)).filter (· ≠ [])
  some (name, bytes.dropWhile isWordByte)

mutual

def readPredicate : Nat → List UInt8 → Option (CfgPredicate × List UInt8)
  | 0, _ => none
  | fuel + 1, bytes => do
      let (name, rest) ← word bytes
      if rest.head? = some (byte '(') then do
        let (items, rest) ← readList fuel rest.tail
        if name = kwAll then some (.all items, rest)
        else if name = kwAny then some (.any items, rest)
        else if name = kwNot then
          match items with
          | [inner] => some (.not inner, rest)
          | _ => none
        else none
      else if rest.head? = some (byte '=') then do
        let (value, rest) ← word rest.tail
        if name = kwFeature then some (.feature value, rest)
        else some (.option name (some value), rest)
      else some (.option name none, rest)

/-- The comma-separated predicates up to and including the closing `)`. -/
def readList : Nat → List UInt8 → Option (List CfgPredicate × List UInt8)
  | 0, _ => none
  | fuel + 1, bytes =>
      if bytes.head? = some (byte ')') then some ([], bytes.tail) else readItems fuel bytes

/-- The loop of `readList`. -/
def readItems : Nat → List UInt8 → Option (List CfgPredicate × List UInt8)
  | 0, _ => none
  | fuel + 1, bytes => do
      let (item, rest) ← readPredicate fuel bytes
      if rest.head? = some (byte ',') then do
        let (items, rest) ← readItems fuel rest.tail
        some (item :: items, rest)
      else if rest.head? = some (byte ')') then some ([item], rest.tail)
      else none

end

/-- Fuel enough for every call: at most three calls read the same bytes. -/
def readFuel (bytes : List UInt8) : Nat := 3 * bytes.length + 1

/-- The predicate a compact gate text spells, or `none` when it spells none. -/
def parseCompact (text : Text) : Option CfgPredicate := do
  let (predicate, rest) ← readPredicate (readFuel (Percent.utf8 text)) (Percent.utf8 text)
  if rest = [] then some predicate else none

/-! ### What the reader reads -/

variable {rest bytes : List UInt8}

theorem word_some {name : Text} (h : word bytes = some (name, rest)) :
    name ≠ [] ∧ rest.length < bytes.length := by
  obtain ⟨decoded, hdecoded, h⟩ := Option.bind_eq_some_iff.mp h
  obtain ⟨rfl, rfl⟩ : decoded = name ∧ bytes.dropWhile isWordByte = rest := by simpa using h
  obtain ⟨hdecode, hne⟩ := Option.filter_eq_some_iff.mp hdecoded
  refine ⟨by simpa using hne, ?_⟩
  cases bytes with
  | nil =>
      have : decoded = [] := by
        have hnil : Percent.decode hexPair [] = some [] := by decide
        rw [takeWhile_nil, hnil] at hdecode
        exact (Option.some.inj hdecode).symm
      simp [this] at hne
  | cons b bytes =>
      by_cases hb : isWordByte b
      · rw [dropWhile_cons, if_pos hb, length_cons]
        exact Nat.lt_succ_of_le (dropWhile_sublist _).length_le
      · have : decoded = [] := by
          have hnil : Percent.decode hexPair [] = some [] := by decide
          rw [takeWhile_cons, if_neg hb, hnil] at hdecode
          exact (Option.some.inj hdecode).symm
        simp [this] at hne

variable {fuel : Nat}

theorem readPredicate_cases (h : readPredicate (fuel + 1) bytes = some (p, rest)) :
    ∃ name tail, word bytes = some (name, tail) ∧
      ((∃ items, readList fuel tail.tail = some (items, rest) ∧
          ((∃ isAll, p = group isAll items) ∨ ∃ inner, items = [inner] ∧ p = .not inner)) ∨
        (∃ value, word tail.tail = some (value, rest) ∧
          (p = .feature value ∨ p = .option name (some value))) ∨
        (p = .option name none ∧ rest = tail)) := by
  rw [readPredicate] at h
  obtain ⟨⟨name, tail⟩, hword, h⟩ := Option.bind_eq_some_iff.mp h
  refine ⟨name, tail, hword, ?_⟩
  dsimp only at h
  split at h
  · obtain ⟨⟨items, after⟩, hlist, h⟩ := Option.bind_eq_some_iff.mp h
    refine Or.inl ⟨items, ?_⟩
    obtain ⟨rfl, hgroup⟩ := group_cases h
    exact ⟨hlist, hgroup⟩
  · split at h
    · obtain ⟨⟨value, after⟩, hvalue, h⟩ := Option.bind_eq_some_iff.mp h
      refine Or.inr (Or.inl ⟨value, ?_⟩)
      dsimp only at h
      split at h
      · cases h
        exact ⟨hvalue, Or.inl rfl⟩
      · cases h
        exact ⟨hvalue, Or.inr rfl⟩
    · cases h
      exact Or.inr (Or.inr ⟨rfl, rfl⟩)

theorem readItems_cases {items : List CfgPredicate}
    (h : readItems (fuel + 1) bytes = some (items, rest)) :
    ∃ item items' tail, readPredicate fuel bytes = some (item, tail) ∧ items = item :: items' ∧
      (readItems fuel tail.tail = some (items', rest) ∨ (items' = [] ∧ rest = tail.tail)) := by
  rw [readItems] at h
  obtain ⟨⟨item, tail⟩, hitem, h⟩ := Option.bind_eq_some_iff.mp h
  refine ⟨item, ?_⟩
  dsimp only at h
  split at h
  · obtain ⟨⟨items', after⟩, hitems, h⟩ := Option.bind_eq_some_iff.mp h
    cases h
    exact ⟨items', tail, hitem, rfl, Or.inl hitems⟩
  · split at h
    · cases h
      exact ⟨[], tail, hitem, rfl, Or.inr ⟨rfl, rfl⟩⟩
    · cases h

theorem readList_cases {items : List CfgPredicate}
    (h : readList (fuel + 1) bytes = some (items, rest)) :
    (items = [] ∧ rest = bytes.tail) ∨ readItems fuel bytes = some (items, rest) := by
  rw [readList] at h
  split at h
  · cases h
    exact Or.inl ⟨rfl, rfl⟩
  · exact Or.inr h

end CfgPredicate

end CodeGraph
