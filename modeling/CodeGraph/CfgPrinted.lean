import Mathlib.Data.List.TakeWhile
import CodeGraph.CfgRoundTrip

/-!
# Which texts the reader prints back

`parse_compact` takes a percent escape in any spelling that `from_str_radix` reads: needless,
or with lower-case digits. A text it accepts is the compact text of what it reads exactly when
the text has none of these.
-/

namespace CodeGraph

open Option List

namespace CfgPredicate

/-- Every escape in the bytes is as the writer writes it: two upper-case digits, for a byte
that it escapes. -/
def WrittenEscapes (bytes : List UInt8) : Prop :=
  ∀ before rest, bytes = before ++ Percent.percent :: rest →
    ∃ b : UInt8, isPlainByte b = false ∧
      [Percent.hexByte (b.toNat / 16), Percent.hexByte (b.toNat % 16)] <+: rest

theorem WrittenEscapes.of_append {a b : List UInt8} (h : WrittenEscapes (a ++ b)) :
    WrittenEscapes b := fun before rest hb =>
  h (a ++ before) rest (by rw [hb, append_assoc])

theorem writtenEscapes_of_notMem {bytes : List UInt8} (h : Percent.percent ∉ bytes) :
    WrittenEscapes bytes := by
  rintro before rest rfl
  exact absurd (by simp) h

theorem WrittenEscapes.append {a b : List UInt8} (ha : WrittenEscapes a)
    (hb : WrittenEscapes b) : WrittenEscapes (a ++ b) := by
  intro before rest h
  rcases append_eq_append_iff.mp h with ⟨c, rfl, hc⟩ | ⟨c, rfl, hc⟩
  · exact hb c rest hc
  · cases c with
    | nil => exact hb [] rest hc.symm
    | cons x c =>
        obtain ⟨rfl, rfl⟩ := List.cons.inj hc
        obtain ⟨byte, hplain, hdigits⟩ := ha before c rfl
        exact ⟨byte, hplain, hdigits.trans (prefix_append c b)⟩

/-! ## What is printed -/

theorem hexByte_ne_percent : ∀ {n : ℕ}, n < 16 → Percent.hexByte n ≠ Percent.percent := by
  decide

theorem writtenEscapes_encodeByte (b : UInt8) :
    WrittenEscapes (Percent.utf8 (Percent.encodeByte isPlainByte b)) := by
  rw [Percent.utf8_encodeByte escaping.ascii]
  split
  · next hplain =>
    refine writtenEscapes_of_notMem fun hmem => ?_
    rw [← mem_singleton.mp hmem, escaping.percent] at hplain
    cases hplain
  · next hplain =>
    have hlt := b.toNat_lt
    have hhi : Percent.hexByte (b.toNat / 16) ≠ Percent.percent := hexByte_ne_percent (by omega)
    have hlo : Percent.hexByte (b.toNat % 16) ≠ Percent.percent := hexByte_ne_percent (by omega)
    intro before rest h
    cases before with
    | nil =>
        obtain rfl := (List.cons.inj h).2
        exact ⟨b, by simpa using hplain, prefix_rfl⟩
    | cons x before =>
        have hmem : Percent.percent ∈
            [Percent.hexByte (b.toNat / 16), Percent.hexByte (b.toNat % 16)] := by
          rw [(List.cons.inj h).2]
          simp
        simp only [mem_cons, not_mem_nil, or_false] at hmem
        exact hmem.elim (fun he => absurd he.symm hhi) fun he => absurd he.symm hlo

theorem writtenEscapes_encode (text : Text) : WrittenEscapes (Percent.utf8 (encode text)) := by
  unfold encode Percent.encode
  induction Percent.utf8 text with
  | nil => exact writtenEscapes_of_notMem not_mem_nil
  | cons b bytes ih =>
      rw [flatMap_cons, Percent.utf8_append]
      exact (writtenEscapes_encodeByte b).append ih

theorem WrittenEscapes.cons_byte {c : Char} {text : Text} (hc : c.toNat < 128)
    (hne : byte c ≠ Percent.percent) (h : WrittenEscapes (Percent.utf8 text)) :
    WrittenEscapes (Percent.utf8 (c :: text)) := by
  rw [utf8_cons_byte hc]
  exact (writtenEscapes_of_notMem fun hmem => hne (mem_singleton.mp hmem).symm).append h

theorem WrittenEscapes.append_byte {c : Char} {text : Text} (hc : c.toNat < 128)
    (hne : byte c ≠ Percent.percent) (h : WrittenEscapes (Percent.utf8 text)) :
    WrittenEscapes (Percent.utf8 (text ++ [c])) := by
  rw [Percent.utf8_append]
  exact h.append ((writtenEscapes_of_notMem not_mem_nil).cons_byte hc hne)

theorem writtenEscapes_body {b : Body}
    (h : ∀ l, b = .items l → WrittenEscapes (Percent.utf8 (compactList l))) :
    WrittenEscapes (Percent.utf8 b.text) := by
  cases b with
  | bare => exact writtenEscapes_of_notMem not_mem_nil
  | value v => exact (writtenEscapes_encode v).cons_byte (by decide) (by decide)
  | items l =>
      exact ((h l rfl).append_byte (by decide) (by decide)).cons_byte (by decide) (by decide)

theorem writtenEscapes_compactList : ∀ {l : List CfgPredicate},
    (∀ p ∈ l, WrittenEscapes (Percent.utf8 p.compact)) →
      WrittenEscapes (Percent.utf8 (compactList l))
  | [], _ => writtenEscapes_of_notMem not_mem_nil
  | p :: l, h => by
      have hl := writtenEscapes_compactList fun q hq => h q (mem_cons_of_mem _ hq)
      rw [compactList_cons, Percent.utf8_append]
      refine (h p mem_cons_self).append ?_
      split
      · exact writtenEscapes_of_notMem not_mem_nil
      · exact hl.cons_byte (by decide) (by decide)

theorem writtenEscapes_compact (p : CfgPredicate) : WrittenEscapes (Percent.utf8 p.compact) := by
  have hstep : ∀ p : CfgPredicate, (∀ l, p.body = .items l →
      ∀ q ∈ l, WrittenEscapes (Percent.utf8 q.compact)) →
      WrittenEscapes (Percent.utf8 p.compact) := by
    intro p hitems
    rw [compact_eq, Percent.utf8_append]
    exact (writtenEscapes_encode _).append
      (writtenEscapes_body fun l hl => writtenEscapes_compactList (hitems l hl))
  induction p using groupInduction with
  | feature name => exact hstep _ fun l hl => by simp [body] at hl
  | option key value => exact hstep _ fun l hl => by cases value <;> simp [body] at hl
  | group isAll items ih =>
      refine hstep _ fun l hl q hq => ?_
      have hl : l = items := by cases isAll <;> cases hl <;> rfl
      exact ih q (hl ▸ hq)
  | not inner ih =>
      refine hstep _ fun l hl q hq => ?_
      cases hl
      rw [mem_singleton.mp hq]
      exact ih

/-! ## What is read -/

theorem utf8_of_fromUtf8 {bytes : List UInt8} {text : Text}
    (h : Percent.fromUtf8 bytes = some text) : Percent.utf8 text = bytes := by
  obtain ⟨s, hs, rfl⟩ := map_eq_some_iff.mp h
  rw [String.fromUTF8?] at hs
  split at hs
  · have hbytes : s.toByteArray = bytes.toByteArray := by
      cases hs
      rfl
    have hutf8 : (Percent.utf8 s.toList).toByteArray = bytes.toByteArray := by
      rw [← hbytes, ← String.utf8Encode_toList]
      rfl
    exact toByteArray_inj.mp hutf8
  · cases hs

theorem encodeBytes_of_decodeBytes (rest : List UInt8) :
    ∀ {word raw : List UInt8}, (∀ b ∈ word, isWordByte b = true) →
      WrittenEscapes (word ++ rest) → Percent.decodeBytes hexPair word = some raw →
      Percent.utf8 (raw.flatMap (Percent.encodeByte isPlainByte)) = word
  | [], raw, _, _, h => by
      obtain rfl := Option.some.inj h
      rfl
  | b :: word, raw, hword, hwritten, h => by
      have htail : WrittenEscapes (word ++ rest) := WrittenEscapes.of_append (a := [b]) hwritten
      by_cases hb : b = Percent.percent
      · subst hb
        obtain ⟨x, hplain, hdigits⟩ := hwritten [] (word ++ rest) rfl
        match word, h with
        | [], h | [_], h => cases h
        | c :: d :: word, h =>
          rw [cons_append, cons_append, cons_prefix_cons, cons_prefix_cons]
            at hdigits
          obtain ⟨rfl, rfl, -⟩ := hdigits
          rw [Percent.decodeBytes_percent (escaping.hex x)] at h
          obtain ⟨raw, hraw, rfl⟩ := map_eq_some_iff.mp h
          have ih := encodeBytes_of_decodeBytes rest
            (fun b hb => hword b (by simp [hb]))
            (WrittenEscapes.of_append (a := [_, _]) htail) hraw
          rw [flatMap_cons, Percent.utf8_append, ih, Percent.utf8_encodeByte escaping.ascii,
            if_neg (by simp [hplain])]
          rfl
      · rw [Percent.decodeBytes_cons_ne hb] at h
        obtain ⟨raw, hraw, rfl⟩ := map_eq_some_iff.mp h
        have hplain : isPlainByte b = true := by
          have := hword b mem_cons_self
          simpa [isWordByte, hb] using this
        have ih := encodeBytes_of_decodeBytes rest
          (fun b hb => hword b (mem_cons_of_mem _ hb)) htail hraw
        rw [flatMap_cons, Percent.utf8_append, ih, Percent.utf8_encodeByte escaping.ascii,
          if_pos hplain]
        rfl

theorem word_written {bytes rest : List UInt8} {name : Text} (hwritten : WrittenEscapes bytes)
    (h : word bytes = some (name, rest)) : bytes = Percent.utf8 (encode name) ++ rest := by
  obtain ⟨decoded, hdecoded, h⟩ := bind_eq_some_iff.mp h
  obtain ⟨rfl, rfl⟩ : decoded = name ∧ bytes.dropWhile isWordByte = rest := by simpa using h
  obtain ⟨hdecode, -⟩ := filter_eq_some_iff.mp hdecoded
  obtain ⟨raw, hraw, hutf8⟩ := bind_eq_some_iff.mp hdecode
  have hsplit : bytes.takeWhile isWordByte ++ bytes.dropWhile isWordByte = bytes :=
    takeWhile_append_dropWhile
  have hword := encodeBytes_of_decodeBytes (bytes.dropWhile isWordByte)
    (fun b hb => mem_takeWhile_imp hb) (by rwa [hsplit]) hraw
  rw [encode, Percent.encode, utf8_of_fromUtf8 hutf8, hword, hsplit]

theorem readPredicate_body {fuel : Nat} {bytes rest : List UInt8} {p : CfgPredicate}
    (h : readPredicate (fuel + 1) bytes = some (p, rest)) :
    ∃ tail, word bytes = some (p.key, tail) ∧
      ((∃ items, tail = byte '(' :: tail.tail ∧ readList fuel tail.tail = some (items, rest) ∧
          p.body = .items items) ∨
        (∃ value, tail = byte '=' :: tail.tail ∧ word tail.tail = some (value, rest) ∧
          p.body = .value value) ∨
        (p.body = .bare ∧ rest = tail)) := by
  rw [readPredicate] at h
  obtain ⟨⟨name, tail⟩, hword, h⟩ := bind_eq_some_iff.mp h
  dsimp only at h
  split at h
  · next hopen =>
    obtain ⟨⟨items, after⟩, hlist, h⟩ := bind_eq_some_iff.mp h
    have htail : tail = byte '(' :: tail.tail := (cons_head?_tail hopen).symm
    dsimp only at h
    split at h
    · next hname =>
      cases h
      subst hname
      exact ⟨tail, hword, Or.inl ⟨items, htail, hlist, rfl⟩⟩
    split at h
    · next hname =>
      cases h
      subst hname
      exact ⟨tail, hword, Or.inl ⟨items, htail, hlist, rfl⟩⟩
    split at h
    · next hname =>
      split at h
      · cases h
        subst hname
        exact ⟨tail, hword, Or.inl ⟨_, htail, hlist, rfl⟩⟩
      · cases h
    · cases h
  split at h
  · next heq =>
    obtain ⟨⟨value, after⟩, hvalue, h⟩ := bind_eq_some_iff.mp h
    have htail : tail = byte '=' :: tail.tail := (cons_head?_tail heq).symm
    dsimp only at h
    split at h
    · next hname =>
      cases h
      subst hname
      exact ⟨tail, hword, Or.inr (Or.inl ⟨value, htail, hvalue, rfl⟩)⟩
    · cases h
      exact ⟨tail, hword, Or.inr (Or.inl ⟨value, htail, hvalue, rfl⟩)⟩
  · cases h
    exact ⟨rest, hword, Or.inr (Or.inr ⟨rfl, rfl⟩)⟩

theorem readItems_loop {fuel : Nat} {bytes rest : List UInt8} {items : List CfgPredicate}
    (h : readItems (fuel + 1) bytes = some (items, rest)) :
    ∃ item items' tail, readPredicate fuel bytes = some (item, tail) ∧ items = item :: items' ∧
      ((tail = byte ',' :: tail.tail ∧ readItems fuel tail.tail = some (items', rest)) ∨
        (items' = [] ∧ tail = byte ')' :: rest)) := by
  rw [readItems] at h
  obtain ⟨⟨item, tail⟩, hitem, h⟩ := bind_eq_some_iff.mp h
  dsimp only at h
  split at h
  · next hcomma =>
    obtain ⟨⟨items', after⟩, hitems, h⟩ := bind_eq_some_iff.mp h
    cases h
    exact ⟨item, items', tail, hitem, rfl,
      Or.inl ⟨(cons_head?_tail hcomma).symm, hitems⟩⟩
  split at h
  · next hclose =>
    cases h
    exact ⟨item, [], tail, hitem, rfl, Or.inr ⟨rfl, (cons_head?_tail hclose).symm⟩⟩
  · cases h

theorem read_written : ∀ (fuel : Nat) {bytes rest : List UInt8}, WrittenEscapes bytes →
    (∀ {p : CfgPredicate}, readPredicate fuel bytes = some (p, rest) →
      bytes = Percent.utf8 p.compact ++ rest) ∧
    (∀ {items : List CfgPredicate}, readList fuel bytes = some (items, rest) →
      bytes = Percent.utf8 (compactList items ++ [')']) ++ rest) ∧
    (∀ {items : List CfgPredicate}, readItems fuel bytes = some (items, rest) →
      items ≠ [] ∧ bytes = Percent.utf8 (compactList items ++ [')']) ++ rest)
  | 0, _, _, _ => ⟨nofun, nofun, nofun⟩
  | fuel + 1, bytes, rest, hwritten => by
      refine ⟨fun {p} h => ?_, fun h => ?_, fun h => ?_⟩
      · obtain ⟨tail, hword, hcase⟩ := readPredicate_body h
        have hkey := word_written hwritten hword
        have htail : WrittenEscapes tail := WrittenEscapes.of_append (hkey ▸ hwritten)
        rw [compact_eq, Percent.utf8_append, append_assoc, hkey]
        congr 1
        obtain ⟨items, hopen, hlist, hbody⟩ | ⟨value, heq, hvalue, hbody⟩ | ⟨hbody, rfl⟩ := hcase
        · have hinner : WrittenEscapes tail.tail :=
            WrittenEscapes.of_append (a := [byte '(']) (hopen ▸ htail)
          have hlist := (read_written fuel hinner).2.1 hlist
          rw [hopen, hbody, Body.text, utf8_cons_byte (by decide), cons_append, ← hlist]
        · have hinner : WrittenEscapes tail.tail :=
            WrittenEscapes.of_append (a := [byte '=']) (heq ▸ htail)
          have hvalue := word_written hinner hvalue
          rw [heq, hbody, Body.text, utf8_cons_byte (by decide), cons_append, ← hvalue]
        · rw [hbody]
          rfl
      · rw [readList] at h
        split at h
        · next hclose =>
          cases h
          exact (cons_head?_tail hclose).symm
        · exact ((read_written fuel hwritten).2.2 h).2
      · obtain ⟨item, items', tail, hitem, rfl, hcase⟩ := readItems_loop h
        have hitem := (read_written fuel hwritten).1 hitem
        have htail : WrittenEscapes tail := WrittenEscapes.of_append (hitem ▸ hwritten)
        refine ⟨cons_ne_nil _ _, ?_⟩
        rw [compactList_cons, append_assoc, Percent.utf8_append, append_assoc, hitem]
        congr 1
        obtain ⟨hcomma, hitems⟩ | ⟨rfl, hclose⟩ := hcase
        · have hinner : WrittenEscapes tail.tail :=
            WrittenEscapes.of_append (a := [byte ',']) (hcomma ▸ htail)
          obtain ⟨hne, hitems⟩ := (read_written fuel hinner).2.2 hitems
          rw [if_neg hne, cons_append, utf8_cons_byte (by decide), cons_append, ← hitems]
          exact hcomma
        · exact hclose

/-- The reader takes a text for the predicate that prints it exactly when every escape of the
text is as the writer writes it. -/
theorem parseCompact_printed_iff {text : Text} {p : CfgPredicate}
    (h : parseCompact text = some p) :
    p.compact = text ↔ WrittenEscapes (Percent.utf8 text) := by
  constructor
  · rintro rfl
    exact writtenEscapes_compact p
  · intro hwritten
    obtain ⟨⟨q, rest⟩, hread, h⟩ := bind_eq_some_iff.mp h
    obtain ⟨rfl, rfl⟩ : rest = [] ∧ q = p := by simpa using h
    have hbytes := (read_written _ hwritten).1 hread
    exact Percent.utf8_injective (by rw [hbytes, append_nil])

example : parseCompact "not(a)".toList = some (.not (.option ['a'] none)) := by decide +kernel

theorem parseCompact_printed_iff_twin :
    parseCompact "not(feature=fast)".toList = some (.not (.feature "fast".toList)) ∧
      (compact (.not (.feature "fast".toList)) = "not(feature=fast)".toList ↔
        WrittenEscapes (Percent.utf8 "not(feature=fast)".toList)) := by
  have hread : parseCompact "not(feature=fast)".toList =
      some (.not (.feature "fast".toList)) := by decide +kernel
  exact ⟨hread, parseCompact_printed_iff hread⟩

/-- `%61` is read as the option `a`, which is printed `a`. -/
theorem needless_escape_is_read :
    ¬ ∀ (text : Text) (p : CfgPredicate), parseCompact text = some p → p.compact = text := by
  intro h
  have hread : parseCompact "%61".toList = some (.option ['a'] none) := by decide +kernel
  have hprinted := h _ _ hread
  revert hprinted
  decide +kernel

end CfgPredicate

end CodeGraph
