import CodeGraph.Text
import CodeGraph.Lib.Utf8Lossy

/-!
# `file:` URIs

The paths sent to a language server and the ones it sends back. `path_to_file_uri` escapes
every byte outside RFC 3986's unreserved ones and `/`; `file_uri_to_path` takes the escapes
back and keeps whatever is no escape.
-/

namespace CodeGraph

namespace FileUri

/-! ## The code -/

/-- The bytes written as they are. -/
def keep (c : UInt8) : Bool :=
  (48 ≤ c && c ≤ 57) || (65 ≤ c && c ≤ 90) || (97 ≤ c && c ≤ 122) ||
    c = 45 || c = 46 || c = 95 || c = 126 || c = 47

def scheme : Text := "file://".toList

def pathToFileUri (path : Text) : Text := scheme ++ Percent.encode keep path

def isAsciiHexdigit (c : UInt8) : Bool :=
  (48 ≤ c && c ≤ 57) || (65 ≤ c && c ≤ 70) || (97 ≤ c && c ≤ 102)

/-- The byte that two hexadecimal digits spell. -/
def escaped (hi lo : UInt8) : UInt8 :=
  ((fromStrRadix16 256 [Char.ofNat hi.toNat, Char.ofNat lo.toNat]).map UInt8.ofNat).getD
    Percent.percent

/-- The still encoded path of a URI of this machine. -/
def stripFileSchemeAndAuthority (uri : Text) : Option Text := do
  let rest ← stripPrefix scheme uri
  let authority := rest.takeWhile (· ≠ '/')
  if '/' ∉ rest then none
  else if authority = [] ∨ authority.map Char.toLower = "localhost".toList then
    some (rest.dropWhile (· ≠ '/'))
  else none

/-- The loop of `file_uri_to_path`. -/
def percentDecode : List UInt8 → List UInt8
  | [] => []
  | b :: hi :: lo :: rest =>
      if b = Percent.percent ∧ isAsciiHexdigit hi ∧ isAsciiHexdigit lo then
        escaped hi lo :: percentDecode rest
      else b :: percentDecode (hi :: lo :: rest)
  | b :: rest => b :: percentDecode rest

def fileUriToPath (uri : Text) : Option Text := do
  let encoded ← stripFileSchemeAndAuthority uri
  some (Percent.lossy (percentDecode (Percent.utf8 encoded)))

/-! ## Escapes -/

/-- The bytes start with two hexadecimal digits: a `%` before them opens an escape. -/
def StartsEscape (bytes : List UInt8) : Prop :=
  ∃ hi lo after, bytes = hi :: lo :: after ∧ isAsciiHexdigit hi ∧ isAsciiHexdigit lo

theorem percentDecode_escape {hi lo : UInt8} (hhi : isAsciiHexdigit hi)
    (hlo : isAsciiHexdigit lo) (after : List UInt8) :
    percentDecode (Percent.percent :: hi :: lo :: after) =
      escaped hi lo :: percentDecode after := by
  rw [percentDecode, if_pos ⟨rfl, hhi, hlo⟩]

theorem percentDecode_kept {b : UInt8} {rest : List UInt8}
    (h : b = Percent.percent → ¬ StartsEscape rest) :
    percentDecode (b :: rest) = b :: percentDecode rest := by
  match rest with
  | [] | [_] => rfl
  | hi :: lo :: after =>
      rw [percentDecode, if_neg]
      rintro ⟨hb, hhi, hlo⟩
      exact h hb ⟨hi, lo, after, rfl, hhi, hlo⟩

theorem percentDecode_verbatim : ∀ {bytes : List UInt8},
    (∀ before after, bytes = before ++ Percent.percent :: after → ¬ StartsEscape after) →
      percentDecode bytes = bytes
  | [], _ => rfl
  | b :: rest, h => by
      have hrest : percentDecode rest = rest := percentDecode_verbatim fun before after he =>
        h (b :: before) after (by rw [he, List.cons_append])
      rw [percentDecode_kept fun hb => h [] rest (by rw [hb, List.nil_append]), hrest]

/-- A `%` is no digit, so no escape runs across it. -/
theorem percentDecode_append_percent (before after : List UInt8) :
    percentDecode (before ++ Percent.percent :: after) =
      percentDecode before ++ percentDecode (Percent.percent :: after) := by
  induction hn : before.length using Nat.strong_induction_on generalizing before with
  | _ n ih =>
      subst hn
      cases before with
      | nil => rfl
      | cons b before =>
          by_cases hescape : b = Percent.percent ∧ StartsEscape before
          · obtain ⟨rfl, hi, lo, rest, rfl, hhi, hlo⟩ := hescape
            rw [List.cons_append, List.cons_append, List.cons_append,
              percentDecode_escape hhi hlo, percentDecode_escape hhi hlo,
              ih rest.length (by simp; omega) rest rfl, List.cons_append]
          · have hkept : b = Percent.percent → ¬ StartsEscape before :=
              fun hb hstarts => hescape ⟨hb, hstarts⟩
            have hlong : b = Percent.percent →
                ¬ StartsEscape (before ++ Percent.percent :: after) := by
              rintro hb ⟨hi, lo, rest, he, hhi, hlo⟩
              match before, he with
              | [], he =>
                  obtain ⟨rfl, -⟩ := List.cons.inj he
                  exact absurd hhi (by decide)
              | [_], he =>
                  obtain ⟨rfl, -⟩ := List.cons.inj (List.cons.inj he).2
                  exact absurd hlo (by decide)
              | x :: y :: before, he =>
                  obtain ⟨hx, he⟩ := List.cons.inj he
                  obtain ⟨hy, -⟩ := List.cons.inj he
                  exact hkept hb ⟨x, y, before, rfl, hx ▸ hhi, hy ▸ hlo⟩
            rw [List.cons_append, percentDecode_kept hlong, percentDecode_kept hkept,
              ih before.length (by simp) before rfl, List.cons_append]

/-! ## What is written is read back -/

theorem isAsciiHexdigit_hexByte : ∀ n < 16, isAsciiHexdigit (Percent.hexByte n) = true := by
  decide

theorem escaped_hexByte : ∀ n < 256,
    escaped (Percent.hexByte (n / 16)) (Percent.hexByte (n % 16)) = UInt8.ofNat n := by
  decide +kernel

theorem keep_ascii : ∀ {c : UInt8}, keep c = true → c.toNat < 128 := by
  have h : ∀ n < 256, keep (UInt8.ofNat n) = true → n < 128 := by decide +kernel
  intro c hc
  exact h c.toNat c.toNat_lt (by simpa using hc)

theorem percentDecode_encodeByte (b : UInt8) (rest : List UInt8) :
    percentDecode (Percent.utf8 (Percent.encodeByte keep b) ++ rest) =
      b :: percentDecode rest := by
  rw [Percent.utf8_encodeByte fun _ => keep_ascii]
  split
  · next hkeep =>
    refine percentDecode_kept ?_
    rintro rfl
    exact absurd hkeep (by decide)
  · have hlt := b.toNat_lt
    have hescaped := escaped_hexByte b.toNat hlt
    rw [UInt8.ofNat_toNat] at hescaped
    exact (percentDecode_escape (isAsciiHexdigit_hexByte _ (by omega))
      (isAsciiHexdigit_hexByte _ (by omega)) rest).trans (by rw [hescaped])

theorem percentDecode_encode (path : Text) :
    percentDecode (Percent.utf8 (Percent.encode keep path)) = Percent.utf8 path := by
  unfold Percent.encode
  induction Percent.utf8 path with
  | nil => rfl
  | cons b bytes ih =>
      rw [List.flatMap_cons, Percent.utf8_append, percentDecode_encodeByte, ih]

/-- A path of this machine. -/
def IsAbsolute (path : Text) : Prop := path.head? = some '/'

theorem stripFileSchemeAndAuthority_pathToFileUri {path : Text} (h : IsAbsolute path) :
    stripFileSchemeAndAuthority (pathToFileUri path) = some (Percent.encode keep path) := by
  obtain ⟨rest, rfl⟩ := List.head?_eq_some_iff.mp h
  have hslash : Percent.encode keep ('/' :: rest) = '/' :: Percent.encode keep rest := by
    rw [Percent.encode, Percent.utf8_cons, List.flatMap_append]
    rfl
  rw [stripFileSchemeAndAuthority, pathToFileUri, stripPrefix_append, hslash]
  simp

/-- A path that is read from an encoded one: the escapes are the bytes they spell, and a `%`
that opens none stands for itself, whatever is around it. -/
structure Decodes (encoded path : Text) : Prop where
  verbatim : (∀ before after, Percent.utf8 encoded = before ++ Percent.percent :: after →
    ¬ StartsEscape after) → path = encoded
  escape : ∀ before hi lo after,
    Percent.utf8 encoded = before ++ Percent.percent :: hi :: lo :: after →
      isAsciiHexdigit hi → isAsciiHexdigit lo →
        path = Percent.lossy (percentDecode before ++ escaped hi lo :: percentDecode after)
  malformed : ∀ before after, Percent.utf8 encoded = before ++ Percent.percent :: after →
    ¬ StartsEscape after →
      path = Percent.lossy (percentDecode before) ++ '%' :: Percent.lossy (percentDecode after)

theorem decodes (encoded : Text) :
    Decodes encoded (Percent.lossy (percentDecode (Percent.utf8 encoded))) where
  verbatim h := by rw [percentDecode_verbatim h, Percent.lossy_utf8]
  escape before hi lo after h hhi hlo := by
    rw [h, percentDecode_append_percent, percentDecode_escape hhi hlo]
  malformed before after h hstarts := by
    rw [h, percentDecode_append_percent, percentDecode_kept fun _ => hstarts,
      Percent.lossy_append_ascii (by decide)]
    rfl

/-- Every absolute path comes back from its URI, and of any URI of this machine the malformed
escapes are kept as they stand. -/
theorem fileUriToPath_exact :
    (∀ path, IsAbsolute path → fileUriToPath (pathToFileUri path) = some path) ∧
      ∀ uri encoded, stripFileSchemeAndAuthority uri = some encoded →
        ∃ path, fileUriToPath uri = some path ∧ Decodes encoded path := by
  constructor
  · intro path hpath
    rw [fileUriToPath, stripFileSchemeAndAuthority_pathToFileUri hpath]
    simp [percentDecode_encode, Percent.lossy_utf8]
  · intro uri encoded h
    exact ⟨_, by rw [fileUriToPath, h]; rfl, decodes encoded⟩

theorem fileUriToPath_exact_truncated :
    fileUriToPath (pathToFileUri "/a %zz".toList) = some "/a %zz".toList ∧
      ∃ path, fileUriToPath "file://localhost/a%2".toList = some path ∧
        Decodes "/a%2".toList path :=
  ⟨fileUriToPath_exact.1 _ rfl, fileUriToPath_exact.2 _ _ (by decide +kernel)⟩

end FileUri

end CodeGraph
