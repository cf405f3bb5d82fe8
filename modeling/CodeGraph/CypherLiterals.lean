import CodeGraph.AstPersist
import CodeGraph.CypherRegions

/-!
# Cypher literals

What `cypher_str` writes, between the two readers of it: a string column gets back the string
it was written from, and the lexer of the gate leaves it at the quote that was written last.
-/

namespace CodeGraph

namespace Cypher

open Percent (utf8 utf8_append utf8_cons)

/-- `skip_quoted`: the index just past the quote that closes the run opened at `opening`. -/
def skipQuotedAt (b : List UInt8) (opening : ℕ) (q : UInt8) : Option ℕ :=
  (skipQuoted q (b.drop (opening + 1))).map (opening + 1 + ·)

/-- What `cypher_str` writes between the quotes. -/
def literalContent (raw : Text) : Text :=
  raw.flatMap fun c =>
    if c = '\\' then ['\\', '\\'] else if c = '\'' then ['\\', '\''] else [c]

theorem cypherStr_eq (raw : Text) : cypherStr raw = '\'' :: literalContent raw ++ ['\''] := rfl

theorem closed_literalContent : ∀ raw : Text, Closed '\'' (literalContent raw)
  | [] => .nil
  | c :: raw => by
      have hrest := closed_literalContent raw
      rw [literalContent, List.flatMap_cons]
      split
      · exact .escaped (by decide) hrest
      · next hback =>
        split
        · exact .escaped (by decide) hrest
        · next hquote => exact .plain hquote (fun _ => hback) hrest

theorem length_utf8_cypherStr (raw : Text) :
    (utf8 (cypherStr raw)).length = (utf8 (literalContent raw)).length + 2 := by
  rw [cypherStr_eq, utf8_append, List.length_append, utf8_cons, List.length_append,
    utf8EncodeChar_ascii (by decide), List.length_singleton, utf8_cons,
    utf8EncodeChar_ascii (by decide)]
  simp
  omega

/-- Entered at the quote that opens it, a literal is left at the quote that closes it. -/
theorem skipQuotedAt_cypherStr (pre raw suffix : Text) :
    skipQuotedAt (utf8 (pre ++ cypherStr raw ++ suffix)) (utf8 pre).length '\''.toUInt8 =
      some ((utf8 pre).length + (utf8 (cypherStr raw)).length) := by
  have hafter : (utf8 (pre ++ cypherStr raw ++ suffix)).drop ((utf8 pre).length + 1) =
      utf8 (literalContent raw ++ '\'' :: suffix) := by
    rw [List.append_assoc, utf8_append, List.drop_append, cypherStr_eq, List.cons_append,
      List.cons_append, utf8_cons, utf8EncodeChar_ascii (by decide)]
    simp
  rw [skipQuotedAt, hafter, skipQuoted_closed rfl (closed_literalContent raw),
    length_utf8_cypherStr, Option.map_some]
  congr 1
  omega

/-- A string goes through `cypher_str` unchanged, and in every query the lexer of the gate
leaves its literal where `cypher_str` closed it. -/
theorem cypherStr_exact (raw column pre suffix : Text) :
    Ast.literalToValue (some (cypherStr raw)) .string column = .ok (.string raw) ∧
      skipQuotedAt (utf8 (pre ++ cypherStr raw ++ suffix)) (utf8 pre).length '\''.toUInt8 =
        some ((utf8 pre).length + (utf8 (cypherStr raw)).length) :=
  ⟨Ast.literalToValue_string raw column, skipQuotedAt_cypherStr pre raw suffix⟩

end Cypher

end CodeGraph
