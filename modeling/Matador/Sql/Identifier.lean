import Matador.Sql.Dialect
import Matador.Utils.Text

/-!
# Quoted identifiers

`prepare_identifier` copies its argument, doubles the quotes in the copy with `replace_all` and puts
quotes around it.

* `readIdentifier` — the SQL rule: an identifier ends at the first closing quote that is not doubled
-/

namespace Matador.Sql

open Lib (NotHead readQuoted)

def escapeQuotesInIdentifier (q : Quoting) (str : Str) : Str :=
  let openChar := [q.startQuote]
  let closeChar := [q.endQuote]
  match q.identifierEscapeType with
  | .escapeClosingBracket => Text.replaceAll str closeChar (closeChar ++ closeChar)
  | .escapeBothSame => Text.replaceAll str openChar (openChar ++ openChar)

def quoteIdentifier (q : Quoting) (str : Str) : Str := [q.startQuote] ++ str ++ [q.endQuote]

theorem quoteIdentifier_escape (q : Quoting) (str : Str) :
    quoteIdentifier q (escapeQuotesInIdentifier q str) = prepareIdentifier q str := by
  have hesc : escapeQuotesInIdentifier q str =
      Text.replaceAll str [q.escaped] [q.escaped, q.escaped] := by
    unfold escapeQuotesInIdentifier Quoting.escaped
    cases q.identifierEscapeType <;> rfl
  rw [hesc, Text.replaceAll_singleton]
  rfl

def readIdentifier (q : Quoting) : Str → Option (Str × Str)
  | [] => none
  | c :: cs => if c = q.startQuote then readQuoted q.endQuote cs else none

/-- **A prepared identifier is read back as the name it was made from.** -/
theorem readIdentifier_prepared (q : Quoting) (s t : Str) (ht : NotHead q.endQuote t) :
    readIdentifier q (quoteIdentifier q (escapeQuotesInIdentifier q s) ++ t) = some (s, t) := by
  rw [quoteIdentifier_escape, prepareIdentifier_eq, List.cons_append, List.append_assoc,
    readIdentifier, if_pos rfl]
  exact Lib.readQuoted_doubled ht s

/-- Brackets in a bracketed name: only the closing one is doubled. -/
theorem readIdentifier_of_bracketed_name :
    escapeQuotesInIdentifier .brackets ['[', 'a', ']'] = ['[', 'a', ']', ']'] ∧
      readIdentifier .brackets
        (quoteIdentifier .brackets (escapeQuotesInIdentifier .brackets ['[', 'a', ']']) ++ [' ']) =
        some (['[', 'a', ']'], [' ']) :=
  ⟨by simp [escapeQuotesInIdentifier, Quoting.brackets, Text.replaceAll_singleton],
    readIdentifier_prepared _ _ _ (Lib.notHead_cons.mpr (by decide))⟩

end Matador.Sql
