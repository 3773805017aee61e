import Accessors.Command.Generate
import Accessors.Proofs.Json.Reading
import Accessors.Proofs.Symbol.Schema

/-!
# Printed trees are read back

The text of a tree ends with a bracket, so nothing is cut off it and only a line feed is put behind
it. It is read as the tree it was printed from.
-/

namespace Accessors.Command

open Json
open Accessors.Symbol (Node)

theorem exists_write_object (spacing : Spacing) (depth : Nat)
    (members : List (Option String × Json)) :
    ∃ cs, write spacing depth (.object members) = cs ++ ['}'] := by
  cases members with
  | nil => exact ⟨['{'], by rw [write]; rfl⟩
  | cons member members =>
    refine ⟨'{' :: (spacing.line (depth + 1) ++ (Json.writeText member.1 ++ (':' ::
      (spacing.colon ++ (write spacing (depth + 1) member.2 ++
        (writeMembers spacing (depth + 1) members ++ spacing.line depth)))))), ?_⟩
    simp [write]

theorem trimEnd_of_not_blank {c : Char} (h : Text.isBlank c = false) (cs : List Char) :
    Text.trimEnd (String.ofList (cs ++ [c])) = String.ofList (cs ++ [c]) := by
  simp [Text.trimEnd, h]

/-- A tree whose JSON nests no deeper than a text may is read back from what is printed of it. -/
theorem decodeText_payload (root : Node) (h : root.toJson.nesting ≤ nestingLimit) :
    decodeText Node.ofJson (payload .json root) = some root := by
  obtain ⟨cs, hcs⟩ := exists_write_object .pretty 0
    (root.fields.map fun field => (some field.1, field.2))
  have htext : payload .json root =
      String.ofList (write .pretty 0 root.toJson ++ ['\n']) := by
    rw [payload, render, pretty, Node.toJson_eq, record, hcs,
      trimEnd_of_not_blank (by decide)]
    exact String.ofList_append.symm
  rw [htext, decodeText, read_write Spacing.isBlank_pretty root.sound (by decide)]
  exact Node.decodes_node root nestingLimit h

def sampleTree : Node :=
  ⟨"R", [], [
    ⟨"strings", [
      .constant "title" "String" "text(\"\\u0000\")" [],
      .function "line" [.unlabeled "value1" "Int", ⟨some "for", "größe", "\x00\x1f\x7f"⟩,
        .labeled "n" "T"] "String" "line\n\r\t\x08\x0c" ["\u2028", ""],
      .function "empty" [] "" "" []], [], some [], false⟩,
    ⟨"", [], [⟨"\\", [], [], none, true⟩], some [.check "😀/", .invokeChild "\""], true⟩],
    none, false⟩

theorem decodeText_payload_sampleTree :
    sampleTree.toJson.nesting ≤ nestingLimit ∧
      decodeText Node.ofJson (payload .json sampleTree) = some sampleTree :=
  ⟨by decide, decodeText_payload sampleTree (by decide)⟩

end Accessors.Command
