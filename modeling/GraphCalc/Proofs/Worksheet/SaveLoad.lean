import GraphCalc.Proofs.Json.Escape
import GraphCalc.Proofs.Text.Cutting
import GraphCalc.Worksheet.Basic

/-! # Worksheet files read back

The file of a worksheet is read back as its lines. Main statements:

* `readValue?_writeString`, `readItems?_writeItems`: strings and lists of strings are read as they
  were written, with room for one step an item;
* `ofText?_write`: the text of a file stands for the lines that it was written from;
* `tidy_idem`: lines that are tidy stay as they are;
* `load?_write`: a worksheet is loaded from its file.
-/

namespace GraphCalc
open GraphCalc.Text GraphCalc.Json
set_option autoImplicit false

namespace Document

/-! ## Strings and lists -/

theorem writeString_append (text : String) (rest : List Char) :
    writeString text ++ rest = '"' :: (escaped text.toList ++ '"' :: rest) := by
  simp [writeString]

theorem readValue?_writeString (steps : ℕ) (text : String) (rest : List Char) :
    readValue? (steps + 1) (writeString text ++ rest) = some (.string text, rest) := by
  rw [writeString_append, readValue?.eq_def]
  dsimp only
  rw [if_pos rfl, readText?_escaped]
  simp

theorem skipSpace_append {spaces : List Char} (h : ∀ c ∈ spaces, isSpace c = true)
    (rest : List Char) : skipSpace (spaces ++ rest) = skipSpace rest :=
  List.dropWhile_append_of_pos h

theorem skipSpace_writeString (text : String) (rest : List Char) :
    skipSpace (writeString text ++ rest) = writeString text ++ rest := by
  rw [writeString_append]
  rfl

/-- What stands in front of the rest of a list: the line break and the first item. -/
theorem skipSpace_item (text : String) (rest : List Char) :
    skipSpace ("\n    ".toList ++ writeString text ++ rest) = writeString text ++ rest := by
  rw [List.append_assoc, skipSpace_append (by simp [isSpace]), skipSpace_writeString]

theorem skipSpace_listEnd (rest : List Char) : skipSpace ("\n  ]".toList ++ rest) = ']' :: rest := by
  have hend : "\n  ]".toList ++ rest = "\n  ".toList ++ ']' :: rest := by simp
  rw [hend, skipSpace_append (by simp [isSpace])]
  rfl

theorem writeItems_cons (line next : String) (lines : List String) :
    writeItems (line :: next :: lines) =
      "\n    ".toList ++ writeString line ++ [','] ++ writeItems (next :: lines) := rfl

/-- The items of a list that is not empty are read up to the closing bracket, one step an item. -/
theorem readItems?_writeItems (line : String) (lines : List String) (rest : List Char) {steps : ℕ}
    (hsteps : lines.length + 1 < steps) :
    readItems? steps (skipSpace (writeItems (line :: lines) ++ ("\n  ]".toList ++ rest))) =
      some ((line :: lines).map Json.string, rest) := by
  induction lines generalizing line steps with
  | nil =>
    obtain ⟨steps, rfl⟩ : ∃ k, steps = k + 2 := ⟨steps - 2, by simp at hsteps; omega⟩
    rw [writeItems, skipSpace_item, readItems?, readValue?_writeString]
    dsimp only [Option.bind_eq_bind, Option.bind_some]
    rw [skipSpace_listEnd]
    rfl
  | cons next lines ih =>
    obtain ⟨steps, rfl⟩ : ∃ k, steps = k + 2 := ⟨steps - 2, by simp at hsteps; omega⟩
    rw [List.length_cons] at hsteps
    have hothers := @ih next (steps + 1) (by omega)
    rw [writeItems_cons, List.append_assoc, List.append_assoc, skipSpace_item, readItems?,
      readValue?_writeString]
    dsimp only [Option.bind_eq_bind, Option.bind_some]
    have hcomma (tail : List Char) : skipSpace ([','] ++ tail) = ',' :: tail := rfl
    rw [hcomma]
    show (readItems? (steps + 1) (skipSpace (writeItems (next :: lines) ++ _))).bind
      (fun found => some (string line :: found.1, found.2)) = _
    rw [hothers]
    rfl

/-! ## Documents -/

theorem length_le_writeItems (lines : List String) : lines.length ≤ (writeItems lines).length := by
  induction lines with
  | nil => simp
  | cons line lines ih =>
    cases lines with
    | nil => simp [writeItems]
    | cons next lines =>
      rw [writeItems_cons]
      simp only [List.length_cons, List.length_append] at ih ⊢
      omega

/-- A list that is not empty opens with a quote, not with the closing bracket. -/
theorem skipSpace_writeItems (line : String) (lines : List String) (rest : List Char) :
    ∃ tail, skipSpace (writeItems (line :: lines) ++ rest) = '"' :: tail := by
  cases lines with
  | nil =>
    rw [writeItems, skipSpace_item, writeString_append]
    exact ⟨_, rfl⟩
  | cons next lines =>
    rw [writeItems_cons, List.append_assoc, List.append_assoc, skipSpace_item, writeString_append]
    exact ⟨_, rfl⟩

theorem readValue?_writeList (lines : List String) (rest : List Char) {steps : ℕ}
    (hsteps : lines.length + 1 < steps) :
    readValue? steps (writeList lines ++ rest) = some (.array (lines.map Json.string), rest) := by
  obtain ⟨steps, rfl⟩ : ∃ k, steps = k + 1 := ⟨steps - 1, by omega⟩
  cases lines with
  | nil =>
    rw [readValue?.eq_def]
    rfl
  | cons line lines =>
    rw [List.length_cons] at hsteps
    have hitems : readItems? steps _ = _ :=
      readItems?_writeItems line lines rest (Nat.lt_of_succ_lt_succ hsteps)
    obtain ⟨tail, htail⟩ := skipSpace_writeItems line lines ("\n  ]".toList ++ rest)
    rw [htail] at hitems
    rw [writeList, if_neg (by simp), List.cons_append, List.cons_append, List.append_assoc,
      readValue?.eq_def]
    dsimp only
    rw [if_neg (by decide), if_pos rfl, htail]
    show (readItems? steps ('"' :: tail)).bind (fun found => some (array found.1, found.2)) = _
    rw [hitems]
    rfl

theorem write_eq (lines : List String) :
    write lines = '\x7b' :: ("\n  ".toList ++ (writeString memberName ++ (':' :: ' ' ::
      (writeList lines ++ ['\n', '\x7d'])))) := by
  simp [write]

theorem length_add_two_le_write (lines : List String) : lines.length + 2 ≤ (write lines).length := by
  have hitems := length_le_writeItems lines
  have hlist : lines.length ≤ (writeList lines).length := by
    rw [writeList]
    cases lines with
    | nil => simp
    | cons line lines => simp at hitems ⊢; omega
  simp [write_eq]
  omega

/-- The one member of the document is read up to the closing brace. -/
theorem readMembers?_write (lines : List String) {steps : ℕ} (hsteps : lines.length + 1 < steps) :
    readMembers? (steps + 1) [] (writeString memberName ++ (':' :: ' ' ::
      (writeList lines ++ ['\n', '\x7d']))) =
        some ([(memberName, .array (lines.map Json.string))], []) := by
  have hlist := readValue?_writeList lines ['\n', '\x7d'] hsteps
  have hcolon (tail : List Char) : skipSpace (':' :: tail) = ':' :: tail := rfl
  have hblank : skipSpace (' ' :: (writeList lines ++ ['\n', '\x7d'])) =
      writeList lines ++ ['\n', '\x7d'] := by
    cases lines <;> rfl
  rw [writeString_append, readMembers?, readText?_escaped]
  dsimp only [Option.bind_eq_bind, Option.bind_some]
  rw [hcolon]
  show (readValue? steps (skipSpace (' ' :: (writeList lines ++ _)))).bind _ = _
  rw [hblank, hlist, String.ofList_toList]
  rfl

/-- The document is an object with one member, the list of the lines. -/
theorem read?_write (lines : List String) :
    Json.read? (write lines) = some (.object [(memberName, .array (lines.map Json.string))]) := by
  have hlength := length_add_two_le_write lines
  obtain ⟨steps, hsteps⟩ : ∃ k, 2 * (write lines).length + 1 = k + 2 :=
    ⟨2 * (write lines).length - 1, by omega⟩
  have hmembers : readMembers? (steps + 1) [] _ = _ := readMembers?_write lines (by omega)
  have hopen (tail : List Char) : skipSpace ('\x7b' :: tail) = '\x7b' :: tail := rfl
  rw [Json.read?, hsteps, write_eq, hopen, readValue?.eq_def]
  dsimp only
  rw [if_neg (by decide), if_neg (by decide), if_pos rfl, skipSpace_append (by simp [isSpace]),
    skipSpace_writeString]
  rw [writeString_append] at hmembers ⊢
  show ((readMembers? (steps + 1) [] ('"' :: _)).bind
    fun found => some (object found.1, found.2)).bind _ = _
  rw [hmembers]
  rfl

theorem ofText?_write (lines : List String) :
    ofText? (String.ofList (write lines)) = some lines := by
  rw [ofText?, String.toList_ofList, read?_write, Option.bind_some, lines?]
  simp [Json.plain, Function.comp_def]

theorem read?_toUTF8 (text : String) : read? text.toUTF8 = ofText? text := by
  have htext : String.fromUTF8? text.toUTF8 = some text := by
    unfold String.fromUTF8?
    exact dif_pos text.isValidUTF8
  rw [read?, htext, Option.bind_some]

end Document

/-! ## Worksheets -/

namespace Worksheet

theorem trimmed_trimmed (line : String) : trimmed (trimmed line) = trimmed line := by
  rw [trimmed, trimmed, String.toList_ofList, trim_idem]

/-- Tidy lines stay as they are. -/
theorem tidy_idem (lines : List String) : tidy (tidy lines) = tidy lines := by
  have hmap : (tidy lines).map trimmed = tidy lines := by
    refine (List.map_congr_left fun line hline => ?_).trans (List.map_id _)
    obtain ⟨raw, -, rfl⟩ := List.mem_map.mp (List.mem_of_mem_filter hline)
    exact trimmed_trimmed raw
  have hfilter : (tidy lines).filter (· != "") = tidy lines := by
    rw [tidy, List.filter_filter]
    simp
  rw [tidy, hmap, hfilter]

/-- A worksheet is loaded from the file that it was saved to, whatever characters are in its lines:
it has the same lines, and these are the lines that were given, without blanks at their ends and
less the blank ones. -/
theorem load?_write (settings settings' : Settings) (lines : List String) :
    load? settings' (ofLines settings lines).write.toUTF8 = some (ofLines settings' lines) ∧
    (ofLines settings' lines).lines = (lines.map trimmed).filter (· != "") := by
  refine ⟨?_, rfl⟩
  have htidy : ofLines settings' (tidy lines) = ofLines settings' lines := by
    rw [ofLines, ofLines, tidy_idem]
  rw [load?, Document.read?_toUTF8, write, Document.ofText?_write, Option.map_some, ← htidy]
  rfl

end Worksheet
end GraphCalc
