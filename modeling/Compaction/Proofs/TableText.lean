import Compaction.Proofs.Grouping
import Compaction.Proofs.TimeText
import Compaction.Text.Blank
import Mathlib.Data.List.DropRight
import Mathlib.Data.List.Forall2

/-!
# A table can be read back from its text

The width of a column depends on every cell in it, so any cell can change any line of a table. But
if there is a cell in each column, the cells of every row fit their columns (`TextTable.Fits`), and
then each line is made of as many characters.

If there is no bar, space or line break in the cells, that is enough to read the rows back from the
text: `TextTable.readRows` cuts it into lines, takes those that hold a row, cuts them at the bars
and drops the spaces around a cell. The cells of recorded timings are such, because they are made of
digits and a few letters and signs. So the text of their table tells the cells.
-/

namespace Compaction

open Text

/-! ## Lists with separators -/

section Separators

variable {α : Type} {x separator : α} {l : List α} {ls : List (List α)}

theorem mem_of_mem_intersperse (h : x ∈ l.intersperse separator) : x = separator ∨ x ∈ l := by
  obtain ⟨i, hi⟩ := List.getElem?_of_mem h
  rw [List.getElem?_intersperse] at hi
  split at hi
  · exact .inr (List.mem_of_getElem? hi)
  · split at hi
    · exact .inl (Option.some.inj hi).symm
    · cases hi

theorem mem_of_mem_intercalate (h : x ∈ [separator].intercalate ls) :
    x = separator ∨ ∃ l ∈ ls, x ∈ l := by
  obtain ⟨l, hl, hx⟩ := List.mem_flatten.mp h
  rcases mem_of_mem_intersperse hl with rfl | hmem
  · exact .inl (List.mem_singleton.mp hx)
  · exact .inr ⟨l, hmem, hx⟩

/-- What is not in the parts, nor in what is put around and between them, is not in the whole. -/
theorem notMem_framed {left right : α} (hleft : x ≠ left) (hseparator : x ≠ separator)
    (hright : x ≠ right) (hparts : ∀ l ∈ ls, x ∉ l) :
    x ∉ left :: ([separator].intercalate ls ++ [right]) := by
  intro hmem
  rcases List.mem_cons.mp hmem with heq | hrest
  · exact hleft heq
  rcases List.mem_append.mp hrest with hinner | hlast
  · rcases mem_of_mem_intercalate hinner with heq | ⟨l, hl, hx⟩
    · exact hseparator heq
    · exact hparts l hl hx
  · exact hright (List.mem_singleton.mp hlast)

theorem intercalate_concat_nil (h : ls ≠ []) :
    [separator].intercalate (ls ++ [[]]) = [separator].intercalate ls ++ [separator] := by
  induction ls with
  | nil => exact absurd rfl h
  | cons l rest ih =>
      cases rest with
      | nil => simp
      | cons next others =>
          have hrest := ih (List.cons_ne_nil next others)
          rw [List.cons_append] at hrest
          rw [List.cons_append, List.cons_append, List.intercalate_cons_cons,
            List.intercalate_cons_cons, hrest]
          simp

/-- How long parts and separators are together depends on the lengths of the parts alone. -/
theorem length_intercalate_congr {other : α} {parts : List (List α)}
    (h : ls.map List.length = parts.map List.length) :
    ([separator].intercalate ls).length = ([other].intercalate parts).length := by
  induction ls generalizing parts with
  | nil =>
      obtain rfl : parts = [] := List.map_eq_nil_iff.mp h.symm
      rfl
  | cons l rest ih =>
      obtain ⟨part, others, rfl, hpart, hothers⟩ := List.map_eq_cons_iff.mp h.symm
      have hrest := ih hothers.symm
      cases rest with
      | nil =>
          obtain rfl : others = [] := List.map_eq_nil_iff.mp hothers
          simp [hpart]
      | cons next later =>
          obtain ⟨second, more, rfl, -, -⟩ := List.map_eq_cons_iff.mp hothers
          rw [List.intercalate_cons_cons, List.intercalate_cons_cons]
          simp only [List.length_append, List.length_singleton, hrest, hpart]

/-- Every second element, beginning with the first. -/
def everyOther : List α → List α
  | [] => []
  | [x] => [x]
  | x :: _ :: rest => x :: everyOther rest

theorem everyOther_intersperse (l : List α) : everyOther (l.intersperse separator) = l := by
  induction l with
  | nil => rfl
  | cons x rest ih =>
      cases rest with
      | nil => rfl
      | cons next others =>
          rw [List.intersperse_cons_cons, everyOther, ih]

end Separators

namespace TextTable

/-! ## The widths of columns -/

/-- No cell is wider than the widest of its column. -/
def Within (cells : List String) (widest : List Nat) : Prop :=
  List.Forall₂ (fun cell width => cell.length ≤ width) cells widest

/-- Each cell is narrower than its column by two characters at least. -/
def Fits (cells : List String) (widths : List Nat) : Prop :=
  List.Forall₂ (fun cell width => cell.length + 2 ≤ width) cells widths

/-- The widest cells, when one more row has been looked at. -/
def widen (widest : List Nat) (row : List String) : List Nat :=
  List.zipWith (fun width cell => max width cell.length) widest row

theorem widths_eq (table : TextTable) :
    table.widths = (table.rows.foldl widen (table.header.map String.length)).map (· + 2) := rfl

variable {table : TextTable} {cells row : List String} {widest widths : List Nat}
  {rows : List (List String)}

theorem length_widen (h : row.length = widest.length) :
    (widen widest row).length = widest.length := by
  rw [widen, List.length_zipWith]
  omega

/-- One more row leaves room for the cells there were, and makes room for its own. -/
theorem within_widen (h : Within cells widest) (hrow : row.length = widest.length) :
    Within cells (widen widest row) ∧ Within row (widen widest row) := by
  induction h generalizing row with
  | nil =>
      obtain rfl : row = [] := List.length_eq_zero_iff.mp hrow
      exact ⟨.nil, .nil⟩
  | @cons cell width cells widest hcell _ ih =>
      cases row with
      | nil => cases hrow
      | cons first rest =>
          obtain ⟨hcells, hrest⟩ := ih (Nat.succ.inj hrow)
          exact ⟨.cons (Nat.le_trans hcell (Nat.le_max_left _ _)) hcells,
            .cons (Nat.le_max_right _ _) hrest⟩

/-- In the end there is room for the first cells and for those of all rows. -/
theorem within_foldl_widen (h : Within cells widest)
    (hrows : ∀ row ∈ rows, row.length = widest.length) :
    ∀ line ∈ cells :: rows, Within line (rows.foldl widen widest) := by
  induction rows generalizing cells widest with
  | nil =>
      intro line hline
      obtain rfl := List.mem_singleton.mp hline
      exact h
  | cons row rest ih =>
      obtain ⟨hrow, hrest⟩ := List.forall_mem_cons.mp hrows
      obtain ⟨hcells, hown⟩ := within_widen h hrow
      have hlater : ∀ line ∈ rest, line.length = (widen widest row).length := by
        intro line hline
        rw [length_widen hrow]
        exact hrest line hline
      intro line hline
      rcases List.mem_cons.mp hline with rfl | hmem
      · exact ih hcells hlater _ List.mem_cons_self
      · exact ih hown hlater line hmem

/-- **The cells of every row fit their columns.** -/
theorem fits_widths (h : ∀ row ∈ table.rows, row.length = table.header.length) :
    ∀ cells ∈ table.header :: table.rows, Fits cells table.widths := by
  have hheader : Within table.header (table.header.map String.length) := by
    rw [Within, List.forall₂_map_right_iff, List.forall₂_same]
    exact fun cell _ => Nat.le_refl _
  intro cells hcells
  rw [Fits, widths_eq, List.forall₂_map_right_iff]
  refine (within_foldl_widen hheader (fun row hrow => ?_) cells hcells).imp fun cell width hle => ?_
  · rw [List.length_map, h row hrow]
  · exact Nat.add_le_add_right hle 2

/-! ## The length of a line -/

theorem toList_padCell (width : Nat) (cell : String) :
    (padCell width cell).toList =
      ' ' :: (cell.toList ++ List.replicate (width - 1 - cell.length) ' ') := by
  simp [padCell]

theorem length_padCell {width : Nat} {cell : String} (h : cell.length + 2 ≤ width) :
    (padCell width cell).toList.length = width := by
  rw [toList_padCell, List.length_cons, List.length_append, List.length_replicate,
    String.length_toList]
  omega

theorem toList_line (border : Border) (widths : List Nat) :
    (border.line widths).toList = border.left ::
      ([border.cross].intercalate (widths.map fun width => List.replicate width border.fill) ++
        [border.right]) := by
  rw [Border.line, String.toList_ofList]

/-- What stands between the bars of the line of some cells. -/
def columns (widths : List Nat) (cells : List String) : List (List Char) :=
  (List.zipWith padCell widths cells).map String.toList

theorem exists_of_mem_columns {chars : List Char} (h : chars ∈ columns widths cells) :
    ∃ width, ∃ cell ∈ cells, chars = (padCell width cell).toList := by
  induction cells generalizing widths with
  | nil => simp [columns] at h
  | cons cell rest ih =>
      cases widths with
      | nil => simp [columns] at h
      | cons width others =>
          rcases List.mem_cons.mp h with rfl | hlater
          · exact ⟨width, cell, List.mem_cons_self, rfl⟩
          · obtain ⟨found, other, hother, hchars⟩ := ih hlater
            exact ⟨found, other, List.mem_cons_of_mem _ hother, hchars⟩

theorem toList_rowLine (widths : List Nat) (cells : List String) :
    (rowLine widths cells).toList =
      '|' :: (['|'].intercalate (columns widths cells) ++ ['|']) := by
  rw [rowLine, String.toList_append, String.toList_append, String.toList_intercalate]
  rfl

/-- How long a line is across columns of the given widths. -/
def lineLength (widths : List Nat) : Nat :=
  (['|'].intercalate (widths.map fun width => List.replicate width ' ')).length + 2

theorem length_line (border : Border) (widths : List Nat) :
    (border.line widths).length = lineLength widths := by
  have hcolumns : (widths.map fun width => List.replicate width border.fill).map List.length =
      (widths.map fun width => List.replicate width ' ').map List.length := by
    simp
  rw [← String.length_toList, toList_line, List.length_cons, List.length_append,
    length_intercalate_congr hcolumns]
  rfl

theorem Fits.map_length_columns (h : Fits cells widths) :
    (columns widths cells).map List.length = widths := by
  induction h with
  | nil => rfl
  | cons hcell _ ih =>
      rw [columns, List.zipWith_cons_cons, List.map_cons, List.map_cons, length_padCell hcell]
      exact congrArg _ ih

theorem Fits.length_rowLine (h : Fits cells widths) :
    (rowLine widths cells).length = lineLength widths := by
  have hcolumns : (columns widths cells).map List.length =
      (widths.map fun width => List.replicate width ' ').map List.length := by
    rw [h.map_length_columns]
    simp [Function.comp_def]
  rw [← String.length_toList, toList_rowLine, List.length_cons, List.length_append,
    length_intercalate_congr hcolumns]
  rfl

/-! ## The lines of a table -/

theorem mem_lines {line : String} (h : line ∈ table.lines) :
    (∃ border ∈ [Border.outer, Border.heading, Border.inner], line = border.line table.widths) ∨
      ∃ cells ∈ table.header :: table.rows, line = rowLine table.widths cells := by
  simp only [lines, List.mem_append, List.mem_cons, List.not_mem_nil, or_false] at h
  rcases h with ((rfl | rfl | rfl) | hrow) | rfl
  · exact .inl ⟨Border.outer, by simp, rfl⟩
  · exact .inr ⟨table.header, by simp, rfl⟩
  · exact .inl ⟨Border.heading, by simp, rfl⟩
  · rcases mem_of_mem_intersperse hrow with rfl | hmem
    · exact .inl ⟨Border.inner, by simp, rfl⟩
    · obtain ⟨cells, hcells, rfl⟩ := List.mem_map.mp hmem
      exact .inr ⟨cells, List.mem_cons_of_mem _ hcells, rfl⟩
  · exact .inl ⟨Border.outer, by simp, rfl⟩

theorem length_lines (table : TextTable) :
    table.lines.length = 4 + table.rows.length + (table.rows.length - 1) := by
  simp only [lines, List.length_append, List.length_intersperse, List.length_map, List.length_cons,
    List.length_nil]
  omega

/-- **All lines are of one length.** -/
theorem length_of_mem_lines (h : ∀ row ∈ table.rows, row.length = table.header.length)
    {line : String} (hline : line ∈ table.lines) : line.length = lineLength table.widths := by
  rcases mem_lines hline with ⟨border, -, rfl⟩ | ⟨cells, hcells, rfl⟩
  · exact length_line border table.widths
  · exact (fits_widths h cells hcells).length_rowLine

/-! ## Reading a table -/

/-- The table as a text, one line under the other. -/
def text (table : TextTable) : String := "\n".intercalate table.lines

/-- The lines of a text. -/
def readLines (text : String) : List String := (text.toList.splitOn '\n').map String.ofList

/-- The characters between the spaces at both ends. -/
def trimSpaces (chars : List Char) : List Char :=
  (chars.dropWhile (· == ' ')).rdropWhile (· == ' ')

/-- What stands between the bars of a line, without the spaces around it. -/
def readCells (line : String) : List String :=
  (line.toList.splitOn '|').tail.dropLast.map fun chars => String.ofList (trimSpaces chars)

/--
The cells of the rows in the text of a table. Rows begin on the fourth line, with a rule between one
and the next, and are followed by a border.
-/
def readRows (text : String) : List (List String) :=
  (everyOther ((readLines text).drop 3).dropLast).map readCells

/-- A cell without bars and blanks, line breaks among them. -/
def Plain (cell : String) : Prop :=
  ∀ char ∈ cell.toList, char ≠ '|' ∧ isBlank char = false

-- by way of the list: there are finitely many characters, and they are not to be gone through
instance (cell : String) : Decidable (Plain cell) :=
  List.decidableBAll (fun char => char ≠ '|' ∧ isBlank char = false) cell.toList

/-- A table whose rows can be told from its text. -/
structure Legible (table : TextTable) : Prop where
  /-- There is a column. -/
  columns : table.header ≠ []
  /-- There is a cell in each column. -/
  rows : ∀ row ∈ table.rows, row.length = table.header.length
  plain : ∀ cells ∈ table.header :: table.rows, ∀ cell ∈ cells, Plain cell

theorem Plain.ne_of_isBlank {cell : String} {blank : Char} (h : Plain cell)
    (hblank : isBlank blank = true) : ∀ char ∈ cell.toList, char ≠ blank := by
  intro char hchar heq
  have hplain := (h char hchar).2
  rw [heq, hblank] at hplain
  cases hplain

/-! ## Cells -/

theorem dropWhile_eq_self_of_forall_ne {chars : List Char} (h : ∀ char ∈ chars, char ≠ ' ') :
    chars.dropWhile (· == ' ') = chars := by
  cases chars with
  | nil => rfl
  | cons first rest =>
      have hfirst : (first == ' ') = false := beq_eq_false_iff_ne.mpr (h first List.mem_cons_self)
      rw [List.dropWhile_cons, hfirst]
      rfl

theorem rdropWhile_append_spaces {chars : List Char} (count : Nat)
    (h : ∀ char ∈ chars, char ≠ ' ') :
    (chars ++ List.replicate count ' ').rdropWhile (· == ' ') = chars := by
  have hspaces : ∀ char ∈ List.replicate count ' ', (char == ' ') = true := by
    intro char hchar
    rw [List.eq_of_mem_replicate hchar, beq_self_eq_true]
  have hreverse : ∀ char ∈ chars.reverse, char ≠ ' ' :=
    fun char hchar => h char (List.mem_reverse.mp hchar)
  rw [List.rdropWhile, List.reverse_append, List.reverse_replicate,
    List.dropWhile_append_of_pos hspaces, dropWhile_eq_self_of_forall_ne hreverse,
    List.reverse_reverse]

/-- The spaces around a cell are told from the cell. -/
theorem trimSpaces_padCell {width : Nat} {cell : String} (h : Plain cell) :
    trimSpaces (padCell width cell).toList = cell.toList := by
  have hspace : ∀ char ∈ cell.toList, char ≠ ' ' := h.ne_of_isBlank (by decide)
  rw [toList_padCell, trimSpaces, List.dropWhile_cons_of_pos (by rfl)]
  cases hcell : cell.toList with
  | nil =>
      -- nothing but spaces
      rw [List.nil_append, List.dropWhile_eq_nil_iff.mpr]
      · rfl
      · intro char hchar
        rw [List.eq_of_mem_replicate hchar, beq_self_eq_true]
  | cons first rest =>
      rw [hcell] at hspace
      have hfirst : (first == ' ') = false :=
        beq_eq_false_iff_ne.mpr (hspace first List.mem_cons_self)
      rw [List.cons_append, List.dropWhile_cons, hfirst, if_neg Bool.false_ne_true,
        ← List.cons_append, rdropWhile_append_spaces _ hspace]

theorem Fits.map_trimSpaces (h : Fits cells widths) (hplain : ∀ cell ∈ cells, Plain cell) :
    (columns widths cells).map (fun chars => String.ofList (trimSpaces chars)) = cells := by
  induction h with
  | nil => rfl
  | cons _ _ ih =>
      obtain ⟨hcell, hrest⟩ := List.forall_mem_cons.mp hplain
      rw [columns, List.zipWith_cons_cons, List.map_cons, List.map_cons, trimSpaces_padCell hcell,
        String.ofList_toList]
      exact congrArg _ (ih hrest)

/-- The characters of a row are those of its cells, and spaces. -/
theorem mem_columns {chars : List Char} {char : Char} (h : chars ∈ columns widths cells)
    (hchar : char ∈ chars) : char = ' ' ∨ ∃ cell ∈ cells, char ∈ cell.toList := by
  obtain ⟨width, cell, hcell, rfl⟩ := exists_of_mem_columns h
  rw [toList_padCell] at hchar
  rcases List.mem_cons.mp hchar with rfl | hrest
  · exact .inl rfl
  · rcases List.mem_append.mp hrest with hmem | hspace
    · exact .inr ⟨cell, hcell, hmem⟩
    · exact .inl (List.eq_of_mem_replicate hspace)

theorem bar_notMem_of_mem_columns (hplain : ∀ cell ∈ cells, Plain cell) {chars : List Char}
    (h : chars ∈ columns widths cells) : '|' ∉ chars := by
  intro hbar
  rcases mem_columns h hbar with hspace | ⟨cell, hcell, hmem⟩
  · cases hspace
  · exact (hplain cell hcell '|' hmem).1 rfl

/-- **The cells of a row are read from its line.** -/
theorem Fits.readCells_rowLine (h : Fits cells widths) (hne : cells ≠ [])
    (hplain : ∀ cell ∈ cells, Plain cell) : readCells (rowLine widths cells) = cells := by
  have hcolumns : columns widths cells ≠ [] := by
    cases h with
    | nil => exact absurd rfl hne
    | cons => exact List.cons_ne_nil _ _
  have hbar : ∀ chars ∈ [] :: (columns widths cells ++ [[]]), '|' ∉ chars := by
    intro chars hchars
    simp only [List.mem_cons, List.mem_append, List.not_mem_nil, or_false] at hchars
    rcases hchars with rfl | hmem | rfl
    · exact List.not_mem_nil
    · exact bar_notMem_of_mem_columns hplain hmem
    · exact List.not_mem_nil
  have hline : (rowLine widths cells).toList =
      ['|'].intercalate ([] :: (columns widths cells ++ [[]])) := by
    rw [toList_rowLine, List.intercalate_cons_of_ne_nil (by simp),
      intercalate_concat_nil hcolumns]
    rfl
  rw [readCells, hline, List.splitOn_intercalate '|' hbar (List.cons_ne_nil _ _), List.tail_cons,
    List.dropLast_concat, h.map_trimSpaces hplain]

/-! ## Lines and rows -/

theorem newline_notMem_line {border : Border}
    (h : border ∈ [Border.outer, Border.heading, Border.inner]) (widths : List Nat) :
    '\n' ∉ (border.line widths).toList := by
  have hall : ∀ border ∈ [Border.outer, Border.heading, Border.inner],
      border.left ≠ '\n' ∧ border.fill ≠ '\n' ∧ border.cross ≠ '\n' ∧ border.right ≠ '\n' := by
    simp [Border.outer, Border.heading, Border.inner]
  obtain ⟨hleft, hfill, hcross, hright⟩ := hall border h
  rw [toList_line]
  refine notMem_framed hleft.symm hcross.symm hright.symm fun chars hchars hmem => ?_
  obtain ⟨width, -, rfl⟩ := List.mem_map.mp hchars
  exact hfill (List.eq_of_mem_replicate hmem).symm

theorem newline_notMem_rowLine (hplain : ∀ cell ∈ cells, Plain cell) (widths : List Nat) :
    '\n' ∉ (rowLine widths cells).toList := by
  have hbar : '\n' ≠ '|' := by decide
  rw [toList_rowLine]
  refine notMem_framed hbar hbar hbar fun chars hchars hmem => ?_
  rcases mem_columns hchars hmem with hspace | ⟨cell, hcell, hnewline⟩
  · cases hspace
  · exact (hplain cell hcell).ne_of_isBlank (by decide) _ hnewline rfl

theorem Legible.newline_notMem (h : table.Legible) {line : String} (hline : line ∈ table.lines) :
    '\n' ∉ line.toList := by
  rcases mem_lines hline with ⟨border, hborder, rfl⟩ | ⟨cells, hcells, rfl⟩
  · exact newline_notMem_line hborder table.widths
  · exact newline_notMem_rowLine (h.plain cells hcells) table.widths

/-- **The lines of a table are read from its text.** -/
theorem Legible.readLines_text (h : table.Legible) : readLines table.text = table.lines := by
  have hlines : table.lines.map String.toList ≠ [] := by
    simp [lines]
  have hnewline : ∀ chars ∈ table.lines.map String.toList, '\n' ∉ chars := by
    intro chars hchars
    obtain ⟨line, hline, rfl⟩ := List.mem_map.mp hchars
    exact h.newline_notMem hline
  have htext : table.text.toList = ['\n'].intercalate (table.lines.map String.toList) :=
    String.toList_intercalate
  rw [readLines, htext, List.splitOn_intercalate '\n' hnewline hlines, List.map_map]
  exact (List.map_congr_left fun line _ => String.ofList_toList).trans (List.map_id' _)

/-- **The rows of a table are read from its text.** -/
theorem Legible.readRows_text (h : table.Legible) : readRows table.text = table.rows := by
  have hrows : (table.lines.drop 3).dropLast =
      (table.rows.map (rowLine table.widths)).intersperse (Border.inner.line table.widths) := by
    show (_ ++ [_]).dropLast = _
    exact List.dropLast_concat
  rw [readRows, h.readLines_text, hrows, everyOther_intersperse, List.map_map]
  refine (List.map_congr_left fun row hrow => ?_).trans (List.map_id' _)
  have hmem : row ∈ table.header :: table.rows := List.mem_cons_of_mem _ hrow
  have hne : row ≠ [] := by
    intro hnone
    have hlength := h.rows row hrow
    rw [hnone] at hlength
    exact h.columns (List.length_eq_zero_iff.mp hlength.symm)
  exact (fits_widths h.rows row hmem).readCells_rowLine hne (h.plain row hmem)

end TextTable

/-! ## Recorded timings -/

variable {char : Char} {cell : String} {timings : Timings}

theorem isBlank_of_isDigit (h : char.isDigit = true) : isBlank char = false := by
  simp only [Char.isDigit, Bool.and_eq_true, decide_eq_true_eq] at h
  have hfirst : 48 ≤ char.toNat := h.1
  have hlast : char.toNat ≤ 57 := h.2
  have hapart : ∀ range ∈ blankRanges, range.2 < 48 ∨ 57 < range.1 := by decide
  rw [isBlank, List.any_eq_false]
  intro range hrange hwithin
  rw [Bool.and_eq_true, decide_eq_true_eq, decide_eq_true_eq] at hwithin
  have houtside := hapart range hrange
  omega

/-- What times, laps and numbers are written in is neither a bar nor blank. -/
theorem ne_bar_and_not_isBlank
    (h : char.isDigit = true ∨ char ∈ ['@', '.', 's', 'm', 'µ', 'n']) :
    char ≠ '|' ∧ isBlank char = false := by
  rcases h with hdigit | hsign
  · refine ⟨?_, isBlank_of_isDigit hdigit⟩
    rintro rfl
    cases hdigit
  · simp only [List.mem_cons, List.not_mem_nil, or_false] at hsign
    rcases hsign with rfl | rfl | rfl | rfl | rfl | rfl <;> decide

theorem plain_toString (number : Nat) : TextTable.Plain (toString number) :=
  fun char hchar =>
    ne_bar_and_not_isBlank (.inl ((Numeral.spells_toString number).digits char hchar))

theorem BlockSize.plain_label (size : BlockSize) : TextTable.Plain size.label := by
  cases size <;> decide

theorem Duration.plain_text (duration : Duration) : TextTable.Plain duration.text := by
  intro char hchar
  exact ne_bar_and_not_isBlank ((Duration.mem_text hchar).imp_right (List.mem_cons_of_mem _))

theorem Lap.plain_text (lap : Lap) : TextTable.Plain lap.text :=
  fun _ hchar => ne_bar_and_not_isBlank (Lap.mem_text hchar)

namespace Timings

theorem plain_of_mem_rowCells {size : BlockSize} {series : Series}
    (h : cell ∈ rowCells size series) : TextTable.Plain cell := by
  simp only [rowCells, List.mem_cons, List.not_mem_nil, or_false] at h
  rcases h with rfl | rfl | rfl | rfl | rfl | rfl | rfl
  · exact size.plain_label
  · exact series.average.plain_text
  · exact series.fastest.plain_text
  · exact series.slowest.plain_text
  · exact plain_toString _
  · exact plain_toString _
  · exact plain_toString _

theorem exists_of_mem_cells {row : List String} (h : row ∈ timings.cells) :
    ∃ size series, (size, series) ∈ timings.rows ∧ row = rowCells size series := by
  obtain ⟨⟨size, series⟩, hrow, rfl⟩ := List.mem_map.mp h
  exact ⟨size, series, hrow, rfl⟩

theorem length_of_mem_cells {row : List String} (h : row ∈ timings.cells) : row.length = 7 := by
  obtain ⟨size, series, -, rfl⟩ := exists_of_mem_cells h
  rfl

theorem plain_of_mem_cells {row : List String} (h : row ∈ timings.cells) :
    ∀ cell ∈ row, TextTable.Plain cell := by
  obtain ⟨size, series, -, rfl⟩ := exists_of_mem_cells h
  exact fun cell hcell => plain_of_mem_rowCells hcell

/-- **The table of any timings can be read.** -/
theorem legible_table (timings : Timings) : timings.table.Legible where
  columns := List.cons_ne_nil _ _
  rows := fun _ hrow => length_of_mem_cells hrow
  plain := by
    intro cells hcells
    rcases List.mem_cons.mp hcells with rfl | hrow
    · show ∀ cell ∈ ["Block", "Avg", "Fastest@Idx", "Slowest@Idx", "Passes", "Moved", "Freed"],
        TextTable.Plain cell
      decide
    · exact plain_of_mem_cells hrow

theorem summary_text (timings : Timings) :
    timings.summary.text = "\n" ++ timings.table.text := rfl

theorem length_rows_table (timings : Timings) : timings.table.rows.length = timings.rows.length :=
  List.length_map _

end Timings

/--
**The table of recorded timings is a rectangle from which their cells can be read back.**

Let the passes of a history take no longer together, at each block size, than a duration can say.
Then they can be recorded one after the other, and there is a row for each block size that occurs,
in the order of first occurrence. The table of these timings, which is logged under a line of its
own, has a line for each row and one less between the rows, besides the header and the borders. All
its lines are of as many characters.

If the lines of rows are cut at the bars, and the spaces at both ends of a cell are dropped, what
remains are the seven cells of each row, in the order of the rows. For there is no bar in a cell,
and no space, line break or any other blank character. So timings that come of another history and
have the same table have the same cells, row by row.
-/
theorem recordAll_table {history : List TimedPass}
    (hfits : ∀ size, totalTime (passesAt size history) ≤ Duration.limit) :
    ∃ timings, Timings.recordAll {} history = .ok timings ∧
      timings.rows.map Prod.fst = (history.map fun pass => pass.report.blockSize).eraseDups ∧
      timings.summary.text = "\n" ++ timings.table.text ∧
      (TextTable.readLines timings.table.text).length =
        4 + timings.rows.length + (timings.rows.length - 1) ∧
      (∀ first ∈ TextTable.readLines timings.table.text,
        ∀ second ∈ TextTable.readLines timings.table.text, first.length = second.length) ∧
      TextTable.readRows timings.table.text =
        timings.rows.map (fun row => Timings.rowCells row.1 row.2) ∧
      (∀ row ∈ timings.cells, row.length = 7 ∧
        ∀ cell ∈ row, ∀ char ∈ cell.toList, char ≠ '|' ∧ isBlank char = false) ∧
      ∀ others otherTimings, Timings.recordAll {} others = .ok otherTimings →
        otherTimings.table.text = timings.table.text → otherTimings.cells = timings.cells := by
  obtain ⟨timings, hrun, hgroups⟩ := Timings.exists_groups_of_fits hfits
  have hlegible := timings.legible_table
  refine ⟨timings, hrun, hgroups.sizes, timings.summary_text, ?_, ?_, hlegible.readRows_text, ?_,
    ?_⟩
  · rw [hlegible.readLines_text, TextTable.length_lines, timings.length_rows_table]
  · rw [hlegible.readLines_text]
    intro first hfirst second hsecond
    rw [TextTable.length_of_mem_lines hlegible.rows hfirst,
      TextTable.length_of_mem_lines hlegible.rows hsecond]
  · exact fun row hrow =>
      ⟨Timings.length_of_mem_cells hrow, Timings.plain_of_mem_cells hrow⟩
  · intro others otherTimings _ htext
    have hrows := otherTimings.legible_table.readRows_text
    rw [htext, hlegible.readRows_text] at hrows
    exact hrows.symm

/-- The passes of `interleaved`, the first of which takes a nanosecond longer. -/
def nudged : List TimedPass :=
  ⟨{ blockSize := .two, movedBlocks := 1, freedBytes := 6 }, ⟨30001, by decide⟩⟩ :: interleaved.tail

/-- A nanosecond that is lost when the average is rounded is not in the table. -/
theorem recordAll_table_nudged :
    ∃ timings otherTimings, Timings.recordAll {} interleaved = .ok timings ∧
      Timings.recordAll {} nudged = .ok otherTimings ∧ otherTimings ≠ timings ∧
      otherTimings.cells = timings.cells ∧
      (TextTable.readLines timings.table.text).length = 7 ∧
      TextTable.readRows timings.table.text =
        [["2B", "30µs", "10µs@2", "50µs@3", "5", "6", "10"],
          ["1B", "1ns", "1ns@1", "1ns@1", "1", "3", "1"]] := by
  have hrun : Timings.recordAll {} interleaved = .ok
      { rows := [
          (.two, ⟨5, ⟨150000, by decide⟩, ⟨2, ⟨10000, by decide⟩⟩, ⟨3, ⟨50000, by decide⟩⟩, 6, 10⟩),
          (.one, ⟨1, ⟨1, by decide⟩, ⟨1, ⟨1, by decide⟩⟩, ⟨1, ⟨1, by decide⟩⟩, 3, 1⟩)] } := by
    decide +kernel
  have hnudged : Timings.recordAll {} nudged = .ok
      { rows := [
          (.two, ⟨5, ⟨150001, by decide⟩, ⟨2, ⟨10000, by decide⟩⟩, ⟨3, ⟨50000, by decide⟩⟩, 6, 10⟩),
          (.one, ⟨1, ⟨1, by decide⟩, ⟨1, ⟨1, by decide⟩⟩, ⟨1, ⟨1, by decide⟩⟩, 3, 1⟩)] } := by
    decide +kernel
  obtain ⟨timings, hagain, -, -, hlines, -, hrows, -, hcells⟩ := recordAll_table interleaved_fits
  obtain rfl := Except.ok.inj (hrun.symm.trans hagain)
  refine ⟨_, _, hrun, hnudged, by decide, hcells nudged _ hnudged ?_, hlines, hrows.trans ?_⟩
  · decide +kernel
  · decide +kernel

end Compaction
