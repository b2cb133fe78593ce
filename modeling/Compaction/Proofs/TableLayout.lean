import Compaction.Proofs.TableText

/-!
# The layout of tables

How a table is to be drawn is an assumption: it is the layout that text tables have where nothing
else is asked for. `TextTable.Layout` states it by itself. It says how wide the columns are, what
stands in a line of cells and in which order the lines come, and not a word of how widths are found
or cells filled up.

A table with a cell in each column can be laid out in one way only, and that is how
`TextTable.lines` draws it (`TextTable.layout_iff`).
-/

namespace Compaction

namespace TextTable

/-! ## The assumption -/

/-- Every column is two characters wider than the widest of its cells. -/
structure Wide (table : TextTable) (widths : List Nat) : Prop where
  room : ∀ cells ∈ table.header :: table.rows, Fits cells widths
  tight : ∀ (column width : Nat), widths[column]? = some width →
    ∃ cells ∈ table.header :: table.rows, ∃ cell : String, cells[column]? = some cell ∧
      width = cell.length + 2

/-- In each column the cell stands behind one space and is filled up with spaces, one at least. -/
inductive InColumns : List Nat → List String → List (List Char) → Prop where
  | nil : InColumns [] [] []
  | cons {cell : String} {count : Nat} {widths : List Nat} {cells : List String}
      {columns : List (List Char)} :
      InColumns widths cells columns →
      InColumns ((1 + cell.length + (count + 1)) :: widths) (cell :: cells)
        ((' ' :: (cell.toList ++ List.replicate (count + 1) ' ')) :: columns)

/-- The line has the cells in its columns, with a bar in front, between and behind them. -/
def HoldsCells (widths : List Nat) (cells : List String) (line : String) : Prop :=
  ∃ columns, InColumns widths cells columns ∧
    line.toList = '|' :: (['|'].intercalate columns ++ ['|'])

/-- Each row has a line, and there is a rule between one line and the next. -/
inductive RuledRows (widths : List Nat) : List (List String) → List String → Prop where
  | nil : RuledRows widths [] []
  | last {cells : List String} {line : String} :
      HoldsCells widths cells line → RuledRows widths [cells] [line]
  | cons {cells next : List String} {rows : List (List String)} {line : String}
      {lines : List String} :
      HoldsCells widths cells line → RuledRows widths (next :: rows) lines →
      RuledRows widths (cells :: next :: rows) (line :: Border.inner.line widths :: lines)

/-- The lines that tables are assumed to be drawn with, where nothing else is asked for. -/
def Layout (table : TextTable) (lines : List String) : Prop :=
  ∃ widths top ruled, Wide table widths ∧ HoldsCells widths table.header top ∧
    RuledRows widths table.rows ruled ∧
    lines = [Border.outer.line widths, top, Border.heading.line widths] ++ ruled ++
      [Border.outer.line widths]

variable {table : TextTable} {cells : List String} {line : String} {widths others : List Nat}
  {rows : List (List String)} {lines : List String}

/-! ## Widths -/

theorem getElem?_widen {widest : List Nat} {row : List String} {column width : Nat}
    (h : (widen widest row)[column]? = some width) :
    widest[column]? = some width ∨
      ∃ cell : String, row[column]? = some cell ∧ width = cell.length := by
  rw [widen, List.getElem?_zipWith_eq_some] at h
  obtain ⟨former, cell, hformer, hcell, rfl⟩ := h
  rcases Nat.le_total cell.length former with hle | hle
  · exact .inl (by rw [hformer, Nat.max_eq_left hle])
  · exact .inr ⟨cell, hcell, Nat.max_eq_right hle⟩

/-- Each of the widest cells is one of those there were, or a cell of a row. -/
theorem getElem?_foldl_widen {widest : List Nat} {column width : Nat}
    (h : (rows.foldl widen widest)[column]? = some width) :
    widest[column]? = some width ∨
      ∃ row ∈ rows, ∃ cell : String, row[column]? = some cell ∧ width = cell.length := by
  induction rows generalizing widest with
  | nil => exact .inl h
  | cons row rest ih =>
      rcases ih h with hwiden | ⟨other, hother, hcell⟩
      · rcases getElem?_widen hwiden with hformer | hcell
        · exact .inl hformer
        · exact .inr ⟨row, List.mem_cons_self, hcell⟩
      · exact .inr ⟨other, List.mem_cons_of_mem _ hother, hcell⟩

/-- **The columns of a table are as wide as assumed.** -/
theorem wide_widths (h : ∀ row ∈ table.rows, row.length = table.header.length) :
    Wide table table.widths where
  room := fits_widths h
  tight := by
    intro column width hwidth
    rw [widths_eq, List.getElem?_map, Option.map_eq_some_iff] at hwidth
    obtain ⟨widest, hwidest, rfl⟩ := hwidth
    rcases getElem?_foldl_widen hwidest with hheader | ⟨row, hrow, cell, hcell, rfl⟩
    · rw [List.getElem?_map, Option.map_eq_some_iff] at hheader
      obtain ⟨cell, hcell, rfl⟩ := hheader
      exact ⟨table.header, List.mem_cons_self, cell, hcell, rfl⟩
    · exact ⟨row, List.mem_cons_of_mem _ hrow, cell, hcell, rfl⟩

theorem Fits.exists_width (h : Fits cells widths) {column : Nat} {cell : String}
    (hcell : cells[column]? = some cell) :
    ∃ width, widths[column]? = some width ∧ cell.length + 2 ≤ width := by
  induction h generalizing column with
  | nil => cases hcell
  | @cons first width _ _ hfirst _ ih =>
      cases column with
      | zero =>
          cases hcell
          exact ⟨width, rfl, hfirst⟩
      | succ column => exact ih hcell

theorem Wide.le (h : Wide table widths) (hother : Wide table others) {column width : Nat}
    (hwidth : widths[column]? = some width) : ∃ other, others[column]? = some other ∧
      width ≤ other := by
  obtain ⟨cells, hcells, cell, hcell, rfl⟩ := h.tight column width hwidth
  exact (hother.room cells hcells).exists_width hcell

/-- **Only one list of widths is as assumed.** -/
theorem Wide.unique (h : Wide table widths) (hother : Wide table others) : widths = others := by
  have hlength : widths.length = others.length := by
    rw [← (h.room _ List.mem_cons_self).length_eq, ← (hother.room _ List.mem_cons_self).length_eq]
  refine List.ext_getElem hlength fun column hlt hlt' => ?_
  obtain ⟨other, hget, hle⟩ := h.le hother (List.getElem?_eq_getElem hlt)
  obtain ⟨width, hget', hle'⟩ := hother.le h (List.getElem?_eq_getElem hlt')
  rw [List.getElem?_eq_getElem hlt'] at hget
  rw [List.getElem?_eq_getElem hlt] at hget'
  cases hget
  cases hget'
  omega

/-! ## Lines of cells -/

theorem Fits.inColumns (h : Fits cells widths) : InColumns widths cells (columns widths cells) := by
  induction h with
  | nil => exact .nil
  | @cons cell width cells widths hcell _ ih =>
      obtain ⟨count, rfl⟩ : ∃ count, width = 1 + cell.length + (count + 1) :=
        ⟨width - cell.length - 2, by omega⟩
      have hpad : (padCell (1 + cell.length + (count + 1)) cell).toList =
          ' ' :: (cell.toList ++ List.replicate (count + 1) ' ') := by
        rw [toList_padCell]
        congr 3
        omega
      rw [columns, List.zipWith_cons_cons, List.map_cons, hpad]
      exact .cons ih

theorem InColumns.eq_columns {found : List (List Char)} (h : InColumns widths cells found) :
    found = columns widths cells := by
  induction h with
  | nil => rfl
  | @cons cell count widths cells found _ ih =>
      rw [columns, List.zipWith_cons_cons, List.map_cons, toList_padCell]
      have hcount : 1 + cell.length + (count + 1) - 1 - cell.length = count + 1 := by omega
      rw [hcount, ih, columns]

/-- **A line of cells is drawn as assumed.** -/
theorem Fits.holdsCells_iff (h : Fits cells widths) :
    HoldsCells widths cells line ↔ line = rowLine widths cells := by
  constructor
  · intro hholds
    obtain ⟨found, hfound, hline⟩ := hholds
    rw [hfound.eq_columns, ← toList_rowLine] at hline
    exact String.toList_inj.mp hline
  · intro heq
    rw [heq]
    exact ⟨columns widths cells, h.inColumns, toList_rowLine widths cells⟩

/-! ## All lines -/

theorem ruledRows_iff (h : ∀ cells ∈ rows, Fits cells widths) :
    RuledRows widths rows lines ↔
      lines = (rows.map (rowLine widths)).intersperse (Border.inner.line widths) := by
  induction rows generalizing lines with
  | nil =>
      constructor
      · intro hruled
        cases hruled
        rfl
      · intro heq
        rw [heq]
        exact .nil
  | cons cells rest ih =>
      obtain ⟨hcells, hrest⟩ := List.forall_mem_cons.mp h
      cases rest with
      | nil =>
          constructor
          · intro hruled
            cases hruled with
            | last hline =>
                rw [hcells.holdsCells_iff.mp hline]
                rfl
          · intro heq
            rw [heq]
            exact .last (hcells.holdsCells_iff.mpr rfl)
      | cons next others =>
          constructor
          · intro hruled
            cases hruled with
            | cons hline hlater =>
                rw [hcells.holdsCells_iff.mp hline, (ih hrest).mp hlater]
                rfl
          · intro heq
            rw [heq]
            exact .cons (hcells.holdsCells_iff.mpr rfl) ((ih hrest).mpr rfl)

/-- **A table is drawn as assumed, and in no other way could it be.** -/
theorem layout_iff (h : ∀ row ∈ table.rows, row.length = table.header.length) :
    Layout table lines ↔ lines = table.lines := by
  have hwide := wide_widths h
  have hheader : Fits table.header table.widths := hwide.room _ List.mem_cons_self
  have hrows : ∀ cells ∈ table.rows, Fits cells table.widths :=
    fun cells hcells => hwide.room cells (List.mem_cons_of_mem _ hcells)
  constructor
  · intro hlayout
    obtain ⟨widths, top, ruled, hwidths, htop, hruled, hlines⟩ := hlayout
    obtain rfl := hwidths.unique hwide
    rw [hlines, hheader.holdsCells_iff.mp htop, (ruledRows_iff hrows).mp hruled]
    rfl
  · intro heq
    rw [heq]
    exact ⟨table.widths, _, _, hwide, hheader.holdsCells_iff.mpr rfl,
      (ruledRows_iff hrows).mpr rfl, rfl⟩

end TextTable

/-- The table of any timings is drawn as assumed. -/
theorem Timings.layout_table (timings : Timings) :
    timings.table.Layout timings.table.lines :=
  (TextTable.layout_iff timings.legible_table.rows).mpr rfl

end Compaction
