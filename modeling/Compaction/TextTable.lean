/-!
# Text tables

Tables drawn with plain characters. A column is two characters wider than its widest cell, a cell
stands behind one space, and widths count characters. There is a border above and below, a double
rule under the header and a rule between one row and the next, so all lines are of one length.

This layout is an assumption. It is the default one of the tables the program prints, whose drawing
is not part of the program. `TextTable.Layout` states what is assumed, apart from how it is drawn.
-/

namespace Compaction

/-- A header and rows of as many cells. -/
structure TextTable where
  header : List String
  rows : List (List String)
  deriving DecidableEq, Repr

/-- The characters a horizontal line is drawn with. -/
structure Border where
  left : Char
  fill : Char
  /-- Where the line meets the line between two columns. -/
  cross : Char
  right : Char

namespace Border

/-- The border above and below a table. -/
def outer : Border := ⟨'+', '-', '+', '+'⟩

/-- The rule under the header, which runs through the columns. -/
def heading : Border := ⟨'+', '=', '=', '+'⟩

/-- The rule between two rows. -/
def inner : Border := ⟨'|', '-', '+', '|'⟩

/-- The line across columns of the given widths. -/
def line (border : Border) (widths : List Nat) : String :=
  let columns := widths.map fun width => List.replicate width border.fill
  String.ofList (border.left :: ([border.cross].intercalate columns ++ [border.right]))

end Border

namespace TextTable

/-- The widths of the columns, the spaces around the cells included. -/
def widths (table : TextTable) : List Nat :=
  let widest := table.rows.foldl
    (fun widest row => List.zipWith (fun width cell => max width cell.length) widest row)
    (table.header.map String.length)
  widest.map (· + 2)

/-- The cell behind a space, filled up to the width of its column. -/
def padCell (width : Nat) (cell : String) : String :=
  " " ++ cell ++ String.ofList (List.replicate (width - 1 - cell.length) ' ')

/-- The line of the given cells. -/
def rowLine (widths : List Nat) (cells : List String) : String :=
  "|" ++ "|".intercalate (List.zipWith padCell widths cells) ++ "|"

/-- The lines of the table from top to bottom. -/
def lines (table : TextTable) : List String :=
  let widths := table.widths
  [Border.outer.line widths, rowLine widths table.header, Border.heading.line widths] ++
    (table.rows.map (rowLine widths)).intersperse (Border.inner.line widths) ++
    [Border.outer.line widths]

end TextTable

end Compaction
