import PrefixForth.Text.Width

/-!
# Boxed tables

A table has a title, a header and rows of cells, and is drawn with lines around all of them. Every
cell is padded with one blank on both sides to the width of its column, which is that of its widest
line. In a cell a tab stands for four blanks, carriage returns are dropped, and a line feed starts a
new line; the other cells of the row are blank there. Blanks at the end of a line do not count.

A terminal sequence that is open at the end of a line hides what follows when a column is measured,
but not when the next line is drawn: such a line can stick out of its column.
-/

namespace PrefixForth

/-- A table to be drawn. -/
structure BoxTable where
  title : Bytes
  header : List Bytes
  rows : List (List Bytes)
  deriving DecidableEq, Repr

namespace BoxTable

/-- The bytes of a cell as they are drawn: tabs are widened and carriage returns are dropped. -/
def cleanCell (s : Bytes) : Bytes :=
  s.flatMap fun b => if b = 9 then List.replicate 4 blank else if b = 13 then [] else [b]

/-- The widths of the columns. -/
def columnWidths (rows : List (List Bytes)) (columns : Nat) : List Nat :=
  (List.range columns).map fun i =>
    (rows.map fun row => longestLine (row.getD i [])).foldl max 0

/-- A line without the blanks at its end. -/
def trimLine (s : Bytes) : Bytes :=
  (s.reverse.dropWhile (· = blank)).reverse

/-- A line padded to a width. -/
def pad (width : Nat) (s : Bytes) : Bytes :=
  let line := trimLine s
  line ++ List.replicate (width - displayWidth line) blank

/-- One line of cells between vertical lines. -/
def drawCells (widths : List Nat) (cells : List Bytes) : Bytes :=
  let padded := widths.zipIdx.map fun (width, i) => utf8 " " ++ pad width (cells.getD i []) ++ utf8 " "
  utf8 "│" ++ (utf8 "│").intercalate padded ++ utf8 "│"

/-- The lines of a row of cells. -/
def drawRow (widths : List Nat) (row : List Bytes) : List Bytes :=
  let cells := row.map (splitAt lineFeed)
  let height := (cells.map List.length).foldl max 0
  (List.range height).map fun k => drawCells widths (cells.map fun lines => lines.getD k [])

/-- A horizontal line, with the given ends and crossings. -/
def drawRule (left crossing right : String) (widths : List Nat) : Bytes :=
  let parts := widths.map fun width => (List.replicate (width + 2) (utf8 "─")).flatten
  utf8 left ++ (utf8 crossing).intercalate parts ++ utf8 right

/-- The table as it is drawn, without a line feed after its last line. -/
def draw (t : BoxTable) : Bytes :=
  let rows := t.rows.map (·.map cleanCell)
  let widths := columnWidths (t.header :: rows) t.header.length
  let inner := (widths.map (· + 2)).foldl (· + ·) 0 + (widths.length - 1)
  let lines := [
    drawRule "┌" "─" "┐" widths,
    utf8 "│ " ++ pad (inner - 2) t.title ++ utf8 " │",
    drawRule "├" "┬" "┤" widths] ++
    drawRow widths t.header ++ [drawRule "├" "┼" "┤" widths] ++
    rows.flatMap (drawRow widths) ++ [drawRule "└" "┴" "┘" widths]
  [lineFeed].intercalate lines

end BoxTable

end PrefixForth
