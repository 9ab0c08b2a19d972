import Purse.Output

/-!
# Sorting rows by column

Rows are sorted stably; in descending order the comparison is turned round and
not the result, so that ties keep their order either way. A tracker counts the
clicks on the active column: odd counts sort ascending, even ones descending, and
another column starts a new count.
-/

namespace Purse

/-- The columns that a table of outputs can be sorted by. -/
inductive Column where
  | amount
  | address
  | confirmations
  | received
  deriving DecidableEq, Repr

/-- The direction of a sort. -/
inductive Direction where
  | ascending
  | descending
  deriving DecidableEq, Repr

def Direction.reversed : Direction → Direction
  | ascending => descending
  | descending => ascending

/-- An unspent output with its selection flag. -/
structure Row where
  output : UnspentOutput
  selected : Bool
  deriving DecidableEq, Repr, Inhabited

/-- How two outputs compare on a column; addresses compare as text. -/
def Column.compare (c : Column) (a b : UnspentOutput) : Ordering :=
  match c with
  | amount => Ord.compare a.amount b.amount
  | address => Ord.compare a.address b.address
  | confirmations => Ord.compare a.confirmations b.confirmations
  | received => Ord.compare a.received b.received

/-- Whether one row may stand before another. -/
def Column.inOrder (c : Column) (d : Direction) (a b : Row) : Bool :=
  match d with
  | .ascending => (c.compare a.output b.output).isLE
  | .descending => (c.compare b.output a.output).isLE

/-- The rows sorted by a column; rows that tie keep their order. -/
def sortRows (c : Column) (d : Direction) (rows : List Row) : List Row :=
  rows.mergeSort (c.inOrder d)

/-- The clicks on the active column. -/
structure Tracker where
  column : Option Column := none
  clicks : UInt32 := 0
  deriving DecidableEq, Repr, Inhabited

namespace Tracker

/-- The direction that the number of clicks stands for. -/
def direction (t : Tracker) : Direction :=
  if t.clicks % 2 = 1 then .ascending else .descending

/-- One more click, the first one if the column was not active. -/
def click (t : Tracker) (c : Column) : Tracker :=
  if t.column = some c then { t with clicks := t.clicks + 1 } else ⟨some c, 1⟩

/-- The active column and the direction of its last sort. -/
def indicator (t : Tracker) : Option (Column × Direction) :=
  t.column.map fun c => (c, t.direction)

/-- No column active. -/
def fresh : Tracker := {}

end Tracker

end Purse
