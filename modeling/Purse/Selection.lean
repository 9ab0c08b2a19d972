import Purse.Failure
import Purse.Keyed
import Purse.Selection.Order
import Purse.Sizing

/-!
# Picking outputs by hand

A selection holds the unspent outputs of every account of a wallet in groups of
rows, lets single outputs be picked, and keeps the number, the amount and the
transaction size of the picked ones up to date with every change.

An index from outpoints to places spares the search for a row; where an outpoint
is listed twice, the place that was indexed last counts. Picked outpoints carry
stamps that grow with every pick, so that the picked outputs can be handed over
in the order in which they were picked. After it has been handed over a selection
takes no more picks until it is cleared.

Operations answer with an outcome and the selection as it stands afterwards, also
when the outcome is a failure.
-/

namespace Purse

/-- What can be done with a selection at the moment. -/
inductive Stage where
  /-- No outputs have been loaded. -/
  | empty
  /-- Outputs are loaded, none is picked. -/
  | loaded
  | selecting
  /-- The picked outputs have been handed over. -/
  | submitted
  deriving DecidableEq, Repr, Inhabited

/-- The unspent outputs of one account. -/
structure Group where
  account : UInt32
  name : String
  rows : List Row
  deriving DecidableEq, Repr, Inhabited

/-- Count, amount and size of the picked outputs. -/
structure Summary where
  count : Nat
  amount : Nat
  size : SizeEstimate
  deriving DecidableEq, Repr

/-- What is handed over to build a transaction from. -/
structure Submission where
  wallet : WalletId
  /-- In the order in which they were picked. -/
  outputs : List UnspentOutput
  total : Nat
  size : SizeEstimate
  deriving DecidableEq, Repr

/-- The place of a row: its group, and the row within the group. -/
abbrev Place := Nat × Nat

/-- The selection of outputs of one wallet. -/
structure Selection where
  wallet : WalletId
  /-- How sizes are estimated; known once outputs are loaded. -/
  sizing : Option Sizing := none
  groups : List Group := []
  positions : List (OutPoint × Place) := []
  /-- The picked outpoints with their stamps. -/
  stamps : List (OutPoint × Nat) := []
  nextStamp : Nat := 0
  amount : Nat := 0
  /-- The sum of the input sizes of the picked outputs. -/
  inputsSize : Nat := 0
  size : SizeEstimate := .unavailable
  tracker : Tracker := {}
  stage : Stage := .empty
  deriving DecidableEq, Repr, Inhabited

namespace Selection

/-- A step of a selection, which may fail and leaves a selection either way. -/
abbrev Step (α : Type) := ExceptT Failure (StateM Selection) α

/-! ## Rows and their places -/

/-- The row at a place. -/
def row? (s : Selection) (p : Place) : Option Row := do
  (← s.groups[p.1]?).rows[p.2]?

/-- Changes the row at a place. -/
def modifyRow (s : Selection) (p : Place) (f : Row → Row) : Selection :=
  { s with groups := s.groups.modify p.1 fun g => { g with rows := g.rows.modify p.2 f } }

/-- Enters the rows of a group into an index, later rows over earlier ones. -/
def indexRows (group : Nat) (rows : List Row) (index : List (OutPoint × Place)) :
    List (OutPoint × Place) :=
  rows.zipIdx.foldl (fun index (row, i) => Keyed.insert row.output.toOutPoint (group, i) index) index

/-- The index of all groups, later groups over earlier ones. -/
def indexGroups (groups : List Group) : List (OutPoint × Place) :=
  groups.zipIdx.foldl (fun index (group, i) => indexRows i group.rows index) []

/-- The rows of all groups. -/
def rows (s : Selection) : List Row :=
  s.groups.flatMap (·.rows)

/-! ## Loading -/

/-- Starts over with new groups. The next stamp goes on from where it was. -/
def load (s : Selection) (sizing : Sizing) (groups : List Group) : Selection :=
  { s with
    sizing := some sizing
    groups
    positions := indexGroups groups
    stamps := []
    amount := 0
    inputsSize := 0
    size := sizing.estimate 0 0
    tracker := {}
    stage := .loaded }

/-! ## Picking -/

/-- Refuses before outputs are loaded and after they were handed over. -/
def ensureEditable : Step Unit := do
  match (← get).stage with
  | .empty => throw (.invalidState .notLoaded)
  | .submitted => throw (.invalidState .alreadySubmitted)
  | .loaded | .selecting => return

/-- The place and the row of an outpoint. -/
def find (p : OutPoint) : Step (Place × Row) := do
  let s ← get
  match s.positions.lookup p with
  | none => throw (.notFound (.output p))
  | some place =>
    match s.row? place with
    | none => throw (.notFound (.output p))
    | some row => return (place, row)

/-- Estimates the size anew from the running sums. -/
def updateSize (s : Selection) : Selection :=
  match s.sizing with
  | none => s
  | some sizing => { s with size := sizing.estimate s.stamps.length s.inputsSize }

/-- Selecting while something is picked, otherwise merely loaded. -/
def updateStage (s : Selection) : Selection :=
  { s with stage := if s.stamps.isEmpty then .loaded else .selecting }

/-- Bytes that an output adds to the transaction, none if sizes are unknown. -/
def inputSize (s : Selection) (o : UnspentOutput) : Nat :=
  ((s.sizing.bind fun sizing => sizing.inputSize o)).getD 0

/-- Stamps an outpoint and adds its output to the sums. -/
def pick (s : Selection) (p : OutPoint) (o : UnspentOutput) : Selection :=
  { s with
    stamps := Keyed.insert p s.nextStamp s.stamps
    nextStamp := s.nextStamp + 1
    amount := s.amount + o.amount.toNat
    inputsSize := s.inputsSize + s.inputSize o }

/-- Forgets an outpoint and takes its output out of the sums. -/
def unpick (s : Selection) (p : OutPoint) (o : UnspentOutput) : Selection :=
  { s with
    stamps := Keyed.erase p s.stamps
    amount := s.amount - o.amount.toNat
    inputsSize := s.inputsSize - s.inputSize o }

/-- Sets the flag of an outpoint. To set it to what it is changes nothing. -/
def setSelected (p : OutPoint) (selected : Bool) : Step Unit := do
  ensureEditable
  let (place, row) ← find p
  if row.selected ≠ selected then
    modify fun s =>
      let s := s.modifyRow place fun r => { r with selected }
      let s := if selected then s.pick p row.output else s.unpick p row.output
      s.updateSize.updateStage

/-- Turns the flag of an outpoint over and answers its new value. -/
def toggle (p : OutPoint) : Step Bool := do
  ensureEditable
  let (_, row) ← find p
  setSelected p (!row.selected)
  return !row.selected

/-! ## Sorting -/

/-- Sorts every group by a click on a column. -/
def sort (s : Selection) (c : Column) : Direction × Selection :=
  let tracker := s.tracker.click c
  let groups := s.groups.map fun g => { g with rows := sortRows c tracker.direction g.rows }
  (tracker.direction, { s with tracker, groups, positions := indexGroups groups })

/-- Sorts the first group of an account. The clicks are counted together with
those of `sort`, and only this group is indexed again. -/
def sortAccount (account : UInt32) (c : Column) : Step Direction := do
  let s ← get
  match s.groups.findIdx? (·.account = account) with
  | none => throw (.notFound (.group account s.wallet))
  | some i =>
    let tracker := s.tracker.click c
    let rows := sortRows c tracker.direction (s.groups[i]?.map (·.rows) |>.getD [])
    set { s with
      tracker
      groups := s.groups.modify i fun g => { g with rows }
      positions := indexRows i rows s.positions }
    return tracker.direction

/-! ## Clearing and handing over -/

/-- Picks nothing and forgets the clicks. -/
def clear (s : Selection) : Selection :=
  let groups := s.groups.map fun g =>
    { g with rows := g.rows.map fun r => { r with selected := false } }
  let s := { s with groups, stamps := [], amount := 0, inputsSize := 0, tracker := {} }
  let s := s.updateSize
  if s.stage = .empty then s else { s with stage := .loaded }

/-- Count, amount and size of what is picked. -/
def summary (s : Selection) : Summary :=
  ⟨s.stamps.length, s.amount, s.size⟩

/-- The picked outpoints, the first pick first. -/
def picked (s : Selection) : List OutPoint :=
  (s.stamps.mergeSort fun a b => a.2 ≤ b.2).map (·.1)

/-- The output that an outpoint stands for. -/
def output? (s : Selection) (p : OutPoint) : Option UnspentOutput := do
  return (← s.row? (← s.positions.lookup p)).output

/-- The picked outputs, the first pick first. -/
def selectedOutputs (s : Selection) : List UnspentOutput :=
  s.picked.filterMap s.output?

/-- Hands the picked outputs over. -/
def submit : Step Submission := do
  ensureEditable
  let s ← get
  if s.stamps.isEmpty then throw (.invalidState .nothingSelected)
  set { s with stage := .submitted }
  return ⟨s.wallet, s.selectedOutputs, s.amount, s.size⟩

end Selection

end Purse
