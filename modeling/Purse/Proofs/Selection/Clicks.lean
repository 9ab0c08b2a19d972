import Mathlib.Data.List.DropRight
import Purse.Proofs.Selection.Sorting

/-!
# The history of a tracker

A tracker is clicked and reset, in any order and as often as one likes. What it tells is a matter
of how the history ends: with how many clicks on one column (`inARow`), and whether there is a
click behind the last reset (`sinceReset`). One more click or reset keeps the tracker in step
with the clicks behind the last reset (`follows_after`); these the counter follows in its parity
only, so that it does not matter how often it has wrapped round.

Main statement: `clicks_counted`.
-/

namespace Purse.Tracker

/-- What is done to a tracker. -/
inductive Act where
  | click (c : Column)
  | reset
  deriving DecidableEq, Repr

/-- The column that was clicked. -/
def Act.column? : Act → Option Column
  | click c => some c
  | reset => none

/-- The tracker after one click or reset. -/
def act (t : Tracker) : Act → Tracker
  | .click c => t.click c
  | .reset => fresh

/-- The tracker that has this history, the latest act last. -/
def after (history : List Act) : Tracker :=
  history.foldl act fresh

/-- With how many clicks on the column, one after the other, the history ends. -/
def inARow (c : Column) (history : List Act) : Nat :=
  (history.rtakeWhile (· = .click c)).length

/-- What was done since the last reset, or at all if there was none. -/
def sinceReset (history : List Act) : List Act :=
  history.rtakeWhile (· ≠ .reset)

/-- The columns that were clicked since the last reset, the latest first. -/
def clicksOf (history : List Act) : List Column :=
  ((sinceReset history).filterMap Act.column?).reverse

variable {t : Tracker} {history : List Act}

/-! ## One more act -/

theorem inARow_concat (c : Column) (history : List Act) (a : Act) :
    inARow c (history ++ [a]) = if a = .click c then inARow c history + 1 else 0 := by
  unfold inARow
  by_cases ha : a = .click c
  · rw [if_pos ha, List.rtakeWhile_concat_pos _ _ _ (by simpa using ha), List.length_append]
    rfl
  · rw [if_neg ha, List.rtakeWhile_concat_neg _ _ _ (by simpa using ha)]
    rfl

theorem clicksOf_click (history : List Act) (c : Column) :
    clicksOf (history ++ [.click c]) = c :: clicksOf history := by
  unfold clicksOf sinceReset
  rw [List.rtakeWhile_concat_pos _ _ _ (by simp)]
  simp [Act.column?]

theorem clicksOf_reset (history : List Act) : clicksOf (history ++ [.reset]) = [] := by
  unfold clicksOf sinceReset
  rw [List.rtakeWhile_concat_neg _ _ _ (by decide)]
  rfl

/-! ## Histories -/

/-- There are no columns only where there are no clicks. -/
theorem clicksOf_eq_nil : clicksOf history = [] ↔ ∀ c, .click c ∉ sinceReset history := by
  unfold clicksOf
  rw [List.reverse_eq_nil_iff, List.filterMap_eq_nil_iff]
  constructor
  · intro hnone c hmem
    cases hnone _ hmem
  · intro hnone a ha
    cases a with
    | click c => exact absurd ha (hnone c)
    | reset => rfl

/-- A row of clicks reaches back to the last reset at most. -/
theorem inARow_eq (c : Column) (history : List Act) :
    inARow c history = ((clicksOf history).takeWhile (· = c)).length := by
  induction history using List.reverseRecOn with
  | nil => rfl
  | append_singleton history a ih =>
    rw [inARow_concat]
    cases a with
    | reset =>
      rw [if_neg (by simp), clicksOf_reset]
      rfl
    | click b =>
      rw [clicksOf_click]
      by_cases hb : b = c
      · rw [if_pos (congrArg Act.click hb), List.takeWhile_cons_of_pos (by simpa using hb),
          List.length_cons, ih]
      · rw [if_neg (by simpa using hb), List.takeWhile_cons_of_neg (by simpa using hb)]
        rfl

/-- A click that comes next ends a row as long as the streak of the clicks that count. -/
theorem inARow_click (c : Column) (history : List Act) :
    inARow c (history ++ [.click c]) = streak (c :: clicksOf history) := by
  rw [inARow_concat, if_pos rfl, inARow_eq]
  rfl

/-- One more act is followed. -/
theorem Follows.act (h : t.Follows (clicksOf history)) (a : Act) :
    (t.act a).Follows (clicksOf (history ++ [a])) := by
  cases a with
  | click c =>
    rw [clicksOf_click]
    exact h.click c
  | reset =>
    rw [clicksOf_reset]
    exact follows_fresh

/-- A tracker is in step with its history, however long. -/
theorem follows_after (history : List Act) : (after history).Follows (clicksOf history) := by
  induction history using List.reverseRecOn with
  | nil => exact follows_fresh
  | append_singleton history a ih =>
    unfold after at ih ⊢
    rw [List.foldl_concat]
    exact ih.act a

/-- Whatever was done before, a click is answered by ascending order if and only if it is the
first, the third and so on of clicks on its column in a row, where resets and other columns
break the row; then the column is indicated with that order. Nothing is indicated if and only if
nothing was clicked since the last reset. -/
theorem clicks_counted (history : List Act) :
    (∀ c, (((after history).click c).direction = .ascending ↔
        inARow c (history ++ [.click c]) % 2 = 1) ∧
      ((after history).click c).indicator = some (c, ((after history).click c).direction)) ∧
    ((after history).indicator = none ↔ ∀ c, .click c ∉ sinceReset history) := by
  have hfollows := follows_after history
  refine ⟨fun c => ?_, ?_⟩
  · have hclick := hfollows.click c
    constructor
    · rw [hclick.direction, ← inARow_click, Direction.ofStreak]
      by_cases hodd : inARow c (history ++ [.click c]) % 2 = 1
      · simp [hodd]
      · simp [hodd]
    · unfold indicator
      rw [hclick.column]
      rfl
  · unfold indicator
    rw [Option.map_eq_none_iff, hfollows.column, List.head?_eq_none_iff, clicksOf_eq_nil]

end Purse.Tracker
