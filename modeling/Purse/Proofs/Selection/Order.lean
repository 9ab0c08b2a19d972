import Mathlib.Data.List.Forall2
import Purse.Proofs.Selection.Index

/-!
# What a sort does to rows

The columns order rows linearly up to ties (`Column.inOrder_trans`,
`Column.inOrder_total`). A sort therefore puts every row after those that come
before it in the column (`pairwise_sortRows`), and rows that tie in all columns stay
in their order, flags included (`filter_sortRows`). `Group.Resorted` is what this
amounts to for a group, whichever the column.
-/

namespace Purse

/-! ## Comparisons -/

instance : Std.TransOrd Amount :=
  inferInstanceAs (Std.TransCmp (compareOn Amount.units))

instance : Std.TransOrd Instant :=
  inferInstanceAs (Std.TransCmp (compareLex (compareOn Instant.seconds) (compareOn Instant.nanos)))

instance (c : Column) : Std.TransCmp c.compare := by
  cases c with
  | amount => exact inferInstanceAs (Std.TransCmp (compareOn UnspentOutput.amount))
  | address => exact inferInstanceAs (Std.TransCmp (compareOn UnspentOutput.address))
  | confirmations => exact inferInstanceAs (Std.TransCmp (compareOn UnspentOutput.confirmations))
  | received => exact inferInstanceAs (Std.TransCmp (compareOn UnspentOutput.received))

/-- The rows tie in every column. -/
def Row.Tied (x y : Row) : Prop :=
  ∀ c : Column, c.compare x.output y.output = .eq

/-- Rows with this outpoint tie. -/
def TiesAt (p : OutPoint) (rows : List Row) : Prop :=
  ∀ x ∈ rows, ∀ y ∈ rows, x.point = p → y.point = p → x.Tied y

namespace Column

variable {c : Column} {d : Direction} {x y : Row}

theorem inOrder_trans (c : Column) (d : Direction) (x y z : Row)
    (hxy : c.inOrder d x y = true) (hyz : c.inOrder d y z = true) : c.inOrder d x z = true := by
  cases d with
  | ascending => exact Std.TransCmp.isLE_trans hxy hyz
  | descending => exact Std.TransCmp.isLE_trans hyz hxy

theorem inOrder_total (c : Column) (d : Direction) (x y : Row) :
    (c.inOrder d x y || c.inOrder d y x) = true := by
  have h : ∀ a b : UnspentOutput, ((c.compare a b).isLE || (c.compare b a).isLE) = true := by
    intro a b
    have hswap : c.compare b a = (c.compare a b).swap := Std.OrientedCmp.eq_swap
    rw [hswap]
    cases c.compare a b <;> rfl
  cases d with
  | ascending => exact h _ _
  | descending => exact h _ _

theorem inOrder_of_tied (h : x.Tied y) : c.inOrder d x y = true := by
  cases d with
  | ascending =>
    show (c.compare x.output y.output).isLE = true
    rw [h c]
    rfl
  | descending =>
    show (c.compare y.output x.output).isLE = true
    rw [Std.OrientedCmp.eq_comm.mp (h c)]
    rfl

/-- Who is first in one direction and in the other ties. -/
theorem tied_of_inOrder (h : c.inOrder .ascending x y = true)
    (h' : c.inOrder .descending x y = true) : c.compare x.output y.output = .eq :=
  Std.OrientedCmp.isLE_antisymm h h'

end Column

/-! ## Sorted rows -/

/-- A merge sort leaves elements in their order that could stand in either. -/
theorem filter_mergeSort {α : Type} {le : α → α → Bool} {q : α → Bool} {l : List α}
    (trans : ∀ a b c, le a b = true → le b c = true → le a c = true)
    (total : ∀ a b, (le a b || le b a) = true)
    (h : ∀ a ∈ l, ∀ b ∈ l, q a = true → q b = true → le a b = true) :
    (l.mergeSort le).filter q = l.filter q := by
  have hperm : (l.mergeSort le).Perm l := List.mergeSort_perm _ _
  have hle : (l.filter q).Pairwise fun a b => le a b = true := by
    refine List.pairwise_iff_forall_sublist.mpr fun {a b} hab => ?_
    have hmem : ∀ c ∈ [a, b], c ∈ l ∧ q c = true := fun c hc =>
      List.mem_filter.mp (hab.subset hc)
    obtain ⟨ha, hqa⟩ := hmem a (by simp)
    obtain ⟨hb, hqb⟩ := hmem b (by simp)
    exact h a ha b hb hqa hqb
  have hsub : (l.filter q).Sublist (l.mergeSort le) :=
    List.sublist_mergeSort trans total hle List.filter_sublist
  -- what is left of the sorted list has as many elements, so it has no others
  have hsub' := hsub.filter q
  rw [List.filter_filter] at hsub'
  simp only [Bool.and_self] at hsub'
  exact (hsub'.eq_of_length (hperm.filter _).length_eq.symm).symm

section SortRows

variable {c : Column} {d : Direction} {rows : List Row} {p : OutPoint}

theorem pairwise_sortRows (c : Column) (d : Direction) (rows : List Row) :
    (sortRows c d rows).Pairwise fun x y => c.inOrder d x y = true :=
  List.pairwise_mergeSort (Column.inOrder_trans c d) (Column.inOrder_total c d) rows

/-- Rows with one outpoint that tie in all columns are left in their order. -/
theorem filter_sortRows (h : TiesAt p rows) :
    (sortRows c d rows).filter (·.point = p) = rows.filter (·.point = p) := by
  refine filter_mergeSort (Column.inOrder_trans c d) (Column.inOrder_total c d) ?_
  intro x hx y hy hxp hyp
  exact Column.inOrder_of_tied (h x hx y hy (of_decide_eq_true hxp) (of_decide_eq_true hyp))

end SortRows

/-! ## Groups -/

/-- The group is the other one with its rows sorted, perhaps. -/
structure Group.Resorted (g g' : Group) : Prop where
  account : g'.account = g.account
  perm : g'.rows.Perm g.rows
  ties : ∀ p, TiesAt p g.rows → g'.rows.filter (·.point = p) = g.rows.filter (·.point = p)

theorem Group.Resorted.refl (g : Group) : g.Resorted g :=
  ⟨rfl, .refl _, fun _ _ => rfl⟩

theorem Group.resorted_sorted (c : Column) (d : Direction) (g : Group) : g.Resorted (g.sorted c d) :=
  ⟨rfl, g.sorted_rows_perm c d, fun _ h => filter_sortRows h⟩

/-- An outpoint that nothing in the rows has is not filtered out of them. -/
theorem filter_point_eq_nil {rows : List Row} {p : OutPoint} :
    rows.filter (·.point = p) = [] ↔ ∀ x ∈ rows, x.point ≠ p := by
  simp only [List.filter_eq_nil_iff, decide_eq_true_eq, ne_eq]

/-- Of the rows with an outpoint those in the last group that has any are left in their
order, if they tie there. Only what comes before them may be moved. -/
theorem filter_resorted {groups groups' : List Group} {p : OutPoint}
    (h : List.Forall₂ Group.Resorted groups groups')
    (hties : ∀ pre g post, groups = pre ++ g :: post →
      (∀ k ∈ post, ∀ x ∈ k.rows, x.point ≠ p) → TiesAt p g.rows) :
    ∃ moved moved' kept, (groups.flatMap (·.rows)).filter (·.point = p) = moved ++ kept ∧
      (groups'.flatMap (·.rows)).filter (·.point = p) = moved' ++ kept ∧
      moved'.Perm moved ∧ (kept = [] → moved = []) := by
  induction h with
  | nil => exact ⟨[], [], [], rfl, rfl, .refl _, fun _ => rfl⟩
  | @cons g g' groups groups' hg _ ih =>
    obtain ⟨moved, moved', kept, hrows, hrows', hperm, hnil⟩ :=
      ih fun pre k post hgs => hties (g :: pre) k post (by rw [hgs]; rfl)
    rw [List.flatMap_cons, List.flatMap_cons, List.filter_append, List.filter_append, hrows, hrows']
    by_cases hkept : kept = []
    · -- no later group has the outpoint, so here it ties
      obtain rfl := hnil hkept
      obtain rfl := hperm.eq_nil
      subst hkept
      have hfree : ∀ k ∈ groups, ∀ x ∈ k.rows, x.point ≠ p := fun k hk x hx =>
        filter_point_eq_nil.mp hrows x (List.mem_flatMap.mpr ⟨k, hk, hx⟩)
      refine ⟨[], [], g.rows.filter (·.point = p), by simp, ?_, .refl _, fun _ => rfl⟩
      rw [hg.ties p (hties [] g groups rfl hfree)]
      simp
    · refine ⟨g.rows.filter (·.point = p) ++ moved, g'.rows.filter (·.point = p) ++ moved', kept,
        ?_, ?_, (hg.perm.filter _).append hperm, fun h => absurd h hkept⟩
      · rw [List.append_assoc]
      · rw [List.append_assoc]

end Purse
