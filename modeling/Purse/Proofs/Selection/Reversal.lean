import Purse.Proofs.Selection.Stable

/-!
# Sorting the other way

A list that is sorted stably and turned round is the list turned round and sorted the other way
(`StablySorted.reverse`). So a sort in the other direction is not the sorted list turned round:
ties would be turned round too, and it is that list only if those that tie read the same from
either end (`StablySorted.reverse_iff`), as they do where nothing ties.

Of an earlier sort a later one leaves only the order of what ties in the later one. If that tied
in the earlier one as well, it is in the order that it had before both, and nothing is left of
the earlier sort (`StablySorted.absorbed`).

Main statement: `sortRows_laws`.
-/

namespace Purse

variable {α : Type} {cmp cmp' : α → α → Ordering} {l l' l'' : List α}

/-! ## Stable sorts -/

/-- Ties do not depend on the direction. -/
theorem tied_swap [Std.OrientedCmp cmp] (a : α) :
    (fun b => decide (cmp b a = .eq)) = fun b => decide (cmp a b = .eq) :=
  funext fun _ => decide_eq_decide.mpr Std.OrientedCmp.eq_comm

theorem StablySorted.reverse [Std.OrientedCmp cmp] (h : StablySorted cmp l l') :
    StablySorted (fun a b => cmp b a) l.reverse l'.reverse := by
  refine ⟨?_, List.pairwise_reverse.mpr h.sorted, fun a => ?_⟩
  · exact (List.reverse_perm l').trans (h.perm.trans (List.reverse_perm l).symm)
  · rw [tied_swap, List.filter_reverse, List.filter_reverse, h.ties]

/-- The sorted list turned round is the list sorted the other way if and only if those that tie
read the same from either end. -/
theorem StablySorted.reverse_iff [Std.OrientedCmp cmp] (h : StablySorted cmp l l') :
    StablySorted (fun a b => cmp b a) l l'.reverse ↔
      ∀ a, (l.filter (cmp a · = .eq)).reverse = l.filter (cmp a · = .eq) := by
  have hturned : ∀ a, l'.reverse.filter (cmp a · = .eq) = (l.filter (cmp a · = .eq)).reverse := by
    intro a
    rw [List.filter_reverse, h.ties]
  constructor
  · intro hother a
    have hties := hother.ties a
    rwa [tied_swap, hturned] at hties
  · intro hsame
    refine ⟨(List.reverse_perm l').trans h.perm, h.reverse.sorted, fun a => ?_⟩
    rw [tied_swap, hturned, hsame]

/-- Where no two elements tie, at most one ties with any. -/
theorem reverse_filter_of_untied [Std.TransCmp cmp] (h : l.Pairwise fun a b => cmp a b ≠ .eq)
    (a : α) : (l.filter (cmp a · = .eq)).reverse = l.filter (cmp a · = .eq) := by
  have hnone : (l.filter (cmp a · = .eq)).Pairwise fun _ _ => False := by
    refine (h.sublist List.filter_sublist).imp_of_mem fun {b b'} hb hb' hne => hne ?_
    have htie : cmp a b = .eq := of_decide_eq_true (List.mem_filter.mp hb).2
    have htie' : cmp a b' = .eq := of_decide_eq_true (List.mem_filter.mp hb').2
    exact Std.TransCmp.eq_trans (Std.OrientedCmp.eq_symm htie) htie'
  match l.filter (cmp a · = .eq), hnone with
  | [], _ | [_], _ => rfl
  | _ :: b :: _, hnone => exact ((List.pairwise_cons.mp hnone).1 b List.mem_cons_self).elim

/-- A sort leaves nothing of an earlier one in which everything ties that ties in the later
one. -/
theorem StablySorted.absorbed [Std.TransCmp cmp'] (h : StablySorted cmp l l')
    (h' : StablySorted cmp' l' l'') (hties : ∀ a b, cmp' a b = .eq → cmp a b = .eq) :
    StablySorted cmp' l l'' := by
  have hlex : compareLex cmp' cmp = cmp' := by
    funext a b
    cases hcmp : cmp' a b with
    | lt | gt => simp [compareLex, hcmp]
    | eq => simp [compareLex, hcmp, hties a b hcmp]
  exact hlex ▸ h.lex h'

/-! ## Rows -/

variable {c : Column} {d : Direction} {rows rows' : List Row}

/-- How two rows compare on a column in a direction. -/
def Column.onRows (c : Column) (d : Direction) (x y : Row) : Ordering :=
  c.directed d x.output y.output

instance (c : Column) (d : Direction) : Std.TransCmp (c.onRows d) where
  eq_swap {x y} := by
    show c.directed d x.output y.output = (c.directed d y.output x.output).swap
    exact Std.OrientedCmp.eq_swap
  isLE_trans {x y z} hxy hyz := by
    show (c.directed d x.output z.output).isLE = true
    exact Std.TransCmp.isLE_trans hxy hyz

theorem Column.onRows_reversed (c : Column) (d : Direction) :
    c.onRows d.reversed = fun x y => c.onRows d y x := by
  cases d <;> rfl

theorem Column.onRows_eq_eq {x y : Row} :
    c.onRows d x y = .eq ↔ c.compare x.output y.output = .eq := by
  cases d with
  | ascending => exact Iff.rfl
  | descending => exact Std.OrientedCmp.eq_comm

/-- Whole rows are sorted stably, with their flags. -/
theorem stablySorted_onRows (c : Column) (d : Direction) (rows : List Row) :
    StablySorted (c.onRows d) rows (sortRows c d rows) := by
  have hle : c.inOrder d = fun x y => (c.onRows d x y).isLE :=
    funext fun x => funext fun y => c.inOrder_eq_directed d x y
  unfold sortRows
  rw [hle]
  exact stablySorted_mergeSort rows

/-- There is no other way to sort rows stably. -/
theorem sortRows_eq_of_stablySorted (h : StablySorted (c.onRows d) rows rows') :
    sortRows c d rows = rows' :=
  (stablySorted_onRows c d rows).unique h

/-- Whichever the direction: rows are sorted stably; the other direction sorts the rows turned
round and turns the result round; a sort by the same column before, in either direction, makes
no difference, ties included; and where no two rows tie, the other direction turns the result
round. -/
theorem sortRows_laws (c : Column) (d : Direction) (rows : List Row) :
    StablySorted (c.onRows d) rows (sortRows c d rows) ∧
    sortRows c d.reversed rows = (sortRows c d rows.reverse).reverse ∧
    (∀ d', sortRows c d' (sortRows c d rows) = sortRows c d' rows) ∧
    (rows.Pairwise (fun x y => c.compare x.output y.output ≠ .eq) →
      sortRows c d.reversed rows = (sortRows c d rows).reverse) := by
  have hsorted := stablySorted_onRows c d rows
  refine ⟨hsorted, ?_, fun d' => ?_, fun huntied => ?_⟩
  · have hturned := (stablySorted_onRows c d rows.reverse).reverse
    rw [List.reverse_reverse, ← c.onRows_reversed] at hturned
    exact sortRows_eq_of_stablySorted hturned
  · have hagain := stablySorted_onRows c d' (sortRows c d rows)
    have hties : ∀ x y, c.onRows d' x y = .eq → c.onRows d x y = .eq := fun x y htie =>
      Column.onRows_eq_eq.mpr (Column.onRows_eq_eq.mp htie)
    exact (sortRows_eq_of_stablySorted (hsorted.absorbed hagain hties)).symm
  · have hnone : rows.Pairwise fun x y => c.onRows d x y ≠ .eq :=
      huntied.imp fun hne htie => hne (Column.onRows_eq_eq.mp htie)
    have hother := hsorted.reverse_iff.mpr (reverse_filter_of_untied hnone)
    rw [← c.onRows_reversed] at hother
    exact sortRows_eq_of_stablySorted hother

/-- Rows with these amounts. -/
def rowsWorth (amounts : List UInt64) : List Row :=
  amounts.map fun units => ⟨{ (default : UnspentOutput) with amount := ⟨units⟩ }, false⟩

/-- Three rows of three amounts, sorted upwards before. -/
theorem sortRows_laws_three :
    (rowsWorth [300, 100, 200]).Pairwise
      (fun x y => Column.amount.compare x.output y.output ≠ .eq) ∧
    sortRows .amount .descending (sortRows .amount .ascending (rowsWorth [300, 100, 200])) =
      (sortRows .amount .ascending (rowsWorth [300, 100, 200])).reverse := by
  have huntied : (rowsWorth [300, 100, 200]).Pairwise
      (fun x y => Column.amount.compare x.output y.output ≠ .eq) := by decide
  obtain ⟨-, -, habsorbed, hreversed⟩ :=
    sortRows_laws .amount .ascending (rowsWorth [300, 100, 200])
  exact ⟨huntied, (habsorbed .descending).trans (hreversed huntied)⟩

end Purse
