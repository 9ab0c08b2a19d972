import Mathlib.Algebra.GroupWithZero.Nat
import Purse.Proofs.Selection.Index

/-!
# The running totals

The amount and the input sizes of a selection are never summed up; they are carried
along, one row at a time. `Balanced` says that they are nevertheless the sums over
all flagged rows. A pick adds exactly the row whose flag is raised, a row that is
taken back has been counted (`le_weight`), a sort only moves rows (`rows_sort_perm`),
and so every change keeps the balance (`Change.balanced`), however often an outpoint
is listed.

Main statement: `Runs.totals_exact_and_indexed`, for every run of a new selection.
-/

namespace Purse.Selection

variable {ε : Type} [Engine ε] {s s' : Selection} {p : OutPoint} {place : Place} {r : Row}

/-- The rows with a raised flag. -/
def flagged (s : Selection) : List Row :=
  s.rows.filter (·.selected)

/-- The sum of `f` over the outputs of rows with a raised flag. -/
def weight (f : UnspentOutput → Nat) (rows : List Row) : Nat :=
  ((rows.filter (·.selected)).map fun r => f r.output).sum

section Weight

variable (f : UnspentOutput → Nat)

theorem weight_append (l l' : List Row) : weight f (l ++ l') = weight f l + weight f l' := by
  unfold weight
  rw [List.filter_append, List.map_append, List.sum_append_nat]

theorem weight_cons (r : Row) (l : List Row) :
    weight f (r :: l) = (if r.selected then f r.output else 0) + weight f l := by
  unfold weight
  cases h : r.selected with
  | true => rw [List.filter_cons_of_pos h, List.map_cons, List.sum_cons, if_pos rfl]
  | false => rw [List.filter_cons_of_neg (by rw [h]; decide), if_neg (by decide), Nat.zero_add]

/-- The order of rows does not matter. -/
theorem weight_perm {l l' : List Row} (h : l.Perm l') : weight f l = weight f l' :=
  ((h.filter _).map _).sum_nat

theorem weight_unpicked {l : List Row} (h : ∀ r ∈ l, r.selected = false) : weight f l = 0 := by
  unfold weight
  rw [List.filter_eq_nil_iff.mpr (fun r hr => by rw [h r hr]; decide)]
  rfl

/-- A flagged row weighs no more than all of them. -/
theorem le_weight {l : List Row} (h : r ∈ l) (hr : r.selected = true) : f r.output ≤ weight f l := by
  obtain ⟨pre, post, rfl⟩ := List.append_of_mem h
  rw [weight_append, weight_cons, if_pos hr]
  omega

/-- To turn a flag over adds the row or takes it away. -/
theorem weight_modifyRow (h : s.row? place = some r) :
    weight f (s.modifyRow place fun r' => { r' with selected := !r.selected }).rows =
      if r.selected then weight f s.rows - f r.output else weight f s.rows + f r.output := by
  -- both lists of rows are the same but for the one row in its place
  obtain ⟨pre, g, post, above, below, h⟩ := exists_stands h
  rw [(h.modifyRow _).rows, h.rows]
  simp only [weight_append, weight_cons]
  cases r.selected with
  | true =>
    simp only [Bool.not_true, Bool.false_eq_true, if_false, if_true]
    omega
  | false =>
    simp only [Bool.not_false, Bool.false_eq_true, if_false, if_true]
    omega

end Weight

/-! ## Rows under changes -/

/-- A sort moves rows within their groups. -/
theorem rows_sort_perm (s : Selection) (c : Column) : (s.sort c).2.rows.Perm s.rows := by
  show ((s.groups.map (Group.sorted c (s.tracker.click c).direction)).flatMap (·.rows)).Perm
    (s.groups.flatMap (·.rows))
  induction s.groups with
  | nil => exact .refl _
  | cons g groups ih =>
    rw [List.map_cons, List.flatMap_cons, List.flatMap_cons]
    exact (Group.sorted_rows_perm c _ g).append ih

theorem rows_sortGroup_perm {pre post : List Group} {g : Group} (hg : s.groups = pre ++ g :: post)
    (c : Column) : (s.sortGroup c pre g post).rows.Perm s.rows := by
  show ((pre ++ g.sorted c (s.tracker.click c).direction :: post).flatMap (·.rows)).Perm
    (s.groups.flatMap (·.rows))
  rw [hg, List.flatMap_append, List.flatMap_append, List.flatMap_cons, List.flatMap_cons]
  exact ((Group.sorted_rows_perm c _ g).append_right _).append_left _

theorem rows_clear (s : Selection) :
    s.clear.rows = s.rows.map fun r => { r with selected := false } := by
  rw [clear_eq]
  show (s.groups.map _).flatMap (fun g : Group => g.rows) = (s.groups.flatMap (·.rows)).map _
  rw [List.flatMap_map, List.map_flatMap]

theorem selected_clear (s : Selection) : ∀ r ∈ s.clear.rows, r.selected = false := by
  intro r hr
  rw [rows_clear] at hr
  obtain ⟨r', -, rfl⟩ := List.mem_map.mp hr
  rfl

/-- What has just been loaded is not picked. -/
theorem selected_load {sizing : Sizing} {groups : List Group} (hg : ∀ g ∈ groups, g.Unpicked) :
    ∀ r ∈ (s.load sizing groups).rows, r.selected = false := by
  intro r hr
  obtain ⟨g, hgs, hr⟩ := List.mem_flatMap.mp hr
  exact hg g hgs r hr

/-! ## The balance -/

/-- The running totals are the sums over the flagged rows. -/
structure Balanced (s : Selection) : Prop where
  amount : s.amount = weight (·.amount.toNat) s.rows
  inputsSize : s.inputsSize = weight s.inputSize s.rows

/-- Where nothing is flagged the totals have to be zero. -/
theorem balanced_of_unpicked (h : ∀ r ∈ s.rows, r.selected = false) (ha : s.amount = 0)
    (hi : s.inputsSize = 0) : s.Balanced :=
  ⟨ha.trans (weight_unpicked _ h).symm, hi.trans (weight_unpicked _ h).symm⟩

theorem Balanced.perm (hb : s.Balanced) (h : s'.rows.Perm s.rows) (ha : s'.amount = s.amount)
    (hi : s'.inputsSize = s.inputsSize) (hs : s'.sizing = s.sizing) : s'.Balanced := by
  have hsize : s'.inputSize = s.inputSize := by
    funext o
    unfold inputSize
    rw [hs]
  refine ⟨?_, ?_⟩
  · rw [ha, hb.amount, weight_perm _ h]
  · rw [hi, hsize, hb.inputsSize, weight_perm _ h]

/-- A flag that is turned over changes the totals by its own row. -/
theorem Balanced.mark (hb : s.Balanced) (hr : s.row? place = some r) :
    (s.mark p (!r.selected) place r).Balanced := by
  have hsize : (s.mark p (!r.selected) place r).inputSize = s.inputSize := by
    rw [mark_eq]; rfl
  refine ⟨?_, ?_⟩
  · rw [rows_mark, weight_modifyRow _ hr, mark_eq]
    dsimp only
    rw [hb.amount]
    cases r.selected <;> rfl
  · rw [rows_mark, hsize, weight_modifyRow _ hr, mark_eq]
    dsimp only
    rw [hb.inputsSize]
    cases r.selected <;> rfl

/-- Every change keeps the balance. -/
theorem Change.balanced {e : Event} (h : Change s e s') (hb : s.Balanced) : s'.Balanced := by
  cases h with
  | failed => exact hb
  | load hg => exact balanced_of_unpicked (selected_load hg) rfl rfl
  | keep => exact hb
  | set hs hf => exact hb.mark (found_eq_some hf).2
  | toggle hs hf => exact hb.mark (found_eq_some hf).2
  | sort => exact hb.perm (rows_sort_perm s _) rfl rfl rfl
  | sortAccount hg => exact hb.perm (rows_sortGroup_perm hg _) rfl rfl rfl
  | clear => exact balanced_of_unpicked (selected_clear s) (by rw [clear_eq]) (by rw [clear_eq])
  | submit => exact hb.perm (.refl _) rfl rfl rfl

theorem balanced_new (w : WalletId) : ({ wallet := w } : Selection).Balanced :=
  ⟨rfl, rfl⟩

theorem Runs.balanced {s₀ : Selection} {es : List Event} (h : Runs ε s₀ es s)
    (hb : s₀.Balanced) : s.Balanced :=
  h.keeps (P := fun _ s => s.Balanced) hb fun _ _ _ _ hc hb => hc.balanced hb

theorem Runs.indexed {s₀ : Selection} {es : List Event} (h : Runs ε s₀ es s)
    (hi : s₀.Indexed) : s.Indexed :=
  h.keeps (P := fun _ s => s.Indexed) hi fun _ _ _ _ hc hi => hc.indexed hi

/-- Whatever has happened to a selection, its amount and its input sizes are the sums
over the flagged rows, each of which can still be taken back; every loaded outpoint
is in the index, and every entry of the index is the place of a row with that
outpoint. -/
theorem Runs.totals_exact_and_indexed {w : WalletId} {es : List Event}
    (h : Runs ε { wallet := w } es s) :
    s.amount = (s.flagged.map fun r => r.output.amount.toNat).sum ∧
    s.inputsSize = (s.flagged.map fun r => s.inputSize r.output).sum ∧
    (∀ p place r, s.found p = some (place, r) → r.selected = true →
      r.output.amount.toNat ≤ s.amount ∧ s.inputSize r.output ≤ s.inputsSize) ∧
    (∀ r ∈ s.rows, ∃ place, s.positions.lookup r.point = some place) ∧
    ∀ p place, s.positions.lookup p = some place → ∃ r, s.row? place = some r ∧ r.point = p := by
  have hb := h.balanced (balanced_new w)
  have hi := h.indexed (indexed_new w)
  refine ⟨hb.amount, hb.inputsSize, fun p place r hf hr => ?_, hi.complete, fun p place hp => ?_⟩
  · have hmem : r ∈ s.rows := mem_rows_iff.mpr ⟨place, (found_eq_some hf).2⟩
    rw [hb.amount, hb.inputsSize]
    exact ⟨le_weight (·.amount.toNat) hmem hr, le_weight s.inputSize hmem hr⟩
  · obtain ⟨r, hr, hpoint⟩ := Option.map_eq_some_iff.mp (hi.sound hp)
    exact ⟨r, hr, hpoint⟩

/-- A pick of an output that is listed under two accounts. -/
theorem Runs.totals_exact_and_indexed_sample :
    let s := ((toggle Sample.point).run (Sample.loaded "a")).2
    s.rows.length = 2 ∧ s.amount = 500 ∧
      s.amount = (s.flagged.map fun r => r.output.amount.toNat).sum ∧
      ∀ r ∈ s.rows, ∃ place, s.positions.lookup r.point = some place := by
  have h := Runs.totals_exact_and_indexed
    (.step (Sample.runs_loaded "a" rfl) (.toggle _ Sample.point))
  exact ⟨by rfl, by rfl, h.1, h.2.2.2.1⟩

end Purse.Selection
