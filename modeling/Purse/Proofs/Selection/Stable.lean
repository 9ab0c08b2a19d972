import Purse.Proofs.Selection.Order

/-!
# Stable sorts one after the other

`StablySorted` says what it is for a list to be another one sorted stably: the same
elements, in the order of the comparison, and those that tie in the order in which they
were. There is only one such list (`StablySorted.unique`), and a merge sort finds it
(`stablySorted_mergeSort`).

A list that is sorted stably by one comparison and then by another is sorted by the second
first and by the first where that ties (`StablySorted.lex`). Sorts by columns, one after the
other, are therefore one sort by the columns in turn, the latest first (`byKeys`).
-/

namespace Purse

variable {α : Type} {cmp cmp' : α → α → Ordering} {l l' l'' : List α}

/-- The second list is the first one sorted stably. -/
structure StablySorted (cmp : α → α → Ordering) (l l' : List α) : Prop where
  perm : l'.Perm l
  sorted : l'.Pairwise fun a b => (cmp a b).isLE
  ties : ∀ a, l'.filter (cmp a · = .eq) = l.filter (cmp a · = .eq)

/-- Where everything ties nothing is moved. -/
theorem stablySorted_tied (l : List α) : StablySorted (fun _ _ => .eq) l l :=
  ⟨.refl l, List.pairwise_of_forall fun _ _ => rfl, fun _ => rfl⟩

theorem stablySorted_mergeSort [Std.TransCmp cmp] (l : List α) :
    StablySorted cmp l (l.mergeSort fun a b => (cmp a b).isLE) := by
  have htrans : ∀ a b c, (cmp a b).isLE = true → (cmp b c).isLE = true → (cmp a c).isLE = true :=
    fun _ _ _ => Std.TransCmp.isLE_trans
  have htotal : ∀ a b, ((cmp a b).isLE || (cmp b a).isLE) = true := by
    intro a b
    have hswap : cmp b a = (cmp a b).swap := Std.OrientedCmp.eq_swap
    rw [hswap]
    cases cmp a b <;> rfl
  refine ⟨List.mergeSort_perm _ _, List.pairwise_mergeSort htrans htotal l, fun a => ?_⟩
  refine filter_mergeSort htrans htotal fun x _ y _ hx hy => ?_
  have hx : cmp a x = .eq := of_decide_eq_true hx
  have hy : cmp a y = .eq := of_decide_eq_true hy
  -- what ties with the same ties
  rw [← Std.TransCmp.congr_left hx, hy]
  rfl

/-- Of two elements that tie the first is the first one in the other list as well. -/
theorem StablySorted.pair [Std.TransCmp cmp] (h : StablySorted cmp l l') {a b : α}
    (hab : [a, b].Sublist l') (htie : cmp a b = .eq) : [a, b].Sublist l := by
  have hself : cmp a a = .eq := Std.ReflCmp.compare_self
  have htied := hab.filter (cmp a · = .eq)
  rw [h.ties, List.filter_cons_of_pos (by simpa using hself),
    List.filter_cons_of_pos (by simpa using htie), List.filter_nil] at htied
  exact htied.trans List.filter_sublist

/-- Sorted by one comparison and then by another: the first one decides where the second
one ties. -/
theorem StablySorted.lex [Std.TransCmp cmp'] (h : StablySorted cmp l l')
    (h' : StablySorted cmp' l' l'') : StablySorted (compareLex cmp' cmp) l l'' := by
  refine ⟨h'.perm.trans h.perm, ?_, fun a => ?_⟩
  · refine List.pairwise_iff_forall_sublist.mpr fun {a b} hab => ?_
    have hle := List.pairwise_iff_forall_sublist.mp h'.sorted hab
    refine Ordering.isLE_then_iff_and.mpr ⟨hle, ?_⟩
    cases hcmp : cmp' a b with
    | lt => exact Or.inl rfl
    | eq => exact Or.inr (List.pairwise_iff_forall_sublist.mp h.sorted (h'.pair hab hcmp))
    | gt =>
      rw [hcmp] at hle
      cases hle
  · -- to tie in both is to tie in one among those that tie in the other
    have hboth : ∀ m : List α, m.filter (compareLex cmp' cmp a · = .eq) =
        (m.filter (cmp' a · = .eq)).filter (cmp a · = .eq) := by
      intro m
      rw [List.filter_filter]
      refine List.filter_congr fun b _ => ?_
      rw [← Bool.decide_and]
      exact decide_eq_decide.mpr (compareLex_eq_eq.trans and_comm)
    rw [hboth, hboth, h'.ties, List.filter_comm, h.ties, List.filter_comm]

/-- There is one way only to sort a list stably. -/
theorem StablySorted.unique [Std.TransCmp cmp] (h : StablySorted cmp l l')
    (h' : StablySorted cmp l l'') : l' = l'' := by
  have hperm : l'.Perm l'' := h.perm.trans h'.perm.symm
  have hties : ∀ a, l'.filter (cmp a · = .eq) = l''.filter (cmp a · = .eq) := fun a =>
    (h.ties a).trans (h'.ties a).symm
  have hsorted := h.sorted
  have hsorted' := h'.sorted
  clear h h'
  induction l' generalizing l'' with
  | nil => exact hperm.symm.eq_nil.symm
  | cons a t ih =>
    cases l'' with
    | nil => exact absurd hperm.symm.nil_eq (List.cons_ne_nil a t).symm
    | cons b u =>
      rw [List.pairwise_cons] at hsorted hsorted'
      -- both heads come first, so they tie, and among those that tie there is no choice
      have hhead : a = b := by
        rcases List.mem_cons.mp (hperm.mem_iff.mp List.mem_cons_self) with heq | ha
        · exact heq
        · rcases List.mem_cons.mp (hperm.mem_iff.mpr List.mem_cons_self) with heq | hb
          · exact heq.symm
          · have htie : cmp a b = .eq :=
              Std.OrientedCmp.isLE_antisymm (hsorted.1 b hb) (hsorted'.1 a ha)
            have hself : cmp a a = .eq := Std.ReflCmp.compare_self
            have hfirst := hties a
            rw [List.filter_cons_of_pos (by simpa using hself),
              List.filter_cons_of_pos (by simpa using htie)] at hfirst
            exact (List.cons.inj hfirst).1
      subst hhead
      refine congrArg (a :: ·) (ih hperm.cons_inv (fun x => ?_) hsorted.2 hsorted'.2)
      have hx := hties x
      by_cases htie : cmp x a = .eq
      · rw [List.filter_cons_of_pos (by simpa using htie),
          List.filter_cons_of_pos (by simpa using htie)] at hx
        exact (List.cons.inj hx).2
      · rwa [List.filter_cons_of_neg (by simpa using htie),
          List.filter_cons_of_neg (by simpa using htie)] at hx

/-! ## Sorts by columns -/

/-- How two outputs compare on a column in a direction. -/
def Column.directed (c : Column) : Direction → UnspentOutput → UnspentOutput → Ordering
  | .ascending, a, b => c.compare a b
  | .descending, a, b => c.compare b a

/-- How two outputs compare on several columns, where each decides what those before it
leave open. -/
def byKeys : List (Column × Direction) → UnspentOutput → UnspentOutput → Ordering
  | [] => fun _ _ => .eq
  | (c, d) :: keys => compareLex (c.directed d) (byKeys keys)

instance (c : Column) (d : Direction) : Std.TransCmp (c.directed d) := by
  cases d with
  | ascending => exact inferInstanceAs (Std.TransCmp c.compare)
  | descending => exact inferInstanceAs (Std.TransCmp fun a b => c.compare b a)

instance (keys : List (Column × Direction)) : Std.TransCmp (byKeys keys) := by
  induction keys with
  | nil => exact { eq_swap := rfl, isLE_trans := fun _ _ => rfl }
  | cons k keys ih => exact inferInstanceAs (Std.TransCmp (compareLex (k.1.directed k.2) (byKeys keys)))

theorem Column.inOrder_eq_directed (c : Column) (d : Direction) (x y : Row) :
    c.inOrder d x y = (c.directed d x.output y.output).isLE := by
  cases d <;> rfl

/-- The outputs of sorted rows are the outputs sorted. -/
theorem stablySorted_sortRows (c : Column) (d : Direction) (rows : List Row) :
    StablySorted (c.directed d) (rows.map (·.output)) ((sortRows c d rows).map (·.output)) := by
  have hmap : (sortRows c d rows).map (·.output) =
      (rows.map (·.output)).mergeSort fun a b => (c.directed d a b).isLE :=
    List.map_mergeSort fun x _ y _ => c.inOrder_eq_directed d x y
  rw [hmap]
  exact stablySorted_mergeSort _

/-- One more sort is one more key, before all others. -/
theorem StablySorted.sortRows {keys : List (Column × Direction)} {outputs : List UnspentOutput}
    {rows : List Row} (h : StablySorted (byKeys keys) outputs (rows.map (·.output))) (c : Column)
    (d : Direction) :
    StablySorted (byKeys ((c, d) :: keys)) outputs ((sortRows c d rows).map (·.output)) :=
  h.lex (stablySorted_sortRows c d rows)

end Purse
