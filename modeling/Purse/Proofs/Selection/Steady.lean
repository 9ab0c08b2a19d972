import Mathlib.Data.List.Nodup
import Mathlib.Data.Multiset.Defs
import Purse.Proofs.Selection.Order
import Purse.Proofs.Selection.Totals

/-!
# Flags and stamps in step

A pick raises the flag of the row that the index points at and stamps its outpoint.
Flags and stamps stay in step as long as the index keeps pointing at that row, and
this depends on the listing. `Steady` says of a listing that no sort makes the index
point at another row: what an account that can be sorted by itself lists is listed by
no later group, and where a group lists an outpoint twice its rows tie in every
column. Distinct outpoints are a special case (`steady_of_distinct`).

`Faithful` is what steady listings ensure: the index points at the last row with each
outpoint, and this row is flagged if and only if the outpoint is stamped. All changes
but a fetch keep it (`Change.faithful`), a fetch brings it about anew.
-/

namespace Purse

/-- What a group lists, in whatever order and with whatever flags. -/
def Group.contents (g : Group) : UInt32 × Multiset UnspentOutput :=
  (g.account, (g.rows.map (·.output) : List UnspentOutput))

namespace Selection

variable {s s' : Selection} {p : OutPoint} {place : Place} {r : Row}

/-! ## Contents -/

section Contents

variable {g g' : Group} {groups groups' : List Group}

theorem mem_of_contents (h : g'.contents = g.contents) {x : Row} (hx : x ∈ g'.rows) :
    ∃ y ∈ g.rows, y.output = x.output := by
  have hperm : (g'.rows.map (·.output)).Perm (g.rows.map (·.output)) :=
    Multiset.coe_eq_coe.mp (congrArg Prod.snd h)
  exact List.mem_map.mp (hperm.mem_iff.mp (List.mem_map_of_mem hx))

theorem mem_groups_of_contents (h : groups'.map Group.contents = groups.map Group.contents)
    {k' : Group} (hk : k' ∈ groups') : ∃ k ∈ groups, k.contents = k'.contents :=
  List.mem_map.mp (h ▸ List.mem_map_of_mem hk)

/-- An outpoint is listed either by both or by none. -/
theorem free_of_contents (h : groups'.map Group.contents = groups.map Group.contents)
    (hfree : ∀ k ∈ groups, ∀ x ∈ k.rows, x.point ≠ p) : ∀ k ∈ groups', ∀ x ∈ k.rows, x.point ≠ p := by
  intro k' hk' x' hx' hp
  obtain ⟨k, hk, hc⟩ := mem_groups_of_contents h hk'
  obtain ⟨x, hx, ho⟩ := mem_of_contents hc.symm hx'
  have hpoint : x.point = x'.point := congrArg (·.toOutPoint) ho
  exact hfree k hk x hx (hpoint.trans hp)

theorem split_of_contents (h : groups'.map Group.contents = groups.map Group.contents)
    {pre' post' : List Group} (hg : groups' = pre' ++ g' :: post') :
    ∃ pre g post, groups = pre ++ g :: post ∧ g'.contents = g.contents ∧
      pre'.map Group.contents = pre.map Group.contents ∧
      post'.map Group.contents = post.map Group.contents := by
  rw [hg, List.map_append, List.map_cons] at h
  obtain ⟨pre, rest, hgroups, hpre, hrest⟩ := List.map_eq_append_iff.mp h.symm
  obtain ⟨g, post, rfl, hc, hpost⟩ := List.map_eq_cons_iff.mp hrest
  exact ⟨pre, g, post, hgroups, hc.symm, hpre.symm, hpost.symm⟩

theorem contents_of_perm (ha : g'.account = g.account)
    (h : (g'.rows.map (·.output)).Perm (g.rows.map (·.output))) : g'.contents = g.contents :=
  Prod.ext ha (Multiset.coe_eq_coe.mpr h)

theorem contents_resorted (h : List.Forall₂ Group.Resorted groups groups') :
    groups'.map Group.contents = groups.map Group.contents := by
  induction h with
  | nil => rfl
  | cons hg _ ih =>
    rw [List.map_cons, List.map_cons, ih, contents_of_perm hg.account (hg.perm.map _)]

end Contents

/-! ## Steady listings -/

/-- No sort makes the index point at another row. -/
structure Steady (groups : List Group) : Prop where
  /-- What the first group of an account lists is not listed by a later group. -/
  apart : ∀ pre g post, groups = pre ++ g :: post → (∀ k ∈ pre, k.account ≠ g.account) →
    ∀ x ∈ g.rows, ∀ k ∈ post, ∀ y ∈ k.rows, y.point ≠ x.point
  /-- Rows with an outpoint in the last group that lists it tie. -/
  ties : ∀ pre g post, groups = pre ++ g :: post → ∀ p,
    (∀ k ∈ post, ∀ x ∈ k.rows, x.point ≠ p) → TiesAt p g.rows

/-- Neither the order of the rows nor their flags matter. -/
theorem Steady.of_contents {groups groups' : List Group} (hs : Steady groups)
    (h : groups'.map Group.contents = groups.map Group.contents) : Steady groups' := by
  constructor
  · intro pre' g' post' hg' hfirst x' hx'
    obtain ⟨pre, g, post, hg, hc, hpre, hpost⟩ := split_of_contents h hg'
    obtain ⟨x, hx, ho⟩ := mem_of_contents hc hx'
    have haccount : g'.account = g.account := congrArg Prod.fst hc
    have hpoint : x.point = x'.point := congrArg (·.toOutPoint) ho
    rw [← hpoint]
    refine free_of_contents hpost (hs.apart pre g post hg ?_ x hx)
    intro k hk heq
    obtain ⟨k', hk', hkc⟩ := mem_groups_of_contents hpre.symm hk
    have hkaccount : k'.account = k.account := congrArg Prod.fst hkc
    exact hfirst k' hk' (hkaccount.trans (heq.trans haccount.symm))
  · intro pre' g' post' hg' p hfree x' hx' y' hy' hxp hyp
    obtain ⟨pre, g, post, hg, hc, -, hpost⟩ := split_of_contents h hg'
    obtain ⟨x, hx, hxo⟩ := mem_of_contents hc hx'
    obtain ⟨y, hy, hyo⟩ := mem_of_contents hc hy'
    have hxpoint : x.point = x'.point := congrArg (·.toOutPoint) hxo
    have hypoint : y.point = y'.point := congrArg (·.toOutPoint) hyo
    intro c
    rw [← hxo, ← hyo]
    exact hs.ties pre g post hg p (free_of_contents hpost.symm hfree) x hx y hy
      (hxpoint.trans hxp) (hypoint.trans hyp) c

/-- No outpoint is listed twice. -/
def Distinct (groups : List Group) : Prop :=
  ((groups.flatMap (·.rows)).map (·.point)).Nodup

theorem points_perm_of_contents {groups groups' : List Group}
    (h : groups'.map Group.contents = groups.map Group.contents) :
    ((groups'.flatMap (·.rows)).map (·.point)).Perm ((groups.flatMap (·.rows)).map (·.point)) := by
  induction groups' generalizing groups with
  | nil =>
    obtain rfl := List.map_eq_nil_iff.mp h.symm
    exact .refl _
  | cons g' groups' ih =>
    obtain ⟨g, groups, rfl, hc, hrest⟩ := List.map_eq_cons_iff.mp h.symm
    have hperm : (g'.rows.map (·.output)).Perm (g.rows.map (·.output)) :=
      Multiset.coe_eq_coe.mp (congrArg Prod.snd hc.symm)
    have hpoints := hperm.map (·.toOutPoint)
    rw [List.map_map, List.map_map] at hpoints
    rw [List.flatMap_cons, List.flatMap_cons, List.map_append, List.map_append]
    exact hpoints.append (ih hrest.symm)

theorem Distinct.of_contents {groups groups' : List Group} (hd : Distinct groups)
    (h : groups'.map Group.contents = groups.map Group.contents) : Distinct groups' :=
  (points_perm_of_contents h).nodup_iff.mpr hd

theorem steady_of_distinct {groups : List Group} (h : Distinct groups) : Steady groups := by
  constructor
  · rintro pre g post rfl - x hx k hk y hy hp
    unfold Distinct at h
    rw [List.flatMap_append, List.flatMap_cons, List.map_append, List.map_append] at h
    -- what the group lists and what later ones list has nothing in common
    have hdisjoint := (List.nodup_append.mp (List.nodup_append.mp h).2.1).2.2
    exact hdisjoint _ (List.mem_map_of_mem hx) _
      (List.mem_map_of_mem (List.mem_flatMap.mpr ⟨k, hk, hy⟩)) hp.symm
  · rintro pre g post rfl p - x hx y hy hxp hyp c
    have hmem : ∀ z ∈ g.rows, z ∈ (pre ++ g :: post).flatMap (·.rows) := fun z hz =>
      List.mem_flatMap.mpr ⟨g, by simp, hz⟩
    obtain rfl : x = y :=
      List.inj_on_of_nodup_map h (hmem x hx) (hmem y hy) (hxp.trans hyp.symm)
    exact Std.ReflCmp.compare_self

/-! ## The invariant -/

/-- The outpoint is stamped. -/
def Stamped (s : Selection) (p : OutPoint) : Prop :=
  p ∈ s.stamps.map (·.1)

/-- The index points at the last row with each outpoint; it is the only one that can be
flagged, and it is if and only if the outpoint is stamped. -/
structure Faithful (s : Selection) : Prop where
  steady : Steady s.groups
  indexed : s.Indexed
  latest : s.Latest
  loaded : ∀ p, s.Stamped p → ∃ x ∈ s.rows, x.point = p
  flags : ∀ p init x, s.rows.filter (·.point = p) = init ++ [x] →
    (∀ y ∈ init, y.selected = false) ∧ (x.selected = true ↔ s.Stamped p)

theorem mem_keys_insert {k q : OutPoint} {n : Nat} {m : List (OutPoint × Nat)} :
    q ∈ (Keyed.insert k n m).map (·.1) ↔ q = k ∨ q ∈ m.map (·.1) := by
  unfold Keyed.insert Keyed.erase
  by_cases hq : q = k <;> simp [hq]

theorem mem_keys_erase {k q : OutPoint} {m : List (OutPoint × Nat)} :
    q ∈ (Keyed.erase k m).map (·.1) ↔ q ≠ k ∧ q ∈ m.map (·.1) := by
  unfold Keyed.erase
  by_cases hq : q = k <;> simp [hq]

/-- A flag that goes up is stamped, one that goes down is not. -/
theorem stamped_mark {selected : Bool} {q : OutPoint} :
    (s.mark p selected place r).Stamped q ↔ if q = p then selected = true else s.Stamped q := by
  unfold Stamped
  rw [mark_eq]
  dsimp only
  cases selected with
  | true =>
    rw [if_pos rfl, mem_keys_insert]
    by_cases hq : q = p <;> simp [hq]
  | false =>
    rw [if_neg (by decide), mem_keys_erase]
    by_cases hq : q = p <;> simp [hq]

theorem map_modify_of {α β : Type} {f : α → β} {h : α → α} (hf : ∀ a, f (h a) = f a) (l : List α)
    (i : Nat) : (l.modify i h).map f = l.map f := by
  refine List.ext_getElem? fun j => ?_
  rw [List.getElem?_map, List.getElem?_map, List.getElem?_modify]
  by_cases hi : i = j <;> cases l[j]? <;> simp [hi, hf]

section Flags

variable {β : Type} {f : Group → β}
  (hf : ∀ g rows, rows.map (·.output) = g.rows.map (·.output) → f { g with rows } = f g)
include hf

/-- What does not look at flags sees no change of a flag. -/
theorem map_groups_mark (s : Selection) (p : OutPoint) (selected : Bool) (place : Place) (r : Row) :
    (s.mark p selected place r).groups.map f = s.groups.map f := by
  have hgroups : (s.mark p selected place r).groups =
      (s.modifyRow place fun r => { r with selected }).groups := by
    rw [mark_eq]
  have hrows : ∀ rows : List Row, (rows.modify place.2 fun r => { r with selected }).map (·.output) =
      rows.map (·.output) := fun rows => map_modify_of (fun _ => by rfl) rows place.2
  rw [hgroups]
  exact map_modify_of (fun g => hf g _ (hrows g.rows)) s.groups place.1

theorem map_groups_clear (s : Selection) : s.clear.groups.map f = s.groups.map f := by
  rw [clear_eq]
  dsimp only
  rw [List.map_map]
  refine List.map_congr_left fun g _ => hf g _ ?_
  rw [List.map_map]
  rfl

end Flags

theorem contents_of_outputs (g : Group) (rows : List Row)
    (h : rows.map (·.output) = g.rows.map (·.output)) : { g with rows }.contents = g.contents :=
  contents_of_perm rfl (by rw [h])

theorem contents_mark (s : Selection) (p : OutPoint) (selected : Bool) (place : Place) (r : Row) :
    (s.mark p selected place r).groups.map Group.contents = s.groups.map Group.contents :=
  map_groups_mark contents_of_outputs s p selected place r

theorem contents_clear (s : Selection) :
    s.clear.groups.map Group.contents = s.groups.map Group.contents :=
  map_groups_clear contents_of_outputs s

/-- What is listed stays listed. -/
theorem exists_row_of_contents (h : s'.groups.map Group.contents = s.groups.map Group.contents)
    (hp : ∃ x ∈ s.rows, x.point = p) : ∃ x ∈ s'.rows, x.point = p := by
  by_contra hno
  obtain ⟨x, hx, hxp⟩ := hp
  obtain ⟨g, hg, hx⟩ := List.mem_flatMap.mp hx
  refine free_of_contents (p := p) h.symm ?_ g hg x hx hxp
  intro k hk y hy hyp
  exact hno ⟨y, List.mem_flatMap.mpr ⟨k, hk, hy⟩, hyp⟩

/-! ## Changes -/

theorem faithful_of_unpicked (hs : Steady s.groups) (hi : s.Indexed) (hl : s.Latest)
    (hr : ∀ x ∈ s.rows, x.selected = false) (hstamps : s.stamps = []) : s.Faithful := by
  have hno : ∀ p, ¬s.Stamped p := by
    intro p hp
    unfold Stamped at hp
    rw [hstamps] at hp
    exact List.not_mem_nil hp
  refine ⟨hs, hi, hl, fun p hp => absurd hp (hno p), ?_⟩
  intro p init x hrows
  have hmem : ∀ y ∈ init ++ [x], y.selected = false := fun y hy =>
    hr y (List.mem_filter.mp (hrows ▸ hy)).1
  refine ⟨fun y hy => hmem y (by simp [hy]), ?_⟩
  simp [hmem x (by simp), hno p]

/-- The last row with its outpoint is the last one that is left when the others are
filtered out. -/
theorem Stands.filter_rows {pre post : List Group} {g : Group} {above below : List Row}
    (h : Stands s.groups place r pre g post above below) (hbelow : ∀ x ∈ below, x.point ≠ r.point)
    (hpost : ∀ k ∈ post, ∀ x ∈ k.rows, x.point ≠ r.point) :
    s.rows.filter (·.point = r.point) =
      (pre.flatMap (·.rows) ++ above).filter (·.point = r.point) ++ [r] := by
  have hafter : (below ++ post.flatMap (·.rows)).filter (·.point = r.point) = [] := by
    refine filter_point_eq_nil.mpr fun x hx => ?_
    rcases List.mem_append.mp hx with hx | hx
    · exact hbelow x hx
    · obtain ⟨k, hk, hx⟩ := List.mem_flatMap.mp hx
      exact hpost k hk x hx
  rw [h.rows, List.filter_append, List.filter_cons_of_pos (by simp), hafter]

/-- What the index finds is flagged if and only if it is stamped. -/
theorem Faithful.selected_iff (hf : s.Faithful) (h : s.found p = some (place, r)) :
    r.selected = true ↔ s.Stamped p := by
  obtain ⟨hlast, rfl⟩ := hf.latest.isLast hf.indexed h
  obtain ⟨pre, g, post, above, below, hst, hbelow, hpost⟩ := hlast.stands
  exact (hf.flags r.point _ r (hst.filter_rows hbelow hpost)).2

/-- To turn over the flag of what the index finds keeps flags and stamps in step. -/
theorem Faithful.mark (hf : s.Faithful) (h : s.found p = some (place, r)) :
    (s.mark p (!r.selected) place r).Faithful := by
  obtain ⟨hlast, rfl⟩ := hf.latest.isLast hf.indexed h
  obtain ⟨pre, g, post, above, below, hst, hbelow, hpost⟩ := hlast.stands
  have hcontents := contents_mark s r.point (!r.selected) place r
  refine ⟨hf.steady.of_contents hcontents,
    hf.indexed.of_points (positions_mark _ _ _ _ _) (points_mark _ _ _ _ _),
    hf.latest.of_points (positions_mark _ _ _ _ _) (points_mark _ _ _ _ _), ?_, ?_⟩
  · intro q hq
    refine exists_row_of_contents hcontents ?_
    rw [stamped_mark] at hq
    by_cases hqp : q = r.point
    · exact ⟨r, mem_rows_iff.mpr ⟨place, hlast.1⟩, hqp.symm⟩
    · rw [if_neg hqp] at hq
      exact hf.loaded q hq
  · intro q init x hrows
    have hst' := hst.modifyRow fun r' => { r' with selected := !r.selected }
    rw [rows_mark] at hrows
    rw [stamped_mark]
    by_cases hq : q = r.point
    · -- the row that was turned over is the last one that is left in the filter
      subst hq
      rw [hst'.filter_rows hbelow hpost] at hrows
      obtain ⟨rfl, hx⟩ := List.append_inj' hrows rfl
      obtain rfl := List.singleton_inj.mp hx
      obtain ⟨hinit, -⟩ := hf.flags r.point _ r (hst.filter_rows hbelow hpost)
      exact ⟨hinit, by rw [if_pos rfl]⟩
    · have hne : ¬r.point = q := fun heq => hq heq.symm
      rw [hst'.rows, List.filter_append, List.filter_cons_of_neg (by simpa using hne)] at hrows
      rw [if_neg hq]
      refine hf.flags q init x ?_
      rw [hst.rows, List.filter_append, List.filter_cons_of_neg (by simpa using hne)]
      exact hrows

/-- Sorting keeps them in step as long as the index keeps pointing at the last rows. -/
theorem Faithful.resorted (hf : s.Faithful) (hg : List.Forall₂ Group.Resorted s.groups s'.groups)
    (hstamps : s'.stamps = s.stamps) (hi : s'.Indexed) (hl : s'.Latest) : s'.Faithful := by
  have hcontents := contents_resorted hg
  have hstamped : ∀ q, s'.Stamped q ↔ s.Stamped q := by
    intro q
    unfold Stamped
    rw [hstamps]
  refine ⟨hf.steady.of_contents hcontents, hi, hl, ?_, ?_⟩
  · intro q hq
    exact exists_row_of_contents hcontents (hf.loaded q ((hstamped q).mp hq))
  · intro q init x hrows
    obtain ⟨moved, moved', kept, hold, hnew, hperm, hnil⟩ :=
      filter_resorted hg fun pre k post hgs => hf.steady.ties pre k post hgs q
    have hnew : s'.rows.filter (·.point = q) = moved' ++ kept := hnew
    rw [hrows] at hnew
    rcases List.eq_nil_or_concat kept with rfl | ⟨front, last, rfl⟩
    · obtain rfl := hnil rfl
      rw [hperm.eq_nil] at hnew
      simp at hnew
    · -- what was moved was not flagged, and the last row is the same as before
      rw [List.concat_eq_append, ← List.append_assoc] at hnew hold
      obtain ⟨rfl, hx⟩ := List.append_inj' hnew rfl
      obtain rfl := List.singleton_inj.mp hx
      obtain ⟨hinit, hflag⟩ := hf.flags q (moved ++ front) x hold
      refine ⟨?_, by rw [hflag, hstamped]⟩
      intro y hy
      refine hinit y ?_
      rcases List.mem_append.mp hy with hy | hy
      · exact List.mem_append_left _ (hperm.mem_iff.mp hy)
      · exact List.mem_append_right _ hy

theorem resorted_refl (groups : List Group) : List.Forall₂ Group.Resorted groups groups :=
  List.forall₂_same.mpr fun g _ => .refl g

theorem resorted_sort (s : Selection) (c : Column) :
    List.Forall₂ Group.Resorted s.groups (s.sort c).2.groups :=
  List.forall₂_map_right_iff.mpr (List.forall₂_same.mpr fun g _ => Group.resorted_sorted _ _ g)

theorem resorted_sortGroup {c : Column} {pre post : List Group} {g : Group}
    (hg : s.groups = pre ++ g :: post) :
    List.Forall₂ Group.Resorted s.groups (s.sortGroup c pre g post).groups := by
  rw [hg]
  exact List.rel_append (resorted_refl pre) (.cons (Group.resorted_sorted _ _ g) (resorted_refl post))

/-- Everything but a fetch leaves what is listed. -/
theorem Change.contents {e : Event} (h : Change s e s') (he : ∀ groups, e ≠ .fetch (.ok groups)) :
    s'.groups.map Group.contents = s.groups.map Group.contents := by
  cases h with
  | failed => rfl
  | load => exact absurd rfl (he _)
  | keep => rfl
  | set | toggle => exact contents_mark _ _ _ _ _
  | sort => exact contents_resorted (resorted_sort s _)
  | sortAccount hg => exact contents_resorted (resorted_sortGroup hg)
  | clear => exact contents_clear s
  | submit => rfl

/-- Everything but a fetch keeps flags and stamps in step. -/
theorem Change.faithful {e : Event} (h : Change s e s') (hf : s.Faithful)
    (he : ∀ groups, e ≠ .fetch (.ok groups)) : s'.Faithful := by
  cases h with
  | failed => exact hf
  | load => exact absurd rfl (he _)
  | keep => exact hf
  | set hs hfound => exact hf.mark hfound
  | toggle hs hfound => exact hf.mark hfound
  | sort => exact hf.resorted (resorted_sort s _) rfl (indexed_indexGroups rfl) (latest_indexGroups rfl)
  | @sortAccount account c pre g post hg hpre ha =>
    -- it is the first group of its account that is sorted
    have hapart := hf.steady.apart pre g post hg (by rw [ha]; exact hpre)
    exact hf.resorted (resorted_sortGroup hg) rfl (hf.indexed.sortGroup hg)
      (hf.latest.sortGroup hg hapart)
  | clear =>
    exact faithful_of_unpicked (hf.steady.of_contents (contents_clear s))
      (hf.indexed.of_points (positions_clear s) (points_clear s))
      (hf.latest.of_points (positions_clear s) (points_clear s)) (selected_clear s)
      (by rw [clear_eq])
  | submit =>
    exact ⟨hf.steady, hf.indexed.of_points rfl fun _ => rfl, hf.latest.of_points rfl fun _ => rfl,
      hf.loaded, hf.flags⟩

/-- A fetch of a steady listing puts them in step. -/
theorem faithful_load {sizing : Sizing} {groups : List Group} (hs : Steady groups)
    (hg : ∀ g ∈ groups, g.Unpicked) : (s.load sizing groups).Faithful :=
  faithful_of_unpicked hs (indexed_indexGroups rfl) (latest_indexGroups rfl) (selected_load hg) rfl

end Selection

end Purse
