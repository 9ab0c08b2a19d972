import Purse.Proofs.Selection.Run

/-!
# The index from outpoints to places

`Indexed` is what the index always is: every entry points at a row with its
outpoint, and every row's outpoint has an entry. Nothing is assumed of the rows, an
outpoint may be listed any number of times. It is kept by every change
(`Change.indexed`), so no place that the index gives is ever out of bounds
(`Indexed.found`).

Which of several rows with one outpoint the index points at is another question.
Freshly made it is the last one (`Latest`, `latest_indexGroups`); sorting one account
may move it to an earlier group.
-/

namespace Purse

/-- The outpoint of a row's output. -/
abbrev Row.point (r : Row) : OutPoint :=
  r.output.toOutPoint

namespace Selection

variable {ε : Type} [Engine ε] {s s' : Selection} {p : OutPoint} {place : Place} {r : Row}

/-! ## Where rows stand -/

/-- The row stands at the place: groups `pre` and rows `above` come before it, rows
`below` and groups `post` after it. -/
structure Stands (groups : List Group) (place : Place) (r : Row) (pre : List Group) (g : Group)
    (post : List Group) (above below : List Row) : Prop where
  groups_eq : groups = pre ++ g :: post
  rows_eq : g.rows = above ++ r :: below
  place_eq : place = (pre.length, above.length)

theorem getElem?_append_cons {α : Type} (pre : List α) (a : α) (post : List α) :
    (pre ++ a :: post)[pre.length]? = some a := by
  rw [List.getElem?_append_right (Nat.le_refl _), Nat.sub_self, List.getElem?_cons_zero]

section Stands

variable {pre post : List Group} {g : Group} {above below : List Row}

theorem exists_stands (h : s.row? place = some r) :
    ∃ pre g post above below, Stands s.groups place r pre g post above below := by
  obtain ⟨g, hg, hr⟩ := Option.bind_eq_some_iff.mp h
  obtain ⟨hi, rfl⟩ := List.getElem?_eq_some_iff.mp hg
  obtain ⟨hj, rfl⟩ := List.getElem?_eq_some_iff.mp hr
  refine ⟨s.groups.take place.1, s.groups[place.1], s.groups.drop (place.1 + 1),
    s.groups[place.1].rows.take place.2, s.groups[place.1].rows.drop (place.2 + 1), ?_, ?_, ?_⟩
  · rw [← List.drop_eq_getElem_cons hi, List.take_append_drop]
  · rw [← List.drop_eq_getElem_cons hj, List.take_append_drop]
  · rw [List.length_take_of_le (by omega), List.length_take_of_le (by omega)]

theorem Stands.row? (h : Stands s.groups place r pre g post above below) :
    s.row? place = some r := by
  unfold Selection.row?
  rw [h.place_eq, h.groups_eq]
  show ((pre ++ g :: post)[pre.length]?).bind (fun g => g.rows[above.length]?) = some r
  rw [getElem?_append_cons, Option.bind_some, h.rows_eq, getElem?_append_cons]

/-- All rows, with the one in its place among them. -/
theorem Stands.rows (h : Stands s.groups place r pre g post above below) :
    s.rows = (pre.flatMap (·.rows) ++ above) ++ r :: (below ++ post.flatMap (·.rows)) := by
  unfold Selection.rows
  rw [h.groups_eq, List.flatMap_append, List.flatMap_cons, h.rows_eq]
  simp only [List.append_assoc, List.cons_append]

/-- A change at the place changes the row that stands there. -/
theorem Stands.modifyRow (h : Stands s.groups place r pre g post above below) (f : Row → Row) :
    Stands (s.modifyRow place f).groups place (f r) pre { g with rows := above ++ f r :: below }
      post above below := by
  refine ⟨?_, rfl, h.place_eq⟩
  unfold Selection.modifyRow
  dsimp only
  rw [h.groups_eq, h.place_eq]
  dsimp only
  rw [modify_append_cons, h.rows_eq, modify_append_cons]

end Stands

/-- Every row stands somewhere. -/
theorem mem_rows_iff : r ∈ s.rows ↔ ∃ place, s.row? place = some r := by
  constructor
  · intro h
    obtain ⟨g, hg, hr⟩ := List.mem_flatMap.mp h
    obtain ⟨pre, post, hgs⟩ := List.append_of_mem hg
    obtain ⟨above, below, hrs⟩ := List.append_of_mem hr
    exact ⟨_, (Stands.mk hgs hrs rfl).row?⟩
  · rintro ⟨place, h⟩
    obtain ⟨pre, g, post, above, below, h⟩ := exists_stands h
    rw [h.rows]
    simp

/-! ## What is entered last counts -/

/-- Of the elements with a property there is a last one. -/
theorem exists_last {α : Type} {P : α → Prop} {l : List α} (h : ∃ a ∈ l, P a) :
    ∃ pre a post, l = pre ++ a :: post ∧ P a ∧ ∀ b ∈ post, ¬P b := by
  induction l with
  | nil => obtain ⟨a, ha, -⟩ := h; exact absurd ha List.not_mem_nil
  | cons b l ih =>
    -- only if nothing further on has the property can `b` be the last that has it
    by_cases hl : ∃ a ∈ l, P a
    · obtain ⟨pre, a, post, rfl, ha, hpost⟩ := ih hl
      exact ⟨b :: pre, a, post, rfl, ha, hpost⟩
    · obtain ⟨a, ha, hP⟩ := h
      rcases List.mem_cons.mp ha with rfl | ha
      · exact ⟨[], a, l, rfl, hP, fun c hc hPc => hl ⟨c, hc, hPc⟩⟩
      · exact absurd ⟨a, ha, hP⟩ hl

/-- Rows with other outpoints leave an entry alone. -/
theorem lookup_enter_absent {rows : List Row} (h : ∀ x ∈ rows, x.point ≠ p) (group k : Nat)
    (index : List (OutPoint × Place)) :
    ((rows.zipIdx k).foldl
      (fun index (row, i) => Keyed.insert row.output.toOutPoint (group, i) index) index).lookup p
      = index.lookup p := by
  induction rows generalizing k index with
  | nil => rfl
  | cons x rows ih =>
    rw [List.zipIdx_cons, List.foldl_cons, ih (fun y hy => h y (List.mem_cons_of_mem _ hy)),
      Keyed.lookup_insert, if_neg (fun hp => h x List.mem_cons_self hp.symm)]

theorem lookup_indexRows_absent {rows : List Row} (h : ∀ x ∈ rows, x.point ≠ p) (group : Nat)
    (index : List (OutPoint × Place)) :
    (indexRows group rows index).lookup p = index.lookup p :=
  lookup_enter_absent h group 0 index

/-- The last row with an outpoint is the one that is entered for it. -/
theorem lookup_indexRows_last {above below : List Row} (h : ∀ x ∈ below, x.point ≠ r.point)
    (group : Nat) (index : List (OutPoint × Place)) :
    (indexRows group (above ++ r :: below) index).lookup r.point = some (group, above.length) := by
  unfold indexRows
  rw [List.zipIdx_append, List.zipIdx_cons, List.foldl_append, List.foldl_cons,
    lookup_enter_absent h, Keyed.lookup_insert, if_pos rfl, Nat.zero_add]

/-- Groups without an outpoint leave its entry alone. -/
theorem lookup_indexGroups_absent {groups : List Group}
    (h : ∀ g ∈ groups, ∀ x ∈ g.rows, x.point ≠ p) (k : Nat) (index : List (OutPoint × Place)) :
    ((groups.zipIdx k).foldl (fun index (group, i) => indexRows i group.rows index) index).lookup p
      = index.lookup p := by
  induction groups generalizing k index with
  | nil => rfl
  | cons g groups ih =>
    rw [List.zipIdx_cons, List.foldl_cons, ih (fun h' hh => h h' (List.mem_cons_of_mem _ hh)),
      lookup_indexRows_absent (h g List.mem_cons_self)]

/-- The row at the place is the last one with its outpoint, in the order of groups and
rows. -/
def IsLast (s : Selection) (place : Place) (r : Row) : Prop :=
  s.row? place = some r ∧ ∀ q x, s.row? q = some x → x.point = r.point →
    q.1 < place.1 ∨ q.1 = place.1 ∧ q.2 ≤ place.2

/-- The index points at the last row with each outpoint. -/
def Latest (s : Selection) : Prop :=
  ∀ place r, s.IsLast place r → s.positions.lookup r.point = some place

section IsLast

variable {pre post : List Group} {g : Group} {above below : List Row}

/-- A last row has no row with its outpoint after it. -/
theorem IsLast.stands (h : s.IsLast place r) :
    ∃ pre g post above below, Stands s.groups place r pre g post above below ∧
      (∀ x ∈ below, x.point ≠ r.point) ∧ ∀ k ∈ post, ∀ x ∈ k.rows, x.point ≠ r.point := by
  obtain ⟨pre, g, post, above, below, hst⟩ := exists_stands h.1
  refine ⟨pre, g, post, above, below, hst, ?_, ?_⟩
  -- such a row would stand further down in the same group, or in a later one
  · intro x hx hp
    obtain ⟨l, l', rfl⟩ := List.append_of_mem hx
    have hx' : Stands s.groups (pre.length, (above ++ r :: l).length) x pre g post
        (above ++ r :: l) l' := ⟨hst.groups_eq, by rw [hst.rows_eq]; simp, rfl⟩
    have hle := h.2 _ x hx'.row? hp
    rw [hst.place_eq, List.length_append, List.length_cons] at hle
    dsimp only at hle
    omega
  · intro k hk x hx hp
    obtain ⟨l, l', rfl⟩ := List.append_of_mem hk
    obtain ⟨m, m', hm⟩ := List.append_of_mem hx
    have hx' : Stands s.groups ((pre ++ g :: l).length, m.length) x (pre ++ g :: l) k l' m m' :=
      ⟨by rw [hst.groups_eq]; simp, hm, rfl⟩
    have hle := h.2 _ x hx'.row? hp
    rw [hst.place_eq, List.length_append, List.length_cons] at hle
    dsimp only at hle
    omega

theorem getElem?_append_cons_of_lt {α : Type} {pre post : List α} {a b : α} {n : Nat}
    (hn : pre.length < n) (h : (pre ++ a :: post)[n]? = some b) : b ∈ post := by
  rw [List.getElem?_append_right (by omega)] at h
  obtain ⟨m, hm⟩ : ∃ m, n - pre.length = m + 1 := ⟨n - pre.length - 1, by omega⟩
  rw [hm, List.getElem?_cons_succ] at h
  exact List.mem_of_getElem? h

/-- A row is the last one if none with its outpoint stands after it. -/
theorem Stands.isLast (h : Stands s.groups place r pre g post above below)
    (hbelow : ∀ x ∈ below, x.point ≠ r.point)
    (hpost : ∀ k ∈ post, ∀ x ∈ k.rows, x.point ≠ r.point) : s.IsLast place r := by
  refine ⟨h.row?, ?_⟩
  intro q x hq hp
  obtain ⟨k, hk, hx⟩ := Option.bind_eq_some_iff.mp hq
  rw [h.groups_eq] at hk
  rw [h.place_eq]
  -- before the group, in it, or after it
  rcases Nat.lt_trichotomy q.1 pre.length with hlt | heq | hgt
  · exact Or.inl hlt
  · refine Or.inr ⟨heq, Nat.not_lt.mp ?_⟩
    intro hlt
    rw [heq, getElem?_append_cons] at hk
    cases hk
    rw [h.rows_eq] at hx
    exact hbelow x (getElem?_append_cons_of_lt hlt hx) hp
  · exact absurd hp (hpost k (getElem?_append_cons_of_lt hgt hk) x (List.mem_of_getElem? hx))

end IsLast

/-- There is only one last row. -/
theorem IsLast.unique {q : Place} {x : Row} (h : s.IsLast place r) (hx : s.IsLast q x)
    (hp : x.point = r.point) : q = place ∧ x = r := by
  have hle := h.2 q x hx.1 hp
  have hge := hx.2 place r h.1 hp.symm
  have hq : q = place := Prod.ext (by omega) (by omega)
  subst hq
  exact ⟨rfl, Option.some.inj (hx.1.symm.trans h.1)⟩

/-- If an outpoint is listed at all, one of its rows is the last. -/
theorem exists_isLast (h : ∃ x ∈ s.rows, x.point = p) : ∃ place r, s.IsLast place r ∧ r.point = p := by
  have hg : ∃ g ∈ s.groups, ∃ x ∈ g.rows, x.point = p := by
    obtain ⟨x, hx, hp⟩ := h
    obtain ⟨g, hg, hx⟩ := List.mem_flatMap.mp hx
    exact ⟨g, hg, x, hx, hp⟩
  obtain ⟨pre, g, post, hgs, hrows, hpost⟩ := exists_last hg
  obtain ⟨above, r, below, hrs, rfl, hbelow⟩ := exists_last hrows
  have hst : Stands s.groups (pre.length, above.length) r pre g post above below :=
    ⟨hgs, hrs, rfl⟩
  exact ⟨_, r, hst.isLast hbelow fun k hk x hx hxp => hpost k hk ⟨x, hx, hxp⟩, rfl⟩

/-- A freshly made index points at the last rows. -/
theorem latest_indexGroups (h : s.positions = indexGroups s.groups) : s.Latest := by
  intro place r hlast
  obtain ⟨pre, g, post, above, below, hst, hbelow, hpost⟩ := hlast.stands
  rw [h, hst.groups_eq, hst.place_eq]
  unfold indexGroups
  rw [List.zipIdx_append, List.zipIdx_cons, List.foldl_append, List.foldl_cons,
    lookup_indexGroups_absent hpost]
  dsimp only
  rw [hst.rows_eq, lookup_indexRows_last hbelow, Nat.zero_add]

/-- Only the outpoints at the places matter to that. -/
theorem Latest.of_points (hl : s.Latest) (hpos : s'.positions = s.positions)
    (h : ∀ q, (s'.row? q).map (·.point) = (s.row? q).map (·.point)) : s'.Latest := by
  intro place r hlast
  have hr := h place
  rw [hlast.1, Option.map_some] at hr
  obtain ⟨r', hr', hp⟩ := Option.map_eq_some_iff.mp hr.symm
  rw [hpos, ← hp]
  refine hl place r' ⟨hr', ?_⟩
  intro q x hx hxp
  have hq := h q
  rw [hx, Option.map_some] at hq
  obtain ⟨x', hx', hp'⟩ := Option.map_eq_some_iff.mp hq
  exact hlast.2 q x' hx' (hp'.trans (hxp.trans hp))

/-! ## What the index always is -/

/-- Every entry points at a row with its outpoint, and the outpoint of every row has
an entry. -/
structure Indexed (s : Selection) : Prop where
  sound : ∀ {p place}, s.positions.lookup p = some place → (s.row? place).map (·.point) = some p
  complete : ∀ r ∈ s.rows, ∃ place, s.positions.lookup r.point = some place

/-- What is found stands where it was found and has the outpoint looked for. -/
theorem found_eq_some (h : s.found p = some (place, r)) :
    s.positions.lookup p = some place ∧ s.row? place = some r := by
  obtain ⟨q, hq, hr⟩ := Option.bind_eq_some_iff.mp h
  obtain ⟨r', hr', heq⟩ := Option.map_eq_some_iff.mp hr
  cases heq
  exact ⟨hq, hr'⟩

theorem output?_of_found (h : s.found p = some (place, r)) : s.output? p = some r.output := by
  obtain ⟨hplace, hr⟩ := found_eq_some h
  unfold Selection.output?
  rw [hplace]
  show (s.row? place).bind _ = _
  rw [hr]
  rfl

theorem Indexed.point_of_found (hi : s.Indexed) (h : s.found p = some (place, r)) :
    r.point = p := by
  obtain ⟨hp, hr⟩ := found_eq_some h
  have hpoint := hi.sound hp
  rw [hr] at hpoint
  exact Option.some.inj hpoint

/-- Every loaded outpoint is found. -/
theorem Indexed.found (hi : s.Indexed) (hr : ∃ r ∈ s.rows, r.point = p) :
    ∃ place row, s.found p = some (place, row) := by
  obtain ⟨r, hr, rfl⟩ := hr
  obtain ⟨place, hp⟩ := hi.complete r hr
  obtain ⟨row, hrow, -⟩ := Option.map_eq_some_iff.mp (hi.sound hp)
  refine ⟨place, row, ?_⟩
  unfold Selection.found
  rw [hp, Option.bind_some, hrow, Option.map_some]

/-- What an index that points at the last rows finds is the last row with the outpoint. -/
theorem Latest.isLast (hl : s.Latest) (hi : s.Indexed) (h : s.found p = some (place, r)) :
    s.IsLast place r ∧ r.point = p := by
  obtain ⟨hplace, hr⟩ := found_eq_some h
  have hp := hi.point_of_found h
  obtain ⟨q, x, hlast, hxp⟩ := exists_isLast ⟨r, mem_rows_iff.mpr ⟨place, hr⟩, hp⟩
  have hq := hl q x hlast
  rw [hxp, hplace] at hq
  obtain rfl := Option.some.inj hq
  obtain rfl := Option.some.inj (hr.symm.trans hlast.1)
  exact ⟨hlast, hp⟩

/-- An index that is freshly made is sound and complete. -/
theorem indexed_indexGroups (h : s.positions = indexGroups s.groups) : s.Indexed := by
  refine ⟨fun {p place} hp => ?_, fun r hr => ?_⟩
  -- an entry is that of the last row with its outpoint, and there is none without a row
  · by_cases hl : ∃ x ∈ s.rows, x.point = p
    · obtain ⟨q, r, hlast, rfl⟩ := exists_isLast hl
      have hq := latest_indexGroups h q r hlast
      obtain rfl : q = place := Option.some.inj (hq.symm.trans hp)
      rw [hlast.1, Option.map_some]
    · have hno : ∀ g ∈ s.groups, ∀ x ∈ g.rows, x.point ≠ p := fun g hg x hx hxp =>
        hl ⟨x, List.mem_flatMap.mpr ⟨g, hg, hx⟩, hxp⟩
      rw [h, indexGroups, lookup_indexGroups_absent hno] at hp
      cases hp
  · obtain ⟨q, r', hlast, hp⟩ := exists_isLast ⟨r, hr, rfl⟩
    rw [← hp]
    exact ⟨q, latest_indexGroups h q r' hlast⟩

/-- Only the places of outpoints matter to an index. -/
theorem Indexed.of_points (hi : s.Indexed) (hpos : s'.positions = s.positions)
    (h : ∀ q, (s'.row? q).map (·.point) = (s.row? q).map (·.point)) : s'.Indexed := by
  refine ⟨fun hp => ?_, fun r hr => ?_⟩
  · rw [h]
    rw [hpos] at hp
    exact hi.sound hp
  · obtain ⟨q, hq⟩ := mem_rows_iff.mp hr
    have hpoint := h q
    rw [hq, Option.map_some] at hpoint
    obtain ⟨r', hr', heq⟩ := Option.map_eq_some_iff.mp hpoint.symm
    obtain ⟨place, hp⟩ := hi.complete r' (mem_rows_iff.mpr ⟨q, hr'⟩)
    exact ⟨place, by rw [hpos, ← heq]; exact hp⟩

/-! ## What changes do to it -/

theorem row?_modifyRow (s : Selection) (place q : Place) (f : Row → Row) :
    (s.modifyRow place f).row? q = (s.row? q).map (if q = place then f else id) := by
  obtain ⟨i, j⟩ := place
  obtain ⟨i', j'⟩ := q
  show (((s.groups.modify i _)[i']?).bind fun g => g.rows[j']?) =
    ((s.groups[i']?).bind fun g => g.rows[j']?).map _
  rw [List.getElem?_modify]
  cases s.groups[i']? with
  | none => rfl
  | some g =>
    show ((if i = i' then _ else g : Group).rows[j']?) = (g.rows[j']?).map _
    by_cases hi : i = i'
    · rw [if_pos hi]
      show (g.rows.modify j f)[j']? = _
      rw [List.getElem?_modify, hi]
      by_cases hj : j = j'
      · rw [if_pos (by rw [hj]), hj]
        simp only [if_true]
        rfl
      · rw [if_neg (fun h => hj (congrArg Prod.snd h).symm), Option.map_id]
        simp only [hj, if_false]
        exact Option.map_id'
    · rw [if_neg hi, if_neg (fun h => hi (congrArg Prod.fst h).symm), Option.map_id]
      rfl

theorem updateSize_eq (s : Selection) : s.updateSize =
    { s with size := (s.sizing.map (·.estimate s.stamps.length s.inputsSize)).getD s.size } := by
  rcases s with ⟨w, sizing, groups, positions, stamps, next, amount, inputsSize, size, tracker, stage⟩
  cases sizing <;> rfl

/-- All that a change of a flag does. -/
theorem mark_eq (s : Selection) (p : OutPoint) (selected : Bool) (place : Place) (r : Row) :
    s.mark p selected place r =
      let stamps := if selected then Keyed.insert p s.nextStamp s.stamps else Keyed.erase p s.stamps
      let inputsSize := if selected then s.inputsSize + s.inputSize r.output
        else s.inputsSize - s.inputSize r.output
      { s.modifyRow place fun r => { r with selected } with
        stamps
        nextStamp := if selected then s.nextStamp + 1 else s.nextStamp
        amount := if selected then s.amount + r.output.amount.toNat
          else s.amount - r.output.amount.toNat
        inputsSize
        size := (s.sizing.map (·.estimate stamps.length inputsSize)).getD s.size
        stage := if stamps.isEmpty then .loaded else .selecting } := by
  unfold mark
  cases selected <;> (dsimp only; rw [updateSize_eq]; rfl)

/-- Clearing takes back the flags and leaves the rows where they are. -/
theorem clear_eq (s : Selection) : s.clear =
    { s with
      groups := s.groups.map fun g =>
        { g with rows := g.rows.map fun r => { r with selected := false } }
      stamps := []
      amount := 0
      inputsSize := 0
      size := (s.sizing.map (·.estimate 0 0)).getD s.size
      tracker := {}
      stage := if s.stage = .empty then .empty else .loaded } := by
  rcases s with ⟨w, sizing, groups, positions, stamps, next, amount, inputsSize, size, tracker, stage⟩
  cases sizing <;> cases stage <;> rfl

theorem row?_clear (s : Selection) (q : Place) :
    s.clear.row? q = (s.row? q).map fun r => { r with selected := false } := by
  rw [clear_eq]
  show (((s.groups.map _)[q.1]?).bind fun g : Group => g.rows[q.2]?) =
    ((s.groups[q.1]?).bind fun g => g.rows[q.2]?).map _
  rw [List.getElem?_map]
  cases s.groups[q.1]? with
  | none => rfl
  | some g => exact List.getElem?_map

/-- Sorting one group leaves the rows of the others in their places. -/
theorem row?_sortGroup_of_ne {c : Column} {pre post : List Group} {g : Group}
    (hg : s.groups = pre ++ g :: post) {q : Place} (hq : q.1 ≠ pre.length) :
    (s.sortGroup c pre g post).row? q = s.row? q := by
  show (((pre ++ _ :: post)[q.1]?).bind fun g => g.rows[q.2]?) =
    (s.groups[q.1]?).bind fun g => g.rows[q.2]?
  rw [hg, List.getElem?_append, List.getElem?_append]
  split
  next => rfl
  next hlt =>
    obtain ⟨n, hn⟩ : ∃ n, q.1 - pre.length = n + 1 := ⟨q.1 - pre.length - 1, by omega⟩
    rw [hn, List.getElem?_cons_succ, List.getElem?_cons_succ]

/-- Once a group has been sorted by itself, the index finds what it lists in it. -/
theorem found_sortGroup (s : Selection) (c : Column) (pre : List Group) {g : Group}
    (post : List Group) (h : ∃ x ∈ g.rows, x.point = p) :
    ∃ j x, (s.sortGroup c pre g post).found p = some ((pre.length, j), x) ∧ x ∈ g.rows ∧
      x.point = p := by
  have hperm := Group.sorted_rows_perm c (s.tracker.click c).direction g
  have hin : ∃ x ∈ (g.sorted c (s.tracker.click c).direction).rows, x.point = p := by
    obtain ⟨x, hx, hxp⟩ := h
    exact ⟨x, hperm.mem_iff.mpr hx, hxp⟩
  obtain ⟨above, x, below, hrows, rfl, hbelow⟩ := exists_last hin
  have hst : Stands (s.sortGroup c pre g post).groups (pre.length, above.length) x pre
      (g.sorted c (s.tracker.click c).direction) post above below := ⟨rfl, hrows, rfl⟩
  have hlookup : (s.sortGroup c pre g post).positions.lookup x.point =
      some (pre.length, above.length) := by
    show (indexRows _ _ _).lookup _ = _
    rw [hrows]
    exact lookup_indexRows_last hbelow _ _
  refine ⟨above.length, x, ?_, hperm.mem_iff.mp (by rw [hrows]; simp), rfl⟩
  unfold Selection.found
  rw [hlookup, Option.bind_some, hst.row?, Option.map_some]

/-- Entering one group anew keeps an index sound and complete: what the group no
longer decides still points into another one. -/
theorem Indexed.sortGroup (hi : s.Indexed) {c : Column} {pre post : List Group} {g : Group}
    (hg : s.groups = pre ++ g :: post) : (s.sortGroup c pre g post).Indexed := by
  have hperm := Group.sorted_rows_perm c (s.tracker.click c).direction g
  have hold : ∀ q, (∀ x ∈ g.rows, x.point ≠ q) →
      (s.sortGroup c pre g post).positions.lookup q = s.positions.lookup q := fun q hq =>
    lookup_indexRows_absent (fun x hx => hq x (hperm.mem_iff.mp hx)) _ _
  constructor
  · intro q place hq
    by_cases hl : ∃ x ∈ g.rows, x.point = q
    · obtain ⟨j, x, hfound, -, hxq⟩ := found_sortGroup s c pre post hl
      obtain ⟨hplace, hx⟩ := found_eq_some hfound
      obtain rfl := Option.some.inj (hplace.symm.trans hq)
      rw [hx, Option.map_some, hxq]
    · have hno : ∀ x ∈ g.rows, x.point ≠ q := fun x hx hxq => hl ⟨x, hx, hxq⟩
      rw [hold q hno] at hq
      have hrow := hi.sound hq
      rw [row?_sortGroup_of_ne hg, hrow]
      -- in the sorted group nothing with this outpoint can have stood
      intro hplace
      obtain ⟨r, hr, hrq⟩ := Option.map_eq_some_iff.mp hrow
      obtain ⟨g', hg', hr⟩ := Option.bind_eq_some_iff.mp hr
      rw [hplace, hg, getElem?_append_cons] at hg'
      cases hg'
      exact hno r (List.mem_of_getElem? hr) hrq
  · intro x hx
    by_cases hl : ∃ y ∈ g.rows, y.point = x.point
    · obtain ⟨j, y, hfound, -, -⟩ := found_sortGroup s c pre post hl
      exact ⟨_, (found_eq_some hfound).1⟩
    · rw [hold x.point fun y hy hyx => hl ⟨y, hy, hyx⟩]
      refine hi.complete x ?_
      obtain ⟨k, hk, hx⟩ := List.mem_flatMap.mp hx
      have hk : k ∈ pre ++ g.sorted c (s.tracker.click c).direction :: post := hk
      rcases List.mem_append.mp hk with hk | hk
      · exact List.mem_flatMap.mpr ⟨k, by rw [hg]; simp [hk], hx⟩
      · rcases List.mem_cons.mp hk with rfl | hk
        · exact absurd ⟨x, hperm.mem_iff.mp hx, rfl⟩ hl
        · exact List.mem_flatMap.mpr ⟨k, by rw [hg]; simp [hk], hx⟩

/-- To enter one group anew keeps the index pointing at the last rows, if no later
group lists what this one lists. -/
theorem Latest.sortGroup (hl : s.Latest) {c : Column} {pre post : List Group} {g : Group}
    (hg : s.groups = pre ++ g :: post)
    (hapart : ∀ x ∈ g.rows, ∀ k ∈ post, ∀ y ∈ k.rows, y.point ≠ x.point) :
    (s.sortGroup c pre g post).Latest := by
  intro place r hlast
  have hperm := Group.sorted_rows_perm c (s.tracker.click c).direction g
  show (indexRows pre.length (g.sorted c (s.tracker.click c).direction).rows
    s.positions).lookup r.point = some place
  by_cases hin : ∃ x ∈ (g.sorted c (s.tracker.click c).direction).rows, x.point = r.point
  · obtain ⟨above, y, below, hrs, hy, hbelow⟩ := exists_last hin
    have hst : Stands (s.sortGroup c pre g post).groups (pre.length, above.length) y pre
        (g.sorted c (s.tracker.click c).direction) post above below := ⟨rfl, hrs, rfl⟩
    have hmem : y ∈ g.rows := hperm.mem_iff.mp (by rw [hrs]; simp)
    have hylast := hst.isLast (fun x hx hxy => hbelow x hx (hxy.trans hy)) (hapart y hmem)
    obtain ⟨rfl, rfl⟩ := hylast.unique hlast hy.symm
    rw [hrs]
    exact lookup_indexRows_last hbelow _ _
  · have hno : ∀ x ∈ (g.sorted c (s.tracker.click c).direction).rows, x.point ≠ r.point :=
      fun x hx hxp => hin ⟨x, hx, hxp⟩
    -- so nothing with this outpoint stands in the group, before the sort or after it
    have houtside : ∀ q x, s.row? q = some x → x.point = r.point → q.1 ≠ pre.length := by
      intro q x hq hxp heq
      obtain ⟨k, hk, hx⟩ := Option.bind_eq_some_iff.mp hq
      rw [hg, heq, getElem?_append_cons] at hk
      cases hk
      exact hno x (hperm.mem_iff.mpr (List.mem_of_getElem? hx)) hxp
    have hplace : place.1 ≠ pre.length := by
      intro heq
      obtain ⟨k, hk, hr⟩ := Option.bind_eq_some_iff.mp hlast.1
      have hk' : (pre ++ g.sorted c (s.tracker.click c).direction :: post)[place.1]? = some k := hk
      rw [heq, getElem?_append_cons] at hk'
      cases hk'
      exact hno r (List.mem_of_getElem? hr) rfl
    rw [lookup_indexRows_absent hno]
    refine hl place r ⟨?_, ?_⟩
    · rw [← row?_sortGroup_of_ne hg hplace]
      exact hlast.1
    · intro q x hq hxp
      rw [← row?_sortGroup_of_ne hg (houtside q x hq hxp)] at hq
      exact hlast.2 q x hq hxp

theorem row?_mark (s : Selection) (p : OutPoint) (selected : Bool) (place : Place) (r : Row)
    (q : Place) : (s.mark p selected place r).row? q =
      (s.row? q).map (if q = place then fun r => { r with selected } else id) := by
  rw [mark_eq]
  exact row?_modifyRow s place q _

/-- A change of a flag moves no outpoint. -/
theorem points_mark (s : Selection) (p : OutPoint) (selected : Bool) (place : Place) (r : Row)
    (q : Place) :
    ((s.mark p selected place r).row? q).map (·.point) = (s.row? q).map (·.point) := by
  rw [row?_mark, Option.map_map]
  split <;> rfl

theorem points_clear (s : Selection) (q : Place) :
    (s.clear.row? q).map (·.point) = (s.row? q).map (·.point) := by
  rw [row?_clear, Option.map_map]
  rfl

theorem positions_mark (s : Selection) (p : OutPoint) (selected : Bool) (place : Place) (r : Row) :
    (s.mark p selected place r).positions = s.positions := by
  rw [mark_eq]; rfl

theorem rows_mark (s : Selection) (p : OutPoint) (selected : Bool) (place : Place) (r : Row) :
    (s.mark p selected place r).rows = (s.modifyRow place fun r => { r with selected }).rows := by
  rw [mark_eq]; rfl

theorem stage_mark (s : Selection) (p : OutPoint) (selected : Bool) (place : Place) (r : Row) :
    (s.mark p selected place r).stage =
      if (s.mark p selected place r).stamps.isEmpty then .loaded else .selecting := by
  rw [mark_eq]

theorem positions_clear (s : Selection) : s.clear.positions = s.positions := by
  rw [clear_eq]

/-- No change spoils the index. -/
theorem Change.indexed {e : Event} (h : Change s e s') (hi : s.Indexed) : s'.Indexed := by
  cases h with
  | failed => exact hi
  | load => exact indexed_indexGroups rfl
  | keep => exact hi
  | set => exact hi.of_points (positions_mark _ _ _ _ _) (points_mark _ _ _ _ _)
  | toggle => exact hi.of_points (positions_mark _ _ _ _ _) (points_mark _ _ _ _ _)
  | sort => exact indexed_indexGroups rfl
  | sortAccount hg => exact hi.sortGroup hg
  | clear => exact hi.of_points (positions_clear s) (points_clear s)
  | submit => exact hi.of_points rfl fun _ => rfl

/-- A new selection has nothing to index. -/
theorem indexed_new (w : WalletId) : ({ wallet := w } : Selection).Indexed :=
  indexed_indexGroups rfl

end Selection

end Purse
