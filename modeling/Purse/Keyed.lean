/-!
# Lists with keys

A list of pairs holds at most one value for each key when it is only changed by
`insert` and `erase`. `List.lookup` reads it; the lookup lemmas say what remains
to be read after a change, also where the value under a key is replaced in its place.
-/

namespace Purse.Keyed

variable {κ β : Type} [DecidableEq κ]

/-- Removes what is stored under the key. -/
def erase (k : κ) (m : List (κ × β)) : List (κ × β) :=
  m.filter (fun e => e.1 ≠ k)

/-- Stores a value under the key, in place of what was there. -/
def insert (k : κ) (v : β) (m : List (κ × β)) : List (κ × β) :=
  (k, v) :: erase k m

/-- There is nothing under a key that does not occur. -/
theorem lookup_eq_none_iff {k : κ} {m : List (κ × β)} : m.lookup k = none ↔ k ∉ m.map (·.1) := by
  rw [List.lookup_eq_none_iff]
  constructor
  · intro h hmem
    obtain ⟨e, he, rfl⟩ := List.mem_map.mp hmem
    exact bne_iff_ne.mp (h e he) rfl
  · intro h e he
    exact bne_iff_ne.mpr fun heq => h (heq ▸ List.mem_map_of_mem he)

theorem mem_of_lookup {k : κ} {v : β} {m : List (κ × β)} (h : m.lookup k = some v) :
    (k, v) ∈ m := by
  obtain ⟨above, below, rfl, -⟩ := List.lookup_eq_some_iff.mp h
  exact List.mem_append_right above List.mem_cons_self

/-- What is left under other keys stays; under the erased one there is nothing. -/
theorem lookup_erase (k k' : κ) (m : List (κ × β)) :
    (erase k m).lookup k' = if k' = k then none else m.lookup k' := by
  induction m with
  | nil => simp [erase]
  | cons e rest ih =>
    obtain ⟨j, v⟩ := e
    rw [erase] at ih ⊢
    by_cases hj : j = k
    · rw [List.filter_cons_of_neg (by simpa using hj), ih]
      by_cases hk : k' = k
      · rw [if_pos hk, if_pos hk]
      · have hne : (k' == j) = false := beq_eq_false_iff_ne.mpr (hj ▸ hk)
        rw [if_neg hk, if_neg hk, List.lookup_cons, hne]
    · rw [List.filter_cons_of_pos (by simpa using hj), List.lookup_cons, List.lookup_cons]
      cases hb : k' == j with
      | true =>
        have hk : ¬k' = k := fun h => hj (eq_of_beq hb ▸ h)
        rw [if_neg hk]
      | false => exact ih

/-- The new value is found under its key, and nothing else has changed. -/
theorem lookup_insert (k k' : κ) (v : β) (m : List (κ × β)) :
    (insert k v m).lookup k' = if k' = k then some v else m.lookup k' := by
  rw [insert, List.lookup_cons]
  cases hb : k' == k with
  | true => rw [if_pos (eq_of_beq hb)]
  | false =>
    have hk : ¬k' = k := beq_eq_false_iff_ne.mp hb
    rw [if_neg hk]
    exact (lookup_erase k k' m).trans (if_neg hk)

/-- A value that is replaced is found where there was one. -/
theorem lookup_replace (k k' : κ) (v : β) (m : List (κ × β)) :
    (m.map fun e => if e.1 = k then (k, v) else e).lookup k' =
      if k' = k then (m.lookup k).map fun _ => v else m.lookup k' := by
  induction m with
  | nil => simp
  | cons e rest ih =>
    rw [List.map_cons]
    by_cases hj : e.1 = k
    · rw [if_pos hj, List.lookup_cons, List.lookup_cons, List.lookup_cons, ih, hj]
      by_cases hk : k' = k
      · simp [hk]
      · simp [hk, beq_eq_false_iff_ne.mpr hk]
    · rw [if_neg hj, List.lookup_cons, List.lookup_cons, List.lookup_cons, ih]
      by_cases hk : k' = k
      · have hne : (k == e.1) = false := beq_eq_false_iff_ne.mpr (Ne.symm hj)
        simp [hk, hne]
      · simp [hk]

/-- What is erased need not have been replaced before. -/
theorem erase_replace (k : κ) (v : β) (m : List (κ × β)) :
    erase k (m.map fun e => if e.1 = k then (k, v) else e) = erase k m := by
  unfold erase
  induction m with
  | nil => rfl
  | cons e rest ih =>
    rw [List.map_cons]
    by_cases hk : e.1 = k
    · rw [if_pos hk, List.filter_cons_of_neg (by simp), List.filter_cons_of_neg (by simp [hk]), ih]
    · rw [if_neg hk, List.filter_cons_of_pos (by simp [hk]), List.filter_cons_of_pos (by simp [hk]), ih]

/-- Of two values put in the same place, the later one stays. -/
theorem replace_replace (k : κ) (v v' : β) (m : List (κ × β)) :
    ((m.map fun e => if e.1 = k then (k, v) else e).map fun e => if e.1 = k then (k, v') else e) =
      m.map fun e => if e.1 = k then (k, v') else e := by
  rw [List.map_map]
  refine List.map_congr_left fun e _ => ?_
  by_cases hk : e.1 = k
  · simp [hk]
  · simp [hk]

end Purse.Keyed
