import Mathlib.Data.List.Basic
import Purse.Engine.InMemory
import Purse.Proofs.Registry.Lines

/-!
# Refreshes do not get in each other's way

Since a registration's line has the one with the lock in front, nobody else takes that
lock until he has left the line (`Held`). So whoever takes it later has all his calls
after the last turn of those before (`Ordered`), and the picture that is seen is that of
the last one who succeeded (`Shown`); it is as recent as what that one was told.

Main statement: `refreshes_apart`.
-/

namespace Purse.Company

variable {ε : Type} {c c' : Company ε} {i i' j : Nat} {wait : Wait}
  {t : Turns Wait (Registry ε) (Outcome Accounts)}

/-! ## Who has had which turn -/

/-- The ticket and the wallet of a refresh. -/
def who (c : Company ε) (i : Nat) : Option (Nat × WalletId) :=
  c.refreshes[i]?.map fun f => (f.ticket, f.wallet)

theorem who_modify (c : Company ε) (i : Nat) (progress : Progress ε) (j : Nat) :
    (c.modify i progress).who j = c.who j := by
  unfold who
  rw [getElem?_modify, Option.map_map]
  congr 1
  funext f
  by_cases hj : i = j <;> simp [hj]

theorem picture?_modify {f : Refresh ε} (hf : c.refreshes[i]? = some f) (progress : Progress ε)
    (j : Nat) : (c.modify i progress).picture? j =
      if i = j then progress.picture? else c.picture? j := by
  unfold picture?
  rw [getElem?_modify]
  by_cases hj : i = j
  · subst hj
    rw [hf, if_pos rfl]
    simp
  · rw [if_neg hj, Option.bind_map]
    congr 1
    funext f
    simp [hj]

theorem picture?_of_isUnderWay {f : Refresh ε} (hf : c.refreshes[i]? = some f) (h : f.isUnderWay) :
    c.picture? i = none := by
  unfold picture? Progress.picture?
  unfold Refresh.isUnderWay at h
  rw [hf, Option.bind_some]
  cases hp : f.progress with
  | waits => rfl
  | ended | abandoned => simp [hp] at h

/-- The refresh has taken the lock of the registration. -/
def Took (c : Company ε) (key i : Nat) : Prop :=
  c.HasLock i ∧ ∃ ticket w r, c.who i = some (ticket, w) ∧ Registry.FoundAs w key r (c.turnsOf i)

/-- Nobody has had a turn. -/
structure Still (c c' : Company ε) : Prop where
  log : c'.log = c.log
  length : c.refreshes.length ≤ c'.refreshes.length
  who : ∀ i < c.refreshes.length, c'.who i = c.who i
  queues : ∀ key i ticket, c'.Queues key i ticket → c.Queues key i ticket
  pictures : ∀ key, c'.registry.picture key = c.registry.picture key
  picture? : ∀ i < c.refreshes.length, c'.picture? i = c.picture? i

namespace Still

theorem turnsOf (h : Still c c') (i : Nat) : c'.turnsOf i = c.turnsOf i := by
  unfold Company.turnsOf
  rw [h.log]

theorem hasLock (h : Still c c') : c'.HasLock i ↔ c.HasLock i := by
  unfold HasLock
  rw [h.turnsOf]

theorem holders (h : Still c c') (key : Nat) : c'.holders key = c.holders key := by
  unfold Company.holders
  rw [h.log]

end Still

theorem who_take (j : Nat) : (c.take i wait t).who j = c.who j :=
  who_modify c i _ j

theorem holders_take (key : Nat) : (c.take i wait t).holders key =
    c.holders key ++ if wait.isLockOf key then [i] else [] := by
  show ((c.log ++ [_]).filter _).map _ = _
  rw [List.filter_append, List.map_append]
  cases hw : wait.isLockOf key <;> simp [holders, hw]

theorem took_take_of_ne (hj : j ≠ i) (key : Nat) : (c.take i wait t).Took key j ↔ c.Took key j := by
  unfold Took
  rw [hasLock_take_of_ne hj, turnsOf_take_of_ne hj, who_take]

theorem took_iff {f : Refresh ε} (hf : c.refreshes[i]? = some f) (key : Nat) :
    c.Took key i ↔ c.HasLock i ∧ ∃ r, Registry.FoundAs f.wallet key r (c.turnsOf i) := by
  unfold Took who
  rw [hf]
  refine and_congr_right fun _ => ?_
  constructor
  · rintro ⟨_, _, r, heq, hfound⟩
    cases heq
    exact ⟨r, hfound⟩
  · rintro ⟨r, hfound⟩
    exact ⟨_, _, r, rfl, hfound⟩

theorem took_take_self {f : Refresh ε} (hf : c.refreshes[i]? = some f) (key : Nat) :
    (c.take i wait t).Took key i ↔
      3 ≤ (c.turnsOf i).length ∧ ∃ r, Registry.FoundAs f.wallet key r (c.turnsOf i) := by
  have hf' : (c.take i wait t).refreshes[i]? = some { f with progress := .after t } := by
    refine (getElem?_modify c i _ i).trans ?_
    simp [hf]
  rw [took_iff hf', hasLock_take_self, turnsOf_take_self]
  refine and_congr_right fun hlength => exists_congr fun r => ?_
  refine Registry.foundAs_concat.trans (or_iff_left fun h => ?_)
  omega

variable [Engine ε]

/-- Somebody has a turn, or nobody does. -/
theorem Kept.perform_cases (hk : c.Kept) (a : Act ε) :
    (∃ i wait t, c.turn? i = some (wait, t) ∧ c.perform a = c.take i wait t) ∨
      Still c (c.perform a) := by
  have hrefl : Still c c := ⟨rfl, Nat.le_refl _, fun _ _ => rfl, fun _ _ _ h => h, fun _ => rfl,
    fun _ _ => rfl⟩
  cases a with
  | begin ticket w =>
    refine Or.inr ?_
    unfold Company.perform
    dsimp only
    split
    · exact hrefl
    · refine ⟨rfl, ?_, fun i hi => ?_, fun key i tk hq => (hk.queues_new _ key i tk).mp hq,
        fun _ => rfl, fun i hi => ?_⟩
      · rw [List.length_append]
        exact Nat.le_add_right _ _
      · unfold Company.who
        rw [List.getElem?_append_left hi]
      · unfold Company.picture?
        rw [List.getElem?_append_left hi]
  | go i =>
    unfold Company.perform
    dsimp only
    split
    · next wait t h => exact Or.inl ⟨i, wait, t, h, rfl⟩
    · exact Or.inr hrefl
  | giveUp i =>
    refine Or.inr ?_
    unfold Company.perform
    dsimp only
    split
    · next f hf =>
      split
      · next hway =>
        refine ⟨rfl, Nat.le_of_eq (List.length_modify _ _ _).symm, fun j _ => who_modify c i _ j,
          fun key j tk hq => ((queues_abandoned _ key j tk).mp hq).1,
          fun key => Registry.picture_leave key, fun j _ => ?_⟩
        refine (picture?_modify hf _ j).trans ?_
        by_cases hj : i = j
        · -- it had no picture before
          subst hj
          rw [if_pos rfl, picture?_of_isUnderWay hf hway]
          rfl
        · rw [if_neg hj]
      · exact hrefl
    · exact hrefl
  | engines engines =>
    exact Or.inr ⟨rfl, Nat.le_refl _, fun _ _ => rfl, fun _ _ _ h => h, fun _ => rfl, fun _ _ => rfl⟩
  | register w access =>
    refine Or.inr ?_
    unfold Company.perform
    dsimp only
    split
    · exact hrefl
    · exact ⟨rfl, Nat.le_refl _, fun _ _ => rfl, fun _ _ _ h => h, Registry.picture_add w access,
        fun _ _ => rfl⟩
  | remove w =>
    exact Or.inr ⟨rfl, Nat.le_refl _, fun _ _ => rfl, fun _ _ _ h => h, fun _ => rfl, fun _ _ => rfl⟩

/-! ## Who takes the lock -/

theorem Kept.lt_of_hasLock (hk : c.Kept) (h : c.HasLock i) : i < c.refreshes.length := by
  unfold HasLock turnsOf at h
  rw [List.length_map] at h
  have hne : c.log.filter (·.1 = i) ≠ [] := fun hnil => by
    rw [hnil] at h
    exact absurd h (Nat.not_succ_le_zero 3)
  obtain ⟨e, he⟩ := List.exists_mem_of_ne_nil _ hne
  obtain ⟨hmem, heq⟩ := List.mem_filter.mp he
  have hlt := hk.known e hmem
  rwa [of_decide_eq_true heq] at hlt

theorem Kept.took_still (hk : c.Kept) (h : Still c c') (key i : Nat) :
    c'.Took key i ↔ c.Took key i := by
  unfold Took
  rw [h.hasLock, h.turnsOf]
  refine and_congr_right fun hlock => ?_
  rw [h.who i (hk.lt_of_hasLock hlock)]

/-- A refresh waits for a lock before its fourth turn, and only then. -/
theorem Kept.isLockOf_iff {f : Refresh ε} (hk : c.Kept) (h : c.turn? i = some (wait, t))
    (hf : c.refreshes[i]? = some f) (key : Nat) : wait.isLockOf key ↔
      (c.turnsOf i).length = 3 ∧ ∃ r, Registry.FoundAs f.wallet key r (c.turnsOf i) := by
  obtain ⟨f', hf', -, -, hawaits, -⟩ := hk.turn h
  cases hf.symm.trans hf'
  cases hawaits with
  | start | look | room => exact iff_of_false Bool.false_ne_true (by omega)
  | @lock key' _ h₃ hfound' =>
    constructor
    · intro hkey
      obtain rfl : key' = key := of_decide_eq_true hkey
      exact ⟨h₃, _, hfound'⟩
    · rintro ⟨-, r, hfound⟩
      exact decide_eq_true (Registry.foundAs_unique hfound' hfound).1
  | call h₄ _ hcall =>
    refine iff_of_false ?_ (by omega)
    cases wait with
    | lock => exact hcall.elim
    | _ => exact Bool.false_ne_true

structure Held (c : Company ε) : Prop where
  holder : ∀ key i, i ∈ c.holders key ↔ c.Took key i
  once : ∀ key, (c.holders key).Nodup
  last : ∀ key i ticket, c.Queues key i ticket → c.HasLock i → (c.holders key).getLast? = some i

/-- Whoever has a turn under the lock was the last to take it. -/
theorem Held.last_of_turn {f : Refresh ε} {key : Nat} {r : Registration} (hh : c.Held) (hk : c.Kept)
    (h : c.turn? i = some (wait, t)) (hf : c.refreshes[i]? = some f)
    (hlength : 3 ≤ (c.turnsOf i).length) (hfound : Registry.FoundAs f.wallet key r (c.turnsOf i)) :
    ((c.take i wait t).holders key).getLast? = some i := by
  obtain ⟨f', hf', hway, -⟩ := hk.turn h
  cases hf.symm.trans hf'
  rw [holders_take]
  by_cases hlock : wait.isLockOf key
  · rw [if_pos hlock, List.getLast?_concat]
  · have hne : (c.turnsOf i).length ≠ 3 := fun h₃ =>
      hlock ((hk.isLockOf_iff h hf key).mpr ⟨h₃, r, hfound⟩)
    rw [if_neg hlock, List.append_nil]
    refine hh.last key i f.ticket ⟨f, r, hf, hway, rfl, hlength, hfound⟩ ?_
    unfold HasLock
    omega

theorem Held.take (hh : c.Held) (hk : c.Kept) (h : c.turn? i = some (wait, t)) :
    (c.take i wait t).Held := by
  obtain ⟨f, hf, hway, -⟩ := hk.turn h
  have hlock := hk.isLockOf_iff h hf
  have hnew : ∀ key, wait.isLockOf key → i ∉ c.holders key := fun key hw hmem => by
    obtain ⟨h₃, -⟩ := (hlock key).mp hw
    have h₄ : 4 ≤ (c.turnsOf i).length := ((hh.holder key i).mp hmem).1
    omega
  constructor
  · intro key j
    rw [holders_take, List.mem_append, hh.holder]
    by_cases hj : j = i
    · subst hj
      rw [took_take_self hf, took_iff hf]
      constructor
      · rintro (⟨h₄, hfound⟩ | hmem)
        · exact ⟨Nat.le_of_succ_le h₄, hfound⟩
        · by_cases hw : wait.isLockOf key
          · obtain ⟨h₃, hfound⟩ := (hlock key).mp hw
            exact ⟨Nat.le_of_eq h₃.symm, hfound⟩
          · rw [if_neg hw] at hmem
            cases hmem
      · rintro ⟨hle, hfound⟩
        rcases Nat.lt_or_eq_of_le hle with h₄ | h₃
        · exact Or.inl ⟨h₄, hfound⟩
        · rw [if_pos ((hlock key).mpr ⟨h₃.symm, hfound⟩)]
          exact Or.inr (List.mem_singleton_self j)
    · rw [took_take_of_ne hj]
      refine or_iff_left fun hmem => ?_
      by_cases hw : wait.isLockOf key
      · rw [if_pos hw] at hmem
        exact hj (List.mem_singleton.mp hmem)
      · rw [if_neg hw] at hmem
        cases hmem
  · intro key
    rw [holders_take]
    by_cases hw : wait.isLockOf key
    · rw [if_pos hw, List.nodup_append]
      refine ⟨hh.once key, by simp, fun j hj i' hi' heq => ?_⟩
      obtain rfl := List.mem_singleton.mp hi'
      exact hnew key hw (heq ▸ hj)
    · rw [if_neg hw, List.append_nil]
      exact hh.once key
  · intro key j ticket hq hl
    by_cases hj : j = i
    · subst hj
      obtain ⟨-, -, -, r, hfound⟩ := (queues_take_self hf key ticket).mp hq
      exact hh.last_of_turn hk h hf (hasLock_take_self.mp hl) hfound
    · have hq := (queues_take_of_ne hj key ticket).mp hq
      have hl := (hasLock_take_of_ne hj).mp hl
      have hw : ¬wait.isLockOf key := fun hw => by
        -- nobody takes the lock while somebody else has it
        obtain ⟨h₃, r, hfound⟩ := (hlock key).mp hw
        have hhead := hk.first_of_turn h hf (Nat.le_of_eq h₃.symm) hfound
        rw [hk.queued.first key j ticket hq hl] at hhead
        exact hj ((hk.ticket_iff hf hway hq).mp (Option.some.inj hhead))
      rw [holders_take, if_neg hw, List.append_nil]
      exact hh.last key j ticket hq hl

theorem Held.still (hh : c.Held) (hk : c.Kept) (h : Still c c') : c'.Held where
  holder key i := by
    rw [h.holders, hh.holder, hk.took_still h]
  once key := by
    rw [h.holders]
    exact hh.once key
  last key i ticket hq hl := by
    rw [h.holders]
    exact hh.last key i ticket (h.queues key i ticket hq) (h.hasLock.mp hl)

/-! ## What is shown -/

omit [Engine ε] in
theorem picture?_take {f : Refresh ε} (hf : c.refreshes[i]? = some f) (j : Nat) :
    (c.take i wait t).picture? j =
      if i = j then (Progress.after t).picture? else c.picture? j :=
  picture?_modify hf _ j

omit [Engine ε] in
/-- Only a success adds a picture. -/
theorem pictures_take_of_none {f : Refresh ε} (hf : c.refreshes[i]? = some f) (hway : f.isUnderWay)
    (hnone : (Progress.after t).picture? = none) (key : Nat) :
    (c.take i wait t).pictures key = c.pictures key := by
  have hsame : (c.take i wait t).picture? = c.picture? := by
    funext j
    rw [picture?_take hf]
    by_cases hj : i = j
    · rw [if_pos hj, hnone, ← hj, picture?_of_isUnderWay hf hway]
    · rw [if_neg hj]
  unfold pictures
  rw [hsame, holders_take, List.filterMap_append]
  by_cases hw : wait.isLockOf key
  · rw [if_pos hw, List.filterMap_cons_none (picture?_of_isUnderWay hf hway)]
    simp
  · rw [if_neg hw]
    simp

omit [Engine ε] in
theorem getLast?_filterMap {α β : Type} {f : α → Option β} {l : List α} {a : α} {b : β}
    (h : l.getLast? = some a) (hf : f a = some b) : (l.filterMap f).getLast? = some b := by
  obtain ⟨pre, rfl⟩ := List.getLast?_eq_some_iff.mp h
  rw [List.filterMap_append, List.filterMap_cons_some hf, List.filterMap_nil, List.getLast?_concat]

/-- The picture of every registration is that of its last success. -/
def Shown (c : Company ε) : Prop :=
  ∀ key, c.registry.picture key = (c.pictures key).getLast?

theorem Kept.shown_still (hk : c.Kept) (hh : c.Held) (h : Still c c') (hs : c.Shown) : c'.Shown := by
  intro key
  have hsame : c'.pictures key = c.pictures key := by
    unfold pictures
    rw [h.holders]
    refine List.filterMap_congr fun i hi => ?_
    exact h.picture? i (hk.lt_of_hasLock ((hh.holder key i).mp hi).1)
  rw [h.pictures, hsame, hs key]

theorem Kept.shown_take (hk : c.Kept) (hh : c.Held) (h : c.turn? i = some (wait, t))
    (hs : c.Shown) : (c.take i wait t).Shown := by
  obtain ⟨f, hf, hway, -, -, hcourse⟩ := hk.turn h
  have hdeed := Registry.refresh_turn hcourse
  -- whatever is no success puts nothing up
  have hquiet : (Progress.after t).picture? = none →
      (∀ key, t.state.picture key = c.registry.picture key) → (c.take i wait t).Shown := by
    intro hnone hpicture key
    rw [pictures_take_of_none hf hway hnone, ← hs key]
    exact hpicture key
  generalize hstate : t.state = s at hcourse hdeed hquiet
  cases hdeed with
  | begins _ hleft | misses _ hleft | finds _ hleft =>
    have hleft : s = c.registry := hleft
    exact hquiet rfl fun key => by rw [hleft]
  | linesUp _ _ hleft =>
    have hleft : s = c.registry.lineUp _ f.ticket := hleft
    exact hquiet rfl fun key => by rw [hleft, Registry.picture_lineUp]
  | asks _ _ he => exact hquiet rfl he.picture
  | @fails _ _ s' _ _ _ he hleft =>
    have hleft : s = s'.leave f.ticket := hleft
    exact hquiet rfl fun key => by rw [hleft, Registry.picture_leave, he.picture]
  | @succeeds key _ p hlength hfound hleft =>
    have hleft : s = (c.registry.putUp key p).leave f.ticket := hleft
    intro k
    have hpicture : s.picture k = if k = key then some p else c.registry.picture k := by
      rw [hleft, Registry.picture_leave, Registry.picture_putUp (hk.found i f _ _ hf hfound)]
    refine hpicture.trans ?_
    by_cases hkey : k = key
    · subst hkey
      rw [if_pos rfl]
      refine (getLast?_filterMap (hh.last_of_turn hk h hf hlength hfound) ?_).symm
      rw [picture?_take hf, if_pos rfl]
      rfl
    · -- the refresh has nothing to do with other registrations
      have hother : ∀ r, ¬Registry.FoundAs f.wallet k r (c.turnsOf i) := fun r hr =>
        hkey (Registry.foundAs_unique hr hfound).1
      have hw : ¬wait.isLockOf k := fun hw => by
        obtain ⟨-, r, hr⟩ := (hk.isLockOf_iff h hf k).mp hw
        exact hother r hr
      rw [if_neg hkey, hs k]
      unfold pictures
      rw [holders_take, if_neg hw, List.append_nil]
      congr 1
      refine List.filterMap_congr fun j hj => ?_
      rw [picture?_take hf, if_neg]
      rintro rfl
      obtain ⟨-, r, hr⟩ := (took_iff hf k).mp ((hh.holder k i).mp hj)
      exact hother r hr

/-! ## Who has his turns before whom -/

omit [Engine ε] in
theorem Before.take (h : c.Before j i') (hj : j ≠ i) : (c.take i wait t).Before j i' := by
  obtain ⟨pre, post, hlog, hpost, hpre⟩ := h
  refine ⟨pre, post ++ [(i, ⟨wait, c.registry, t.state⟩)], ?_, fun e he => ?_, hpre⟩
  · show c.log ++ [_] = _
    rw [hlog, List.append_assoc]
  · rcases List.mem_append.mp he with he | he
    · exact hpost e he
    · obtain rfl := List.mem_singleton.mp he
      exact hj.symm

omit [Engine ε] in
/-- What the other one had beyond lining up came later. -/
theorem Before.pairwise {R : Registry ε → Registry ε → Prop} (h : c.Before i j)
    (hR : (c.log.map (·.2.found)).Pairwise R) {a b : Turn Wait (Registry ε)}
    (ha : a ∈ c.turnsOf i) (hb : b ∈ (c.turnsOf j).drop 3) : R a.found b.found := by
  obtain ⟨pre, post, hlog, hpost, hpre⟩ := h
  rw [hlog, List.map_append, List.pairwise_append] at hR
  unfold turnsOf at ha hb
  rw [hlog, List.filter_append, List.map_append] at ha hb
  have ha : a ∈ (pre.filter (·.1 = i)).map (·.2) := by
    rcases List.mem_append.mp ha with ha | ha
    · exact ha
    · obtain ⟨e, he, -⟩ := List.mem_map.mp ha
      obtain ⟨he, heq⟩ := List.mem_filter.mp he
      exact absurd (of_decide_eq_true heq) (hpost e he)
  have hb : b ∈ (post.filter (·.1 = j)).map (·.2) := by
    rw [List.drop_append, List.drop_of_length_le (by rwa [List.length_map]), List.nil_append] at hb
    exact List.mem_of_mem_drop hb
  obtain ⟨e, he, rfl⟩ := List.mem_map.mp ha
  obtain ⟨d, hd, rfl⟩ := List.mem_map.mp hb
  exact hR.2.2 _ (List.mem_map_of_mem (List.mem_filter.mp he).1) _
    (List.mem_map_of_mem (List.mem_filter.mp hd).1)

/-- Whoever took a lock earlier had all his turns before the later ones had theirs. -/
def Ordered (c : Company ε) : Prop :=
  ∀ key, (c.holders key).Pairwise c.Before

omit [Engine ε] in
theorem Ordered.still (ho : c.Ordered) (h : Still c c') : c'.Ordered := by
  intro key
  rw [h.holders]
  refine (ho key).imp fun hbefore => ?_
  unfold Before
  rwa [h.log]

theorem Ordered.take (ho : c.Ordered) (hk : c.Kept) (hh : c.Held) (h : c.turn? i = some (wait, t)) :
    (c.take i wait t).Ordered := by
  obtain ⟨f, hf, hway, -⟩ := hk.turn h
  intro key
  have hbefore : ∀ l : List Nat, i ∉ l → l.Pairwise c.Before → l.Pairwise (c.take i wait t).Before :=
    fun l hl hp => hp.imp_of_mem fun {j j'} hj _ hjj' => hjj'.take fun heq => hl (heq ▸ hj)
  by_cases hlock : wait.isLockOf key
  · obtain ⟨h₃, r, hfound⟩ := (hk.isLockOf_iff h hf key).mp hlock
    have hnew : i ∉ c.holders key := fun hmem => by
      have h₄ : 4 ≤ (c.turnsOf i).length := ((hh.holder key i).mp hmem).1
      omega
    rw [holders_take, if_pos hlock, List.pairwise_append]
    refine ⟨hbefore _ hnew (ho key), List.pairwise_singleton _ _, fun j hj j' hj' => ?_⟩
    obtain rfl := List.mem_singleton.mp hj'
    -- up to now nobody else has had a turn under the lock
    refine ⟨c.log, [(j', _)], rfl, fun e he => ?_, ?_⟩
    · obtain rfl := List.mem_singleton.mp he
      rintro rfl
      exact hnew hj
    · rw [← List.length_map (·.2)]
      exact Nat.le_of_eq h₃
  · have hsame : (c.take i wait t).holders key = c.holders key := by
      rw [holders_take, if_neg hlock, List.append_nil]
    rw [hsame]
    by_cases hmem : i ∈ c.holders key
    · -- whoever has the lock was the last to take it, so he is before nobody
      obtain ⟨h₄, r, hfound⟩ := (took_iff hf key).mp ((hh.holder key i).mp hmem)
      have hlast := hh.last_of_turn hk h hf (Nat.le_of_succ_le h₄) hfound
      rw [hsame] at hlast
      obtain ⟨pre, hpre⟩ := List.getLast?_eq_some_iff.mp hlast
      have hnodup := hh.once key
      have hordered := ho key
      rw [hpre] at hnodup hordered ⊢
      obtain ⟨-, -, hne⟩ := List.nodup_append.mp hnodup
      have hi : i ∉ pre := fun hi => hne i hi i (List.mem_singleton_self i) rfl
      obtain ⟨hp, -, hpi⟩ := List.pairwise_append.mp hordered
      refine List.pairwise_append.mpr ⟨hbefore pre hi hp, List.pairwise_singleton _ _, ?_⟩
      intro j hj j' hj'
      exact (hpi j hj j' hj').take fun heq => hi (heq ▸ hj)
    · exact hbefore _ hmem (ho key)

/-! ## When engines are asked -/

/-- No engine is asked before the lock is taken. -/
structure Patient (c : Company ε) : Prop where
  asksNobody : ∀ i, ∀ τ ∈ (c.turnsOf i).take 3, τ.AsksNobody
  took : ∀ i, c.HasLock i → ∃ key, c.Took key i

theorem Patient.still (hp : c.Patient) (hk : c.Kept) (h : Still c c') : c'.Patient where
  asksNobody i := by
    rw [h.turnsOf]
    exact hp.asksNobody i
  took i hlock := by
    obtain ⟨key, htook⟩ := hp.took i (h.hasLock.mp hlock)
    exact ⟨key, (hk.took_still h key i).mpr htook⟩

/-- Up to the third turn nothing is waited for but an answer that is there, a look and room. -/
theorem Kept.asksNobody (hk : c.Kept) (h : c.turn? i = some (wait, t))
    (hlength : (c.turnsOf i).length < 3) :
    Turn.AsksNobody (⟨wait, c.registry, t.state⟩ : Turn Wait (Registry ε)) := by
  obtain ⟨f, hf, -, -, hawaits, hcourse⟩ := hk.turn h
  constructor
  · generalize hstate : t.state = s at hcourse
    have hengines : s.engines = c.registry.engines := by
      cases Registry.refresh_turn hcourse with
      | begins _ hleft | misses _ hleft | finds _ hleft => exact congrArg (·.engines) hleft
      | linesUp _ _ hleft => exact congrArg (·.engines) hleft
      | asks h | fails h | succeeds h => omega
    exact hengines
  · intro n call heq
    obtain rfl : wait = .admission n call := heq
    cases hawaits with
    | call h₄ => omega

theorem Patient.take (hp : c.Patient) (hk : c.Kept) (h : c.turn? i = some (wait, t)) :
    (c.take i wait t).Patient := by
  obtain ⟨f, hf, -, -, -, hcourse⟩ := hk.turn h
  constructor
  · intro j τ hτ
    by_cases hj : j = i
    · subst hj
      rw [turnsOf_take_self, List.take_append] at hτ
      rcases List.mem_append.mp hτ with hτ | hτ
      · exact hp.asksNobody j τ hτ
      · by_cases hlength : (c.turnsOf j).length < 3
        · obtain rfl := List.mem_singleton.mp (List.mem_of_mem_take hτ)
          exact hk.asksNobody h hlength
        · rw [Nat.sub_eq_zero_of_le (by omega), List.take_zero] at hτ
          cases hτ
    · rw [turnsOf_take_of_ne hj] at hτ
      exact hp.asksNobody j τ hτ
  · intro j hlock
    by_cases hj : j = i
    · subst hj
      have h₃ := hasLock_take_self.mp hlock
      suffices ∃ key r, Registry.FoundAs f.wallet key r (c.turnsOf j) by
        obtain ⟨key, r, hfound⟩ := this
        exact ⟨key, (took_take_self hf key).mpr ⟨h₃, r, hfound⟩⟩
      generalize t.state = s at hcourse
      cases Registry.refresh_turn hcourse with
      | begins h | misses h | finds h | linesUp h => omega
      | asks _ hfound | fails _ hfound | succeeds _ hfound => exact ⟨_, _, hfound⟩
    · obtain ⟨key, htook⟩ := hp.took j ((hasLock_take_of_ne hj).mp hlock)
      exact ⟨key, (took_take_of_ne hj key).mpr htook⟩

/-! ## Heights -/

/-- The engine tells no greater height in the one state than in the other. -/
def Rises (a : Access) (s s' : Registry ε) : Prop :=
  ∀ l l', Registry.Told a.engine (.accounts a.scope) l s →
    Registry.Told a.engine (.accounts a.scope) l' s' → l.blockHeight ≤ l'.blockHeight

/-- A picture has a height that the engine told while the refresh had the lock. -/
theorem Kept.toldHeight (hk : c.Kept) {key : Nat} {a : Access} {p : Accounts}
    (ha : c.registry.access? key = some a) (htook : c.Took key i) (hp : c.picture? i = some p) :
    ∃ τ ∈ (c.turnsOf i).drop 3, Registry.ToldHeight a p.blockHeight τ.found := by
  obtain ⟨f, hf, hprogress⟩ := Option.bind_eq_some_iff.mp hp
  have hended : f.progress = .ended (.ok p) := by
    unfold Progress.picture? at hprogress
    split at hprogress
    · cases hprogress
      assumption
    all_goals cases hprogress
  obtain ⟨-, r, hfound⟩ := (took_iff hf key).mp htook
  have hregistered := hk.found i f key r hf hfound
  have htracks := hk.tracked i f hf
  rw [hended] at htracks
  generalize c.turnsOf i = ts at htracks hfound ⊢
  cases htracks with
  | ended hcourse =>
    obtain ⟨ts, τ, rfl⟩ := (List.eq_nil_or_concat' ts).resolve_left hcourse.ne_nil
    generalize ht : Turns.done _ _ = t at hcourse
    cases Registry.refresh_turn hcourse with
    | begins | finds | linesUp | asks => cases ht
    | misses | fails => cases ht
    | succeeds h hfound' _ htold =>
      cases ht
      obtain ⟨rfl, rfl⟩ := Registry.foundAs_unique hfound (hfound'.append _)
      obtain rfl := Option.some.inj (ha.symm.trans hregistered)
      obtain ⟨τ', hτ', htold⟩ := htold
      refine ⟨τ', ?_, htold⟩
      rw [List.drop_append]
      exact List.mem_append_left _ (List.mem_of_mem_drop (i := 1) (by rwa [List.drop_drop]))

/-- The pictures of a registration rise as far as its engine does. -/
theorem Kept.pictures_rise (hk : c.Kept) (hh : c.Held) (ho : c.Ordered) {key : Nat} {a : Access}
    (ha : c.registry.access? key = some a)
    (hrise : (c.log.map (·.2.found)).Pairwise (Rises a)) :
    (c.pictures key).Pairwise (·.blockHeight ≤ ·.blockHeight) := by
  unfold pictures
  refine List.pairwise_filterMap.mpr ((ho key).imp_of_mem fun {i j} hi hj hbefore p hp q hq => ?_)
  obtain ⟨τ, hτ, l, hl, hpl⟩ := hk.toldHeight ha ((hh.holder key i).mp hi) hp
  obtain ⟨τ', hτ', l', hl', hql⟩ := hk.toldHeight ha ((hh.holder key j).mp hj) hq
  have hle := hbefore.pairwise hrise (List.mem_of_mem_drop hτ) hτ' l l' hl hl'
  rwa [← hpl, ← hql] at hle

/-! ## As time goes by -/

/-- What has happened has happened. -/
structure Extends (c c' : Company ε) : Prop where
  log : c.log <+: c'.log
  who : ∀ i < c.refreshes.length, c'.who i = c.who i
  length : c.refreshes.length ≤ c'.refreshes.length
  picture? : ∀ i < c.refreshes.length, ∀ p, c.picture? i = some p → c'.picture? i = some p

namespace Extends

omit [Engine ε]

theorem refl (c : Company ε) : Extends c c :=
  ⟨List.prefix_refl _, fun _ _ => rfl, Nat.le_refl _, fun _ _ _ h => h⟩

theorem trans {c'' : Company ε} (h : Extends c c') (h' : Extends c' c'') : Extends c c'' where
  log := h.log.trans h'.log
  who i hi := (h'.who i (Nat.lt_of_lt_of_le hi h.length)).trans (h.who i hi)
  length := Nat.le_trans h.length h'.length
  picture? i hi p hp := h'.picture? i (Nat.lt_of_lt_of_le hi h.length) p (h.picture? i hi p hp)

theorem holders (h : Extends c c') (key : Nat) : c.holders key <+: c'.holders key :=
  (h.log.filter _).map _

theorem turnsOf (h : Extends c c') (i : Nat) : c.turnsOf i <+: c'.turnsOf i :=
  (h.log.filter _).map _

end Extends

theorem Kept.extends_perform (hk : c.Kept) (a : Act ε) : Extends c (c.perform a) := by
  rcases hk.perform_cases a with ⟨i, wait, t, h, heq⟩ | h
  · obtain ⟨f, hf, hway, -⟩ := hk.turn h
    rw [heq]
    refine ⟨List.prefix_append _ _, fun j _ => who_take j, ?_, fun j _ p hp => ?_⟩
    · exact Nat.le_of_eq (List.length_modify _ _ _).symm
    · rw [picture?_take hf, if_neg, hp]
      -- whoever has a picture has no more turns
      rintro rfl
      rw [picture?_of_isUnderWay hf hway] at hp
      cases hp
  · exact ⟨h.log ▸ List.prefix_refl _, h.who, h.length, fun j hj p hp => (h.picture? j hj).trans hp⟩

theorem Kept.extends_after (hk : c.Kept) (acts : List (Act ε)) : Extends c (c.after acts) := by
  induction acts generalizing c with
  | nil => exact .refl c
  | cons a acts ih => exact (hk.extends_perform a).trans (ih (hk.perform a))

/-- Whoever has looked his wallet up takes no lock of a later registration. -/
theorem Held.not_mem_later {key : Nat} (hh : c'.Held) (hk : c.Kept) (he : Extends c c')
    (hlength : 2 ≤ (c.turnsOf i).length) (hkey : c.registry.registrations.length ≤ key) :
    i ∉ c'.holders key := by
  intro hmem
  obtain ⟨-, ticket, w, r, hwho, τ, hτ, hfind⟩ := (hh.holder key i).mp hmem
  have hlt : i < c.refreshes.length := by
    obtain ⟨τ₀, hτ₀⟩ := List.exists_mem_of_length_pos (Nat.lt_of_lt_of_le Nat.two_pos hlength)
    obtain ⟨e, he₀, -⟩ := List.mem_map.mp hτ₀
    obtain ⟨he₀, heq⟩ := List.mem_filter.mp he₀
    exact of_decide_eq_true heq ▸ hk.known e he₀
  have hturn : (c.turnsOf i)[1]? = some τ := by
    obtain ⟨ts, hts⟩ := he.turnsOf i
    rwa [← hts, List.getElem?_append_left hlength] at hτ
  -- what it has found was there already
  obtain ⟨f, hf, hw⟩ := Option.map_eq_some_iff.mp ((he.who i hlt).symm.trans hwho)
  obtain ⟨-, rfl⟩ := Prod.mk.inj hw
  obtain ⟨_, hr, -⟩ := Option.map_eq_some_iff.mp (hk.found i f key r hf ⟨τ, hturn, hfind⟩)
  obtain ⟨hlt, -⟩ := List.getElem?_eq_some_iff.mp hr
  omega

/-- A picture is followed by none that is lower, as far as the engine rises. -/
theorem Kept.picture_rises (hk : c.Kept) (hh : c.Held) (hs : c.Shown) (hk' : c'.Kept)
    (hh' : c'.Held) (hs' : c'.Shown) (ho : c'.Ordered) (he : Extends c c') {key : Nat} {a : Access}
    {p : Accounts} (ha : c'.registry.access? key = some a)
    (hrise : (c'.log.map (·.2.found)).Pairwise (Rises a))
    (hp : c.registry.picture key = some p) :
    ∃ p', c'.registry.picture key = some p' ∧ p.blockHeight ≤ p'.blockHeight := by
  have hpairs := hk'.pictures_rise hh' ho ha hrise
  have hmem : p ∈ c'.pictures key := by
    have hmem := List.mem_of_getLast? ((hs key).symm.trans hp)
    obtain ⟨i, hi, hpi⟩ := List.mem_filterMap.mp hmem
    have hlt := hk.lt_of_hasLock ((hh.holder key i).mp hi).1
    exact List.mem_filterMap.mpr ⟨i, (he.holders key).subset hi, he.picture? i hlt p hpi⟩
  rw [hs' key]
  cases hlast : (c'.pictures key).getLast? with
  | none =>
    rw [List.getLast?_eq_none_iff.mp hlast] at hmem
    cases hmem
  | some p' =>
    refine ⟨p', rfl, ?_⟩
    obtain ⟨pre, hpre⟩ := List.getLast?_eq_some_iff.mp hlast
    rw [hpre] at hpairs hmem
    rcases List.mem_append.mp hmem with hmem | hmem
    · exact (List.pairwise_append.mp hpairs).2.2 p hmem p' (List.mem_singleton_self p')
    · obtain rfl := List.mem_singleton.mp hmem
      exact Int32.le_refl _

/-! ## Refreshes among others -/

/-- What holds of refreshes at a moment, and of what has come of them at a later one. -/
structure Apart (c c' : Company ε) : Prop where
  /-- A refresh asks no engine in its first three turns. -/
  asksNobody : ∀ i, ∀ τ ∈ (c'.turnsOf i).take 3, τ.AsksNobody
  /-- In the fourth it takes a lock. -/
  takesLock : ∀ i, 3 < (c'.turnsOf i).length → ∃ key, i ∈ c'.holders key
  /-- The lock is that of the registration that it found when it looked its wallet up. -/
  found : ∀ key i, i ∈ c'.holders key → ∃ f r, c'.refreshes[i]? = some f ∧
    Registry.FoundAs f.wallet key r (c'.turnsOf i)
  /-- Whoever took the lock before has had his last turn by then. -/
  ordered : ∀ key, (c'.holders key).Nodup ∧ (c'.holders key).Pairwise c'.Before
  /-- A registration's picture is that of the success which took its lock last. -/
  shown : ∀ key, c'.registry.picture key = (c'.pictures key).getLast?
  /-- It is what those see who read the accounts of the wallet. -/
  seen : ∀ w, c'.registry.snapshot? w =
    (c'.registry.key? w).bind fun key => (c'.pictures key).getLast?
  /-- If the engine's heights do not fall, neither do those of the pictures. -/
  rises : ∀ key a, c'.registry.access? key = some a →
    (c'.log.map (·.2.found)).Pairwise (Rises a) →
    (c'.pictures key).Pairwise (·.blockHeight ≤ ·.blockHeight) ∧
    ∀ p, c.registry.picture key = some p →
      ∃ p', c'.registry.picture key = some p' ∧ p.blockHeight ≤ p'.blockHeight
  /-- A refresh that had looked its wallet up has no part in registrations made since. One
  that had not is a refresh of the registration that it will find. -/
  later : ∀ i key, 2 ≤ (c.turnsOf i).length → c.registry.registrations.length ≤ key →
    i ∉ c'.holders key

/-- What all acts keep besides. -/
structure InOrder (c : Company ε) : Prop where
  held : c.Held
  shown : c.Shown
  ordered : c.Ordered
  patient : c.Patient

omit [Engine ε] in
theorem inOrder_new (config : Config) : InOrder ({ registry := { config } } : Company ε) where
  held :=
    { holder := fun _ _ => iff_of_false List.not_mem_nil fun h => absurd h.1 (Nat.not_succ_le_zero 3)
      once := fun _ => List.nodup_nil
      last := fun _ _ _ _ h => absurd h (Nat.not_succ_le_zero 3) }
  shown _ := rfl
  ordered _ := List.Pairwise.nil
  patient :=
    { asksNobody := fun _ _ h => nomatch h
      took := fun _ h => absurd h (Nat.not_succ_le_zero 3) }

theorem InOrder.perform (h : c.InOrder) (hk : c.Kept) (a : Act ε) : (c.perform a).InOrder := by
  rcases hk.perform_cases a with ⟨i, wait, t, ht, heq⟩ | hstill
  · rw [heq]
    exact ⟨h.held.take hk ht, hk.shown_take h.held ht h.shown, h.ordered.take hk h.held ht,
      h.patient.take hk ht⟩
  · exact ⟨h.held.still hk hstill, hk.shown_still h.held hstill h.shown, h.ordered.still hstill,
      h.patient.still hk hstill⟩

/-- Whatever happens in whatever order, refreshes do not get in each other's way. -/
theorem refreshes_apart (config : Config) (acts acts' : List (Act ε)) :
    Apart (({ registry := { config } } : Company ε).after acts)
      (({ registry := { config } } : Company ε).after (acts ++ acts')) := by
  obtain ⟨hk, h⟩ := after_induction (inOrder_new config) (fun _ a hk h => h.perform hk a) acts
  obtain ⟨hk', h'⟩ :=
    after_induction (inOrder_new config) (fun _ a hk h => h.perform hk a) (acts ++ acts')
  have he : Extends (({ registry := { config } } : Company ε).after acts)
      (({ registry := { config } } : Company ε).after (acts ++ acts')) := by
    rw [after_append]
    exact hk.extends_after acts'
  constructor
  · exact h'.patient.asksNobody
  · intro i hlock
    obtain ⟨key, htook⟩ := h'.patient.took i hlock
    exact ⟨key, (h'.held.holder key i).mpr htook⟩
  · intro key i hi
    obtain ⟨-, ticket, w, r, hwho, hfound⟩ := (h'.held.holder key i).mp hi
    obtain ⟨f, hf, hw⟩ := Option.map_eq_some_iff.mp hwho
    obtain ⟨-, rfl⟩ := Prod.mk.inj hw
    exact ⟨f, r, hf, hfound⟩
  · exact fun key => ⟨h'.held.once key, h'.ordered key⟩
  · exact h'.shown
  · intro w
    rw [Registry.snapshot?_eq_picture]
    exact congrArg _ (funext h'.shown)
  · intro key a ha hrise
    refine ⟨hk'.pictures_rise h'.held h'.ordered ha hrise, fun p hp => ?_⟩
    exact hk.picture_rises h.held h.shown hk' h'.held h'.shown h'.ordered he ha hrise hp
  · intro i key hlength hkey
    exact h'.held.not_mem_later hk he hlength hkey

/-! A refresh overtakes another one on the way to the lock; then the wallet is removed and
loaded anew while the engine goes on. -/

namespace Sample

def engine (height : Int32) : InMemoryEngine where
  asset := .btc
  blockHash := default
  blockHeight := height

def acts : List (Act InMemoryEngine) :=
  [.engines [engine 5], .register 7 ⟨0, .btc, .mainnet⟩, .begin 10 7, .begin 11 7, .go 0, .go 0] ++
    List.replicate 3 (.go 1) ++ [.go 0, .go 0, .remove 7, .register 7 ⟨0, .btc, .mainnet⟩] ++
    List.replicate 5 (.go 1) ++ [.engines [engine 6]] ++ List.replicate 5 (.go 0)

example :
    let c := ({ registry := { config := {} } } : Company InMemoryEngine).after acts
    c.holders 0 = [1, 0] ∧ (c.pictures 0).map (·.blockHeight) = [5, 6] ∧
      c.registry.key? 7 = some 1 ∧ c.holders 1 = [] ∧ c.registry.snapshot? 7 = none :=
  ⟨by rfl, by rfl, by rfl, by rfl, by rfl⟩

end Sample

end Purse.Company
