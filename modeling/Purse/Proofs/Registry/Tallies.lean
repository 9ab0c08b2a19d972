import Purse.Proofs.Registry.Reached
import Purse.Proofs.Registry.Totals

/-!
# Totals by asset

The totals by asset are a list of sums, one for each asset of which there is a wallet
(`lookup_tally`, `inOrder_tally`). They are made of the pictures that a total across all
wallets is made of, and taken in the same order (`totalsByAsset_exec`). So all of them together
are that total (`sum_tally`, `sum_entries`), and they fail where it fails.

That is at the lowest wallet without a picture that cannot be refreshed when its turn comes
(`Gathering.failure_iff`). A refresh may change what an engine answers next, so it may be
another wallet than the lowest that could not be refreshed at first, but not if every wallet
has an engine of its own (`Gathering.failure_alone_iff`). `totals_by_asset` says all this of
the registries that come about.
-/

namespace Purse.Registry

/-! ## Sums by asset -/

/-- The assets stand in their order, no one twice. -/
def InOrder (sums : List (Asset × Nat)) : Prop :=
  (sums.map (·.1)).Pairwise (·.rank < ·.rank)

theorem rank_ne {a b : Asset} (h : a.rank < b.rank) : a ≠ b := by
  rintro rfl
  exact Nat.lt_irrefl _ h

theorem lt_of_rank {a b : Asset} (hne : a ≠ b) (h : ¬a.rank < b.rank) : b.rank < a.rank := by
  cases a <;> cases b <;> simp_all [Asset.rank]

theorem mem_addTotal {a b : Asset} {total : Nat} {sums : List (Asset × Nat)}
    (h : b ∈ (addTotal a total sums).map (·.1)) : b = a ∨ b ∈ sums.map (·.1) := by
  induction sums with
  | nil => simpa [addTotal] using h
  | cons e rest ih =>
    unfold addTotal at h
    split at h
    · exact Or.inr h
    · split at h
      · simpa using h
      · rcases List.mem_cons.mp h with h | h
        · exact Or.inr (h ▸ List.mem_cons_self)
        · exact (ih h).imp id (List.mem_cons_of_mem _)

theorem inOrder_addTotal {sums : List (Asset × Nat)} (h : InOrder sums) (a : Asset) (total : Nat) :
    InOrder (addTotal a total sums) := by
  unfold InOrder at h ⊢
  induction sums with
  | nil => exact List.pairwise_singleton _ _
  | cons e rest ih =>
    obtain ⟨hhead, hrest⟩ := List.pairwise_cons.mp h
    unfold addTotal
    split
    · exact h
    · next hne =>
      split
      · next hlt =>
        refine List.pairwise_cons.mpr ⟨fun b hb => ?_, h⟩
        rcases List.mem_cons.mp hb with rfl | hb
        · exact hlt
        · exact Nat.lt_trans hlt (hhead b hb)
      · next hge =>
        refine List.pairwise_cons.mpr ⟨fun b hb => ?_, ih hrest⟩
        rcases mem_addTotal hb with rfl | hb
        · exact lt_of_rank hne hge
        · exact hhead b hb

theorem lookup_cons_if (a b : Asset) (n : Nat) (sums : List (Asset × Nat)) :
    List.lookup b ((a, n) :: sums) = if b = a then some n else sums.lookup b := by
  rw [List.lookup_cons]
  by_cases hb : b = a
  · rw [if_pos hb, beq_iff_eq.mpr hb]
  · rw [if_neg hb, beq_false_of_ne hb]

/-- A total is added to the sum of its asset and to no other. -/
theorem lookup_addTotal {sums : List (Asset × Nat)} (h : InOrder sums) (a : Asset) (total : Nat)
    (b : Asset) : (addTotal a total sums).lookup b =
      if b = a then some ((sums.lookup a).getD 0 + total) else sums.lookup b := by
  induction sums with
  | nil =>
    show List.lookup b [(a, total)] = _
    rw [lookup_cons_if]
    simp
  | cons e rest ih =>
    obtain ⟨other, sum⟩ := e
    obtain ⟨hhead, hrest⟩ := List.pairwise_cons.mp h
    unfold addTotal
    split
    · next heq =>
      subst heq
      simp only [lookup_cons_if, if_pos, Option.getD_some]
      by_cases hb : b = a <;> simp [hb]
    · next hne =>
      split
      · next hlt =>
        -- the asset comes before all others, so there was no sum of it
        have hnone : ((other, sum) :: rest).lookup a = none := by
          refine Keyed.lookup_eq_none_iff.mpr fun hmem => ?_
          rcases List.mem_cons.mp hmem with heq | hmem
          · exact hne heq
          · exact rank_ne (Nat.lt_trans hlt (hhead a hmem)) rfl
        rw [hnone, lookup_cons_if, Option.getD_none, Nat.zero_add]
      · rw [lookup_cons_if, ih hrest, lookup_cons_if, lookup_cons_if, if_neg hne]
        by_cases hb : b = other
        · rw [if_pos hb, if_pos hb, if_neg (hb ▸ Ne.symm hne)]
        · rw [if_neg hb, if_neg hb]

theorem sum_addTotal (a : Asset) (total : Nat) (sums : List (Asset × Nat)) :
    ((addTotal a total sums).map (·.2)).sum = total + (sums.map (·.2)).sum := by
  induction sums with
  | nil => simp [addTotal]
  | cons e rest ih =>
    unfold addTotal
    split
    · simp only [List.map_cons, List.sum_cons]
      omega
    · split
      · simp only [List.map_cons, List.sum_cons]
      · simp only [List.map_cons, List.sum_cons, ih]
        omega

/-- Amounts of assets, added up by asset on top of sums there already are. -/
def tally (entries sums : List (Asset × Nat)) : List (Asset × Nat) :=
  entries.foldl (fun sums e => addTotal e.1 e.2 sums) sums

theorem inOrder_tally (entries : List (Asset × Nat)) {sums : List (Asset × Nat)} (h : InOrder sums) :
    InOrder (tally entries sums) := by
  unfold tally
  induction entries generalizing sums with
  | nil => exact h
  | cons e entries ih => exact ih (inOrder_addTotal h e.1 e.2)

theorem sum_tally (entries sums : List (Asset × Nat)) :
    ((tally entries sums).map (·.2)).sum = (entries.map (·.2)).sum + (sums.map (·.2)).sum := by
  unfold tally
  induction entries generalizing sums with
  | nil => simp
  | cons e entries ih =>
    rw [List.foldl_cons, ih, sum_addTotal, List.map_cons, List.sum_cons]
    omega

/-- The amounts of one asset. -/
def amountsOf (a : Asset) (entries : List (Asset × Nat)) : List Nat :=
  (entries.filter (·.1 = a)).map (·.2)

/-- There is a sum of an asset if there was one or there are amounts of it, and it is what
they add up to. -/
theorem lookup_tally (entries : List (Asset × Nat)) {sums : List (Asset × Nat)} (h : InOrder sums)
    (a : Asset) : (tally entries sums).lookup a =
      if amountsOf a entries = [] then sums.lookup a
      else some ((sums.lookup a).getD 0 + (amountsOf a entries).sum) := by
  unfold tally
  induction entries generalizing sums with
  | nil => rfl
  | cons e entries ih =>
    rw [List.foldl_cons, ih (inOrder_addTotal h e.1 e.2), lookup_addTotal h]
    by_cases ha : a = e.1
    · subst ha
      have hamounts : amountsOf e.1 (e :: entries) = e.2 :: amountsOf e.1 entries := by
        unfold amountsOf
        rw [List.filter_cons_of_pos (by simp), List.map_cons]
      rw [hamounts, if_pos rfl, if_neg (List.cons_ne_nil _ _), List.sum_cons, Option.getD_some]
      split
      · next hnil => simp [hnil]
      · rw [Nat.add_assoc]
    · have hamounts : amountsOf a (e :: entries) = amountsOf a entries := by
        unfold amountsOf
        rw [List.filter_cons_of_neg (by simpa using Ne.symm ha)]
      rw [hamounts, if_neg ha]

/-! ## Totals of the loaded wallets -/

variable {ε : Type} {s s' : Registry ε} {w : WalletId} {ticket : Nat} {ids : List WalletId}

/-- The asset of a loaded wallet. -/
def assetOf? (s : Registry ε) (w : WalletId) : Option Asset :=
  (s.registration? w).map (·.access.asset)

/-- The loaded wallets of an asset. -/
def walletsOf (s : Registry ε) (a : Asset) : List WalletId :=
  (s.wallets.map (·.1)).filter fun w => s.assetOf? w = some a

theorem SameWallets.assetOf? (h : SameWallets s s') (w : WalletId) :
    s'.assetOf? w = s.assetOf? w := by
  have haccess := congrArg (Option.map Access.asset) (h.accessOf? w)
  rwa [Option.map_map, Option.map_map] at haccess

/-- The totals of wallets with their assets. -/
def entries (s : Registry ε) (ids : List WalletId) : List (Asset × Nat) :=
  ids.filterMap fun w => (s.assetOf? w).map fun a => (a, s.totalOf [w])

theorem entries_cons {a : Asset} (ha : s.assetOf? w = some a) (ids : List WalletId) :
    s.entries (w :: ids) = (a, s.totalOf [w]) :: s.entries ids := by
  unfold entries
  rw [List.filterMap_cons, ha]
  rfl

theorem assetOf?_eq {r : Registration} (h : s.registration? w = some r) :
    s.assetOf? w = some r.access.asset := by
  unfold assetOf?
  rw [h]
  rfl

variable [Engine ε]

/-- The totals of loaded wallets are added up by asset, as their pictures are gathered. -/
theorem addTotals_exec {loads : List (Load ε)} {o : Outcome (List Accounts)}
    (h : Gathering ticket s ids loads o s') (hids : ∀ w ∈ ids, (s.registration? w).isSome)
    (sums : List (Asset × Nat)) :
    (addTotals ticket sums ids).exec s = (o.map fun _ => tally (s'.entries ids) sums, s') := by
  induction h generalizing sums with
  | done s => rfl
  | @shown s s' w p ids loads o hp hrest ih =>
    obtain ⟨r, hr⟩ := Option.isSome_iff_exists.mp (hids w List.mem_cons_self)
    have hexec := accountsOrRefresh_shown hp ticket
    have hasset : s'.assetOf? w = some r.access.asset := by
      rw [hrest.same.assetOf?, assetOf?_eq hr]
    unfold addTotals
    rw [exec_bind_ok (access_exec hr), exec_bind_ok (totalForWallet_exec hexec),
      ih (fun w' hw' => hids w' (List.mem_cons_of_mem _ hw')),
      entries_cons hasset, totalOf_singleton (hrest.kept hp)]
    cases o <;> rfl
  | @loaded s' l p ids loads o hl hgoes hp hrest ih =>
    obtain ⟨r, hr⟩ := Option.isSome_iff_exists.mp (hids l.wallet List.mem_cons_self)
    have hexec := hgoes.answered hl
    rw [hp] at hexec
    have hasset : s'.assetOf? l.wallet = some r.access.asset := by
      rw [hrest.same.assetOf?, hgoes.same.assetOf?, assetOf?_eq hr]
    have hids' : ∀ w ∈ ids, (l.left.registration? w).isSome := fun w hw =>
      hgoes.same.isSome (hids w (List.mem_cons_of_mem _ hw))
    unfold addTotals
    rw [exec_bind_ok (access_exec hr), exec_bind_ok (totalForWallet_exec hexec), ih hids',
      entries_cons hasset, totalOf_singleton (hrest.kept (hgoes.shown hp))]
    cases o <;> rfl
  | @failed l f ids hl hgoes hf =>
    obtain ⟨r, hr⟩ := Option.isSome_iff_exists.mp (hids l.wallet List.mem_cons_self)
    have hexec := hgoes.answered hl
    rw [hf] at hexec
    unfold addTotals
    rw [exec_bind_ok (access_exec hr)]
    exact exec_bind_error (totalForWallet_exec hexec) _

omit [Engine ε] in
theorem walletIds_exec (s : Registry ε) :
    (walletIds : Op ε (List WalletId)).exec s = (.ok (s.wallets.map (·.1)), s) :=
  rfl

/-- The totals by asset are made of the pictures of all loaded wallets. -/
theorem totalsByAsset_exec {loads : List (Load ε)} {o : Outcome (List Accounts)}
    (h : Gathering ticket s (s.wallets.map (·.1)) loads o s')
    (hids : ∀ w ∈ s.wallets.map (·.1), (s.registration? w).isSome) :
    (totalsByAsset ticket).exec s =
      (o.map fun _ => tally (s'.entries (s.wallets.map (·.1))) [], s') := by
  unfold totalsByAsset
  rw [exec_bind_ok (walletIds_exec s)]
  exact addTotals_exec h hids []

/-! ## Where gathering stops -/

omit [Engine ε] in
theorem filter_lt {pre post : List WalletId} (h : (pre ++ w :: post).Pairwise (· < ·)) :
    (pre ++ w :: post).filter (· < w) = pre := by
  obtain ⟨-, hpost, hpre⟩ := List.pairwise_append.mp h
  have hlow : pre.filter (· < w) = pre :=
    List.filter_eq_self.mpr fun v hv => decide_eq_true (hpre v hv w List.mem_cons_self)
  have hhigh : (w :: post).filter (· < w) = [] := by
    refine List.filter_eq_nil_iff.mpr fun v hv => ?_
    rw [decide_eq_true_iff, UInt32.not_lt]
    rcases List.mem_cons.mp hv with rfl | hv
    · exact UInt32.le_refl v
    · exact UInt32.le_of_lt ((List.pairwise_cons.mp hpost).1 v hv)
  rw [List.filter_append, hlow, hhigh, List.append_nil]

omit [Engine ε] in
theorem not_mem_lower {pre post : List WalletId} (h : (pre ++ w :: post).Pairwise (· < ·)) :
    w ∉ pre := fun hw =>
  UInt32.lt_irrefl w ((List.pairwise_append.mp h).2.2 w hw w List.mem_cons_self)

namespace Gathering

variable {loads : List (Load ε)} {o : Outcome (List Accounts)}

/-- A wallet that cannot be refreshed when its turn comes ends it all. -/
theorem stops {pre : List WalletId} {ps : List Accounts} {f : Failure}
    (h : Gathering ticket s pre loads (.ok ps) s') (hw : s'.snapshot? w = none)
    (hf : ((refresh ticket w).exec s').1 = .error f) (post : List WalletId) :
    ((gather ticket (pre ++ w :: post)).exec s).1 = .error f := by
  have hpre := h.exec
  unfold gather at hpre ⊢
  have hexec := accountsOrRefresh_exec ticket w s'
  cases hr : (refresh ticket w).exec s' with
  | mk o₁ s₁ =>
    rw [hr] at hf
    cases hf
    rw [hw, hr] at hexec
    have hpost : ((w :: post).mapM (accountsOrRefresh ticket)).exec s' = (.error f, s₁) := by
      rw [List.mapM_cons]
      exact exec_bind_error hexec _
    rw [List.mapM_append, exec_bind_ok hpre, exec_bind_error hpost]

/-- Wallets in ascending order fail where the lowest wallet does that cannot be refreshed when
its turn comes. -/
theorem failure_iff (hs : s.Sound) (hids : ids.Pairwise (· < ·))
    (h : Gathering ticket s ids loads o s') (f : Failure) :
    o = .error f ↔ ∃ w ∈ ids, s.snapshot? w = none ∧ ∃ total s₁,
      (totalAcross ticket (ids.filter (· < w))).exec s = (.ok total, s₁) ∧
      ((refresh ticket w).exec s₁).1 = .error f := by
  constructor
  · intro ho
    obtain ⟨pre, post, done, ps, l, rfl, -, hpre, hnone, hgoes, hf, -⟩ := h.broken ho
    refine ⟨l.wallet, List.mem_append_right _ List.mem_cons_self,
      (hpre.untouched (not_mem_lower hids)).symm.trans hnone, (ps.map (·.sum (·.total))).sum,
      l.found, ?_, ?_⟩
    · rw [filter_lt hids]
      exact totalAcross_exec hpre.exec
    · rw [hgoes.exec, hf]
  · rintro ⟨w, hw, hnone, total, s₁, htotal, hf⟩
    obtain ⟨pre, post, rfl⟩ := List.append_of_mem hw
    obtain ⟨done, o₁, s₁', hpre, hexec⟩ := gather_exec hs ticket pre
    rw [filter_lt hids, totalAcross_exec hexec] at htotal
    cases o₁ with
    | error f' => cases htotal
    | ok ps =>
      cases htotal
      have hstops := hpre.stops ((hpre.untouched (not_mem_lower hids)).trans hnone) hf post
      rwa [h.exec] at hstops

/-- If no two of the wallets are reached through one engine, that is the lowest wallet that
cannot be refreshed at all. -/
theorem failure_alone_iff (hs : s.Sound) (hids : ids.Pairwise (· < ·))
    (h : Gathering ticket s ids loads o s') (hloaded : ∀ w ∈ ids, (s.registration? w).isSome)
    (hapart : ∀ w w' r r', s.registration? w = some r → s.registration? w' = some r' →
      r.access.engine = r'.access.engine → w = w') (f : Failure) :
    o = .error f ↔ ∃ w ∈ ids, s.snapshot? w = none ∧ ((refresh ticket w).exec s).1 = .error f ∧
      ∀ v ∈ ids, v < w → s.snapshot? v = none → ∃ p, ((refresh ticket v).exec s).1 = .ok p := by
  -- any failure is that of a wallet like this
  have hfirst {f : Failure} (ho : o = .error f) : ∃ w ∈ ids, s.snapshot? w = none ∧
      ((refresh ticket w).exec s).1 = .error f ∧
      ∀ v ∈ ids, v < w → s.snapshot? v = none → ∃ p, ((refresh ticket v).exec s).1 = .ok p := by
    obtain ⟨pre, post, done, ps, l, rfl, rfl, hpre, hnone, -, hf, -⟩ := h.broken ho
    have hlast := h.outcome_alone hs hloaded hapart (List.mem_append_right _ (List.mem_singleton_self l))
    refine ⟨l.wallet, List.mem_append_right _ List.mem_cons_self,
      (hpre.untouched (not_mem_lower hids)).symm.trans hnone, hlast.trans hf, fun v hv hlt hv' => ?_⟩
    have hmem : v ∈ pre := filter_lt hids ▸ List.mem_filter.mpr ⟨hv, decide_eq_true hlt⟩
    obtain ⟨d, hd, rfl, p, hp⟩ := hpre.taken rfl hmem hv'
    exact ⟨p, (h.outcome_alone hs hloaded hapart (List.mem_append_left _ hd)).trans hp⟩
  refine ⟨hfirst, fun ⟨w, hw, hnone, hf, hlow⟩ => ?_⟩
  cases o with
  | ok ps =>
    obtain ⟨l, hl, rfl, p, hp⟩ := h.taken rfl hw hnone
    cases hf.symm.trans ((h.outcome_alone hs hloaded hapart hl).trans hp)
  | error f' =>
    obtain ⟨w', hw', hnone', hf', hlow'⟩ := hfirst rfl
    -- each of the two would be refreshed if it were lower than the other
    have hge : ¬w < w' := fun hlt => by
      obtain ⟨p, hp⟩ := hlow' w hw hlt hnone
      cases hf.symm.trans hp
    have hle : ¬w' < w := fun hlt => by
      obtain ⟨p, hp⟩ := hlow w' hw' hlt hnone'
      cases hf'.symm.trans hp
    obtain rfl := UInt32.le_antisymm (UInt32.not_lt.mp hle) (UInt32.not_lt.mp hge)
    cases hf.symm.trans hf'
    rfl

end Gathering

/-! ## What the totals by asset are -/

omit [Engine ε] in
theorem sum_entries (hids : ∀ w ∈ ids, (s.registration? w).isSome) :
    ((s.entries ids).map (·.2)).sum = s.totalOf ids := by
  induction ids with
  | nil => rfl
  | cons w ids ih =>
    obtain ⟨r, hr⟩ := Option.isSome_iff_exists.mp (hids w List.mem_cons_self)
    rw [entries_cons (assetOf?_eq hr), List.map_cons, List.sum_cons,
      ih fun w' hw' => hids w' (List.mem_cons_of_mem _ hw')]
    exact (s.totalOf_append [w] ids).symm

omit [Engine ε] in
theorem amountsOf_entries (s : Registry ε) (ids : List WalletId) (a : Asset) :
    amountsOf a (s.entries ids) =
      (ids.filter fun w => s.assetOf? w = some a).map fun w => s.totalOf [w] := by
  induction ids with
  | nil => rfl
  | cons w ids ih =>
    cases hb : s.assetOf? w with
    | none =>
      have hentries : s.entries (w :: ids) = s.entries ids := by
        unfold entries
        rw [List.filterMap_cons, hb]
        rfl
      rw [hentries, ih, List.filter_cons_of_neg (by simp [hb])]
    | some b =>
      rw [entries_cons hb]
      unfold amountsOf at ih ⊢
      by_cases hba : b = a
      · rw [List.filter_cons_of_pos (by simpa using hba), List.filter_cons_of_pos (by simp [hb, hba]),
          List.map_cons, List.map_cons, ih]
      · rw [List.filter_cons_of_neg (by simpa using hba), List.filter_cons_of_neg (by simp [hb, hba]),
          ih]

omit [Engine ε] in
/-- The wallets of a sound registry are those that are registered. -/
theorem Sound.mem_wallets (hs : s.Sound) (w : WalletId) :
    w ∈ s.wallets.map (·.1) ↔ (s.registration? w).isSome := by
  have hmem : w ∈ s.wallets.map (·.1) ↔ ∃ key, s.key? w = some key := by
    unfold key?
    rw [← Option.isSome_iff_exists, ← Option.ne_none_iff_isSome, Ne, Keyed.lookup_eq_none_iff,
      not_not]
  rw [hmem]
  unfold registration?
  constructor
  · rintro ⟨key, hkey⟩
    rw [hkey]
    simpa using hs.registered w key hkey
  · intro hsome
    cases hkey : s.key? w with
    | none => simp [hkey] at hsome
    | some key => exact ⟨key, rfl⟩

omit [Engine ε] in
theorem mem_walletsOf (hs : s.Sound) {a : Asset} : w ∈ s.walletsOf a ↔ s.assetOf? w = some a := by
  unfold walletsOf
  rw [List.mem_filter, decide_eq_true_iff, hs.mem_wallets]
  refine ⟨And.right, fun ha => ⟨?_, ha⟩⟩
  have hsome := congrArg Option.isSome ha
  rwa [assetOf?, Option.isSome_map] at hsome

/-- What there is to say of the totals by asset. -/
structure Tallied (ticket : Nat) (s : Registry ε) (o : Outcome (List (Asset × Nat)))
    (s' : Registry ε) : Prop where
  exec : (totalsByAsset ticket).exec s = (o, s')
  /-- The wallets are those that are registered, and stand in ascending order. -/
  wallets : s.Ascending ∧ ∀ w, w ∈ s.wallets.map (·.1) ↔ (s.registration? w).isSome
  walletsOf : ∀ w a, w ∈ s.walletsOf a ↔ s.assetOf? w = some a
  /-- Every asset of which a wallet is registered has one sum, and no other asset has. It is
  the sum over the wallets of the asset. -/
  success : ∀ m, o = .ok m → InOrder m ∧ ∀ a, m.lookup a =
    if s.walletsOf a = [] then none else some ((s.walletsOf a).map fun w => s'.totalOf [w]).sum
  /-- That is what each wallet is then told to hold. -/
  told : ∀ m, o = .ok m → ∀ w, (s.registration? w).isSome → ∀ ticket',
    (totalForWallet ticket' w).exec s' = (.ok (s'.totalOf [w]), s')
  /-- All sums together are the total across the wallets, then and again. -/
  across : (totalAcross ticket (s.wallets.map (·.1))).exec s =
    (o.map fun m => (m.map (·.2)).sum, s')
  again : ∀ m, o = .ok m → ∀ ticket', (totalAcross ticket' (s'.wallets.map (·.1))).exec s' =
    (.ok (m.map (·.2)).sum, s')
  /-- With fewer than `2 ^ 64` accounts no sum is too great. -/
  fits : ∀ m, o = .ok m → ((s.wallets.map (·.1)).flatMap s'.accountsOf).length < 2 ^ 64 →
    (m.map (·.2)).sum < 2 ^ 128
  /-- It fails where a wallet without a picture cannot be refreshed when its turn comes, and
  the lowest such wallet tells how. -/
  failure : ∀ f, o = .error f ↔ ∃ w ∈ s.wallets.map (·.1), s.snapshot? w = none ∧ ∃ total s₁,
    (totalAcross ticket ((s.wallets.map (·.1)).filter (· < w))).exec s = (.ok total, s₁) ∧
    ((refresh ticket w).exec s₁).1 = .error f
  /-- If no two wallets share an engine, that is a wallet that cannot be refreshed at all. -/
  alone : (∀ w w' r r', s.registration? w = some r → s.registration? w' = some r' →
      r.access.engine = r'.access.engine → w = w') →
    ∀ f, o = .error f ↔ ∃ w ∈ s.wallets.map (·.1), s.snapshot? w = none ∧
      ((refresh ticket w).exec s).1 = .error f ∧
      ∀ v ∈ s.wallets.map (·.1), v < w → s.snapshot? v = none →
        ∃ p, ((refresh ticket v).exec s).1 = .ok p

omit [Engine ε] in
/-- What the totals of registered wallets add up to, by asset and over all. -/
theorem tally_entries (h : SameWallets s s') :
    InOrder (tally (s'.entries (s.wallets.map (·.1))) []) ∧
    ∀ a, (tally (s'.entries (s.wallets.map (·.1))) []).lookup a =
      if s.walletsOf a = [] then none
      else some ((s.walletsOf a).map fun w => s'.totalOf [w]).sum := by
  have hnil : InOrder [] := List.Pairwise.nil
  refine ⟨inOrder_tally _ hnil, fun a => ?_⟩
  have hamounts : amountsOf a (s'.entries (s.wallets.map (·.1))) =
      (s.walletsOf a).map fun w => s'.totalOf [w] := by
    rw [amountsOf_entries]
    unfold walletsOf
    simp only [h.assetOf?]
  rw [lookup_tally _ hnil, hamounts, List.lookup_nil, Option.getD_none, Nat.zero_add]
  simp only [List.map_eq_nil_iff]

/-- The totals by asset are what they should be in any registry that comes about by works which
have all come to an end. -/
theorem totals_by_asset {config : Config} (h : Reached config s []) (ticket : Nat) :
    ∃ o s', Tallied ticket s o s' := by
  have hs := h.sound
  have hascending := h.ascending
  obtain ⟨loads, o, s', hgathering, hexec⟩ := gather_exec hs ticket (s.wallets.map (·.1))
  have hids : ∀ w ∈ s.wallets.map (·.1), (s.registration? w).isSome := fun w =>
    (hs.mem_wallets w).mp
  have hids' : ∀ w ∈ s.wallets.map (·.1), (s'.registration? w).isSome := fun w hw =>
    hgathering.same.isSome (hids w hw)
  have hsum : ((tally (s'.entries (s.wallets.map (·.1))) []).map (·.2)).sum =
      s'.totalOf (s.wallets.map (·.1)) := by
    rw [sum_tally, sum_entries hids']
    rfl
  have htotals := totalsByAsset_exec hgathering hids
  obtain ⟨horder, hlookup⟩ := tally_entries hgathering.same
  generalize tally (s'.entries (s.wallets.map (·.1))) [] = sums at hsum htotals horder hlookup
  have herror (f : Failure) : (o.map fun _ => sums) = .error f ↔ o = .error f := by
    cases o with
    | ok ps => exact ⟨nofun, nofun⟩
    | error f' => exact ⟨fun ho => by cases ho; rfl, fun ho => by cases ho; rfl⟩
  have hshown {m : List (Asset × Nat)} (ho : (o.map fun _ => sums) = .ok m) :
      sums = m ∧ ∀ w ∈ s.wallets.map (·.1), (s'.snapshot? w).isSome := by
    cases o with
    | error f => cases ho
    | ok ps =>
      cases ho
      exact ⟨rfl, hgathering.shows rfl⟩
  refine ⟨_, s', {
    exec := htotals
    wallets := ⟨hascending, hs.mem_wallets⟩
    walletsOf := fun w a => mem_walletsOf hs
    success := ?success
    told := ?told
    across := ?across
    again := ?again
    fits := ?fits
    failure := fun f => (herror f).trans (hgathering.failure_iff hs hascending f)
    alone := fun hapart f =>
      (herror f).trans (hgathering.failure_alone_iff hs hascending hids hapart f) }⟩
  case success =>
    intro m ho
    obtain ⟨rfl, -⟩ := hshown ho
    exact ⟨horder, hlookup⟩
  case told =>
    intro m ho w hw ticket'
    obtain ⟨-, hsome⟩ := hshown ho
    obtain ⟨p, hp⟩ := Option.isSome_iff_exists.mp (hsome w ((hs.mem_wallets w).mpr hw))
    rw [totalOf_singleton hp]
    exact totalForWallet_exec (accountsOrRefresh_shown hp ticket')
  case across =>
    rw [totalAcross_exec hexec]
    cases o with
    | error f => rfl
    | ok ps =>
      obtain ⟨-, -, hpictures⟩ := hgathering.success rfl
      show (Except.ok (ps.map (·.sum (·.total))).sum, s') = (.ok (sums.map (·.2)).sum, s')
      rw [totalOf_pictures hpictures, hsum]
  case again =>
    intro m ho ticket'
    obtain ⟨rfl, hsome⟩ := hshown ho
    rw [hsum, hgathering.same.wallets]
    exact totalAcross_exec_shown hsome ticket'
  case fits =>
    intro m ho hlength
    obtain ⟨rfl, -⟩ := hshown ho
    rw [hsum]
    exact sum_lt hlength (List.Sublist.refl _) (·.total)

/-- A Decred wallet that is loaded twice, a Bitcoin wallet, and one that is removed again. -/
def bookkeeping : List (Work InMemoryEngine) := [
  .load 8 {
    asset := .dcr
    accounts := [
      { number := 0, name := "a", balance := .signed 700 600 0 0 0 0 0 },
      { number := 1, name := "b", balance := .signed 4 0 1 2 0 0 0 }]
    blockHash := default
    blockHeight := 5 },
  .share 9 8,
  .load 7 {
    asset := .btc
    accounts := [{ number := 0, name := "a", balance := .units 500 500 0 }]
    blockHash := default
    blockHeight := 5 },
  .load 6 { asset := .btc, blockHash := default, blockHeight := 5 },
  .remove 6,
  .refresh 0 9]

/-- What it comes to, with more work after it. -/
def ledger (works : List (Work InMemoryEngine)) : Registry InMemoryEngine :=
  (bookkeeping ++ works).foldl (fun s x => (x.op.exec s).2) { config := {} }

/-- A wallet of which there is no balance. -/
def broken : InMemoryEngine where
  asset := .dcr
  accounts := [{ number := 3, name := "a", balance := .units 500 500 0 }]
  failingBalance := some 3
  blockHash := default
  blockHeight := 5

/-- Two wallets without a picture are refreshed and each is counted under its asset; a lower
wallet that cannot be refreshed ends it all. -/
theorem totals_by_asset_mixed :
    (Reached {} (ledger []) [] ∧
      ∃ s', Tallied 0 (ledger []) (.ok [(.btc, 500), (.dcr, 1408)]) s') ∧
    Reached {} (ledger [.load 6 broken]) [] ∧
      ∃ s', Tallied 0 (ledger [.load 6 broken])
        (.error (.backend (.reported "rpc timeout"))) s' := by
  have hreached (works : List (Work InMemoryEngine)) : Reached {} (ledger works) [] :=
    (Reached.new rfl).inTurn _
  refine ⟨⟨hreached _, ?_⟩, hreached _, ?_⟩
  · obtain ⟨o, s', h⟩ := totals_by_asset (hreached []) 0
    have ho : ((totalsByAsset 0).exec (ledger [])).1 = .ok [(.btc, 500), (.dcr, 1408)] := by
      decide +kernel
    rw [h.exec] at ho
    cases ho
    exact ⟨s', h⟩
  · obtain ⟨o, s', h⟩ := totals_by_asset (hreached [.load 6 broken]) 0
    have ho : ((totalsByAsset 0).exec (ledger [.load 6 broken])).1 =
        .error (.backend (.reported "rpc timeout")) := by decide +kernel
    rw [h.exec] at ho
    cases ho
    exact ⟨s', h⟩

end Purse.Registry
