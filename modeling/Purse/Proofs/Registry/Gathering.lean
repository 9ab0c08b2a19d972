import Purse.Proofs.Registry.Errands

/-!
# Pictures of several wallets

Whoever wants to know something of several wallets goes from one to the next and takes the
pictures there are. A wallet without a picture is refreshed on the way, and the first refresh
that fails ends it all. `Gathering` tells how this goes, with a `Load` for every refresh, and
`gather_exec` says that it does go like that.

From it follows what refreshes there were: those of the wallets that had no picture, once
each, at their first occurrence (`Gathering.success`, `Gathering.failure`); what pictures
there are in the end (`Gathering.snapshots`), and what each engine was asked
(`Gathering.talks`).
-/

namespace Purse

theorem Engine.Talk.append {ε : Type} [Engine ε] {e e' e'' : ε} {xs ys : List Exchange}
    (h : Talk e xs e') (h' : Talk e' ys e'') : Talk e (xs ++ ys) e'' := by
  induction h with
  | nil => exact h'
  | cons c _ ih => exact .cons c (ih h')

/-! ## Engines decide -/

theorem Account.TakenOver.unique {w : WalletId} {info : AccountInfo} {b : Balance} {a a' : Account}
    (h : a.TakenOver w info b) (h' : a'.TakenOver w info b) : a = a' := by
  obtain ⟨⟨number, name, external, internal, imported⟩, wallet, balance⟩ := a
  obtain ⟨⟨number', name', external', internal', imported'⟩, wallet', balance'⟩ := a'
  have hexternal : external = external' := UInt32.toNat_inj.mp (h.external.trans h'.external.symm)
  have hinternal : internal = internal' := UInt32.toNat_inj.mp (h.internal.trans h'.internal.symm)
  cases h.number.trans h'.number.symm
  cases h.name.trans h'.name.symm
  cases h.imported.trans h'.imported.symm
  cases h.wallet.trans h'.wallet.symm
  cases h.balance.trans h'.balance.symm
  rw [hexternal, hinternal]

/-- The first call of a talk is answered by the engine as it is then. -/
theorem Engine.Talk.head {ε : Type} [Engine ε] {e e' : ε} {c : Call}
    {reply : Except EngineError c.Answer} {xs : List Exchange}
    (h : Talk e (⟨c, reply⟩ :: xs) e') : reply = (ask c e).1 ∧ Talk (ask c e).2 xs e' := by
  generalize hys : (⟨c, reply⟩ : Exchange) :: xs = ys at h
  cases h with
  | nil => cases hys
  | cons c h =>
    cases hys
    exact ⟨rfl, h⟩

section

variable {ε : Type} [Engine ε] {w : WalletId} {scope : Option KeyScope} {confirmations : UInt32}
  {e e₁ e₂ : ε} {xs ys : List Exchange}

/-- The engine alone decides what becomes of asking for balances. -/
theorem Pricing.unique {infos : List AccountInfo} {o o' : Outcome (List Account)}
    (h : Pricing w confirmations infos xs o) (h' : Pricing w confirmations infos ys o')
    (ht : Engine.Talk e xs e₁) (ht' : Engine.Talk e ys e₂) : o = o' := by
  induction h generalizing ys o' e with
  | done =>
    cases h'
    rfl
  | failed hf =>
    obtain ⟨hreply, -⟩ := ht.head
    cases h' with
    | failed hf' =>
      obtain ⟨hreply', -⟩ := ht'.head
      rw [hreply] at hf
      rw [hreply', hf] at hf'
      cases hf'
      rfl
    | priced hb =>
      obtain ⟨hreply', -⟩ := ht'.head
      rw [hreply] at hf
      rw [hreply', hf] at hb
      cases hb
  | priced hb ha h ih =>
    obtain ⟨hreply, hrest⟩ := ht.head
    cases h' with
    | failed hf' =>
      obtain ⟨hreply', -⟩ := ht'.head
      rw [hreply] at hb
      rw [hreply', hb] at hf'
      cases hf'
    | priced hb' ha' h' =>
      obtain ⟨hreply', hrest'⟩ := ht'.head
      rw [hreply] at hb
      rw [hreply', hb] at hb'
      cases hb'
      rw [ha.unique ha', ih h' hrest hrest']

/-- The engine alone decides what becomes of a refresh. -/
theorem Refreshing.unique {o o' : Outcome Accounts}
    (h : Refreshing w scope confirmations xs o) (h' : Refreshing w scope confirmations ys o')
    (ht : Engine.Talk e xs e₁) (ht' : Engine.Talk e ys e₂) : o = o' := by
  cases h with
  | failed =>
    obtain ⟨hreply, -⟩ := ht.head
    cases h' with
    | failed =>
      obtain ⟨hreply', -⟩ := ht'.head
      cases hreply.trans hreply'.symm
      rfl
    | listed =>
      obtain ⟨hreply', -⟩ := ht'.head
      cases hreply.trans hreply'.symm
  | listed h =>
    obtain ⟨hreply, hrest⟩ := ht.head
    cases h' with
    | failed =>
      obtain ⟨hreply', -⟩ := ht'.head
      cases hreply.trans hreply'.symm
    | listed h' =>
      obtain ⟨hreply', hrest'⟩ := ht'.head
      cases hreply.trans hreply'.symm
      rw [h.unique h' hrest hrest']

end

namespace Registry

variable {ε : Type} {s s' s'' : Registry ε} {w : WalletId} {ticket : Nat}

/-- The same wallets are loaded, and each is reached as before. -/
structure SameWallets (s s' : Registry ε) : Prop where
  config : s'.config = s.config
  wallets : s'.wallets = s.wallets
  access : ∀ key, s'.access? key = s.access? key

namespace SameWallets

theorem refl (s : Registry ε) : SameWallets s s :=
  ⟨rfl, rfl, fun _ => rfl⟩

theorem trans (h : SameWallets s s') (h' : SameWallets s' s'') : SameWallets s s'' :=
  ⟨h'.config.trans h.config, h'.wallets.trans h.wallets,
    fun key => (h'.access key).trans (h.access key)⟩

/-- Each loaded wallet is reached as before. -/
theorem accessOf? (h : SameWallets s s') (w : WalletId) :
    (s'.registration? w).map (·.access) = (s.registration? w).map (·.access) := by
  have hkey : s'.key? w = s.key? w := congrArg (·.lookup w) h.wallets
  unfold registration?
  rw [hkey]
  cases hk : s.key? w with
  | none => rfl
  | some key => exact h.access key

/-- A loaded wallet stays loaded. -/
theorem isSome (h : SameWallets s s') (hw : (s.registration? w).isSome) :
    (s'.registration? w).isSome := by
  have haccess := congrArg Option.isSome (h.accessOf? w)
  rw [Option.isSome_map, Option.isSome_map] at haccess
  exact haccess.trans hw

end SameWallets

/-- A refresh of a wallet of which there was no picture. -/
structure Load (ε : Type) where
  wallet : WalletId
  found : Registry ε
  exchanges : List Exchange
  outcome : Outcome Accounts
  left : Registry ε

/-- The engine that is asked, if the wallet is loaded. -/
def Load.engine? (l : Load ε) : Option Nat :=
  (l.found.registration? l.wallet).map (·.access.engine)

/-- What an engine is asked. -/
def Load.exchangesWith (l : Load ε) (n : Nat) : List Exchange :=
  if l.engine? = some n then l.exchanges else []

/-- The picture that was taken of a wallet. -/
def Load.picture? (l : Load ε) (w : WalletId) : Option Accounts :=
  if w = l.wallet then l.outcome.toOption else none

variable [Engine ε]

/-- The refresh went as a refresh goes with nobody in between. -/
structure Load.Goes (ticket : Nat) (l : Load ε) : Prop where
  exec : (refresh ticket l.wallet).exec l.found = (l.outcome, l.left)
  same : SameWallets l.found l.left
  unknown : l.found.registration? l.wallet = none →
    l.exchanges = [] ∧ l.outcome = .error (.notFound (.wallet l.wallet)) ∧ l.left = l.found
  known : ∀ r, l.found.registration? l.wallet = some r → ∃ e e',
    l.found.engines[r.access.engine]? = some e ∧ Engine.Talk e l.exchanges e' ∧
    Refreshing l.wallet r.access.scope l.found.config.effectiveConfirmations l.exchanges
      l.outcome ∧
    l.left.engines = l.found.engines.set r.access.engine e'
  snapshots : ∀ w, l.left.snapshot? w = (l.picture? w).or (l.found.snapshot? w)

omit [Engine ε] in
theorem sameWallets_lineUp (s : Registry ε) (key ticket : Nat) :
    SameWallets s (s.lineUp key ticket) :=
  ⟨rfl, rfl, access?_lineUp⟩

omit [Engine ε] in
theorem sameWallets_putUp (s : Registry ε) (key : Nat) (p : Accounts) :
    SameWallets s (s.putUp key p) :=
  ⟨rfl, rfl, access?_putUp p⟩

omit [Engine ε] in
theorem sameWallets_leave (s : Registry ε) (ticket : Nat) : SameWallets s (s.leave ticket) :=
  ⟨rfl, rfl, access?_leave⟩

omit [Engine ε] in
theorem sameWallets_withEngine (s : Registry ε) (n : Nat) (e : ε) :
    SameWallets s (s.withEngine n e) :=
  ⟨rfl, rfl, fun _ => rfl⟩

/-- A refresh changes pictures, lines and engines, and no wallet. -/
theorem refresh_exec_same (hs : s.Sound) {o : Outcome Accounts}
    (h : (refresh ticket w).exec s = (o, s')) : SameWallets s s' ∧ s'.Sound := by
  cases hr : s.registration? w with
  | none =>
    have hexec : (refresh ticket w).exec s = (.error (.notFound (.wallet w)), s) :=
      exec_bind_error (entry_exec_none hr) _
    cases h.symm.trans hexec
    exact ⟨.refl s, hs⟩
  | some r =>
    obtain ⟨key, hkey, -⟩ := Option.bind_eq_some_iff.mp hr
    obtain ⟨e, he⟩ := hs.engine hr
    have hlined : (s.lineUp key ticket).engines[r.access.engine]? = some e := he
    obtain ⟨xs, e', o', -, -, hrebuild⟩ := rebuild_exec w key r.access hlined
    rw [refresh_exec_eq hkey hr, hrebuild] at h
    have hsame := (sameWallets_lineUp s key ticket).trans
      (sameWallets_withEngine _ r.access.engine e')
    have hlinedSound : (s.lineUp key ticket).Sound := hs.modifyRegistration key fun _ => rfl
    have hsound := hlinedSound.withEngine r.access.engine e'
    cases o' with
    | error f =>
      cases h
      exact ⟨hsame.trans (sameWallets_leave _ ticket), hsound.leave ticket⟩
    | ok p =>
      cases h
      have hput : (((s.lineUp key ticket).withEngine r.access.engine e').putUp key p).Sound :=
        hsound.modifyRegistration key fun _ => rfl
      exact ⟨(hsame.trans (sameWallets_putUp _ key p)).trans (sameWallets_leave _ ticket),
        hput.leave ticket⟩

theorem refresh_goes (hs : s.Sound) (ticket : Nat) (w : WalletId) :
    ∃ l : Load ε, l.wallet = w ∧ l.found = s ∧ l.left.Sound ∧ l.Goes ticket := by
  cases hr : s.registration? w with
  | none =>
    have hexec : (refresh ticket w).exec s = (.error (.notFound (.wallet w)), s) :=
      exec_bind_error (entry_exec_none hr) _
    refine ⟨⟨w, s, [], .error (.notFound (.wallet w)), s⟩, rfl, rfl, hs, hexec, .refl s, ?_, ?_, ?_⟩
    · exact fun _ => ⟨rfl, rfl, rfl⟩
    · intro r hr'
      cases hr.symm.trans hr'
    · intro w'
      unfold Load.picture?
      split <;> rfl
  | some r =>
    obtain ⟨e, xs, e', o, s', he, hexec, htalk, hrefreshing, hengines, hsnapshots⟩ :=
      refresh_exec hs ticket hr
    obtain ⟨hsame, hsound⟩ := refresh_exec_same hs hexec
    refine ⟨⟨w, s, xs, o, s'⟩, rfl, rfl, hsound, hexec, hsame, ?_, ?_, ?_⟩
    · intro hr'
      cases hr.symm.trans hr'
    · intro r' hr'
      cases hr.symm.trans hr'
      exact ⟨e, e', he, htalk, hrefreshing, hengines⟩
    · intro w'
      unfold Load.picture?
      rw [hsnapshots]
      by_cases hw : w' = w
      · cases o <;> simp [hw, Except.toOption]
      · cases o <;> simp [hw]

/-- A picture that there is is what is answered. -/
theorem accountsOrRefresh_shown {p : Accounts} (h : s.snapshot? w = some p) (ticket : Nat) :
    (accountsOrRefresh ticket w).exec s = (.ok p, s) := by
  rw [accountsOrRefresh_exec, h]

/-- Where there is none, a refresh answers. -/
theorem Load.Goes.answered {l : Load ε} (h : l.Goes ticket)
    (hl : l.found.snapshot? l.wallet = none) :
    (accountsOrRefresh ticket l.wallet).exec l.found = (l.outcome, l.left) := by
  rw [accountsOrRefresh_exec, hl, ← h.exec]

/-! ## From wallet to wallet -/

/-- The pictures of wallets, one after another. -/
def gather (ticket : Nat) (ids : List WalletId) : Op ε (List Accounts) :=
  ids.mapM (accountsOrRefresh ticket)

/-- How the pictures of wallets are gathered: those that there are, and one for each wallet
without a picture, up to the first refresh that fails. -/
inductive Gathering (ticket : Nat) :
    Registry ε → List WalletId → List (Load ε) → Outcome (List Accounts) → Registry ε → Prop
  | done (s : Registry ε) : Gathering ticket s [] [] (.ok []) s
  | shown {s s' : Registry ε} {w : WalletId} {p : Accounts} {ids : List WalletId}
      {loads : List (Load ε)} {o : Outcome (List Accounts)} (hp : s.snapshot? w = some p)
      (h : Gathering ticket s ids loads o s') :
      Gathering ticket s (w :: ids) loads (o.map (p :: ·)) s'
  | loaded {s' : Registry ε} {l : Load ε} {p : Accounts} {ids : List WalletId}
      {loads : List (Load ε)} {o : Outcome (List Accounts)}
      (hl : l.found.snapshot? l.wallet = none) (hgoes : l.Goes ticket) (hp : l.outcome = .ok p)
      (h : Gathering ticket l.left ids loads o s') :
      Gathering ticket l.found (l.wallet :: ids) (l :: loads) (o.map (p :: ·)) s'
  | failed {l : Load ε} {f : Failure} (ids : List WalletId)
      (hl : l.found.snapshot? l.wallet = none) (hgoes : l.Goes ticket) (hf : l.outcome = .error f) :
      Gathering ticket l.found (l.wallet :: ids) [l] (.error f) l.left

/-- What is gathered is what the operation answers. -/
theorem Gathering.exec {ids : List WalletId} {loads : List (Load ε)}
    {o : Outcome (List Accounts)} (h : Gathering ticket s ids loads o s') :
    (gather ticket ids).exec s = (o, s') := by
  unfold gather
  induction h with
  | done => rfl
  | @shown s s' w p ids loads o hp _ ih =>
    rw [List.mapM_cons, exec_bind_ok (accountsOrRefresh_shown hp ticket)]
    exact exec_map ih _
  | @loaded s' l p ids loads o hl hgoes hp _ ih =>
    have hexec := hgoes.answered hl
    rw [hp] at hexec
    rw [List.mapM_cons, exec_bind_ok hexec]
    exact exec_map ih _
  | @failed l f ids hl hgoes hf =>
    have hexec := hgoes.answered hl
    rw [hf] at hexec
    rw [List.mapM_cons]
    exact exec_bind_error hexec _

/-- The pictures of wallets are gathered like that, whatever the engines answer. -/
theorem gather_exec (hs : s.Sound) (ticket : Nat) (ids : List WalletId) :
    ∃ loads o s', Gathering ticket s ids loads o s' ∧ (gather ticket ids).exec s = (o, s') := by
  have hgathering : ∃ loads o s', Gathering ticket s ids loads o s' := by
    induction ids generalizing s with
    | nil => exact ⟨_, _, _, .done s⟩
    | cons w ids ih =>
      cases hp : s.snapshot? w with
      | some p =>
        obtain ⟨loads, o, s', hrest⟩ := ih hs
        exact ⟨_, _, _, .shown hp hrest⟩
      | none =>
        obtain ⟨l, rfl, rfl, hsound, hgoes⟩ := refresh_goes hs ticket w
        cases ho : l.outcome with
        | error f => exact ⟨_, _, _, .failed ids hp hgoes ho⟩
        | ok p =>
          -- the other wallets are gathered from what this refresh has left
          obtain ⟨loads, o, s', hrest⟩ := ih hsound
          exact ⟨_, _, _, .loaded hp hgoes ho hrest⟩
  obtain ⟨loads, o, s', h⟩ := hgathering
  exact ⟨loads, o, s', h, h.exec⟩

/-! ## What it comes to -/

omit [Engine ε] in
theorem Load.picture?_self {l : Load ε} {p : Accounts} (h : l.outcome = .ok p) :
    l.picture? l.wallet = some p := by
  unfold Load.picture?
  rw [if_pos rfl, h]
  rfl

omit [Engine ε] in
theorem Load.picture?_ne {l : Load ε} (h : w ≠ l.wallet) : l.picture? w = none :=
  if_neg h

omit [Engine ε] in
theorem Load.picture?_error {l : Load ε} {f : Failure} (h : l.outcome = .error f) (w : WalletId) :
    l.picture? w = none := by
  unfold Load.picture?
  rw [h]
  split <;> rfl

/-- The picture that a refresh has taken is there. -/
theorem Load.Goes.shown {l : Load ε} (h : l.Goes ticket) {p : Accounts} (hp : l.outcome = .ok p) :
    l.left.snapshot? l.wallet = some p := by
  rw [h.snapshots, Load.picture?_self hp]
  rfl

/-- A refresh that fails leaves the pictures as they are. -/
theorem Load.Goes.unshown {l : Load ε} (h : l.Goes ticket) {f : Failure}
    (hf : l.outcome = .error f) (w : WalletId) : l.left.snapshot? w = l.found.snapshot? w := by
  rw [h.snapshots, Load.picture?_error hf]
  rfl

/-- The wallets without a picture, each where it occurs first. -/
def missing (s : Registry ε) (ids : List WalletId) : List WalletId :=
  (ids.filter fun w => (s.snapshot? w).isNone).eraseDups

omit [Engine ε] in
theorem mem_missing {ids : List WalletId} :
    w ∈ s.missing ids ↔ w ∈ ids ∧ s.snapshot? w = none := by
  unfold missing
  rw [List.mem_eraseDups, List.mem_filter, Option.isNone_iff_eq_none]

omit [Engine ε] in
theorem missing_shown {p : Accounts} (h : s.snapshot? w = some p) (ids : List WalletId) :
    s.missing (w :: ids) = s.missing ids := by
  unfold missing
  rw [List.filter_cons_of_neg (by simp [h])]

/-- Once a wallet has its picture, it is not missing any more. -/
theorem missing_loaded {l : Load ε} {p : Accounts} (hl : l.found.snapshot? l.wallet = none)
    (hgoes : l.Goes ticket) (hp : l.outcome = .ok p) (ids : List WalletId) :
    l.found.missing (l.wallet :: ids) = l.wallet :: l.left.missing ids := by
  unfold missing
  rw [List.filter_cons_of_pos (by simp [hl]), List.eraseDups_cons, List.filter_filter]
  congr 2
  refine List.filter_congr fun w _ => ?_
  rw [hgoes.snapshots w]
  by_cases hw : w = l.wallet
  · subst hw
    simp [Load.picture?_self hp]
  · simp [Load.picture?_ne hw, hw]

/-- What an engine was asked by a refresh, be it another's. -/
theorem Load.Goes.talk {l : Load ε} (h : l.Goes ticket) {n : Nat} {e : ε}
    (he : l.found.engines[n]? = some e) :
    ∃ e', l.left.engines[n]? = some e' ∧ Engine.Talk e (l.exchangesWith n) e' := by
  unfold Load.exchangesWith Load.engine?
  cases hr : l.found.registration? l.wallet with
  | none =>
    obtain ⟨-, -, hsame⟩ := h.unknown hr
    rw [hsame]
    exact ⟨e, he, .nil e⟩
  | some r =>
    obtain ⟨e₀, e', he₀, htalk, -, hengines⟩ := h.known r hr
    obtain ⟨hlt, -⟩ := List.getElem?_eq_some_iff.mp he₀
    rw [hengines]
    by_cases hn : r.access.engine = n
    · subst hn
      cases he₀.symm.trans he
      exact ⟨e', List.getElem?_set_self hlt, by simpa using htalk⟩
    · refine ⟨e, ?_, ?_⟩
      · rwa [List.getElem?_set_ne hn]
      · simpa [hn] using Engine.Talk.nil e

/-- Another refresh of a wallet that is reached the same way comes to the same, if the engine
is found in the same state. -/
theorem Load.Goes.outcome_eq {l l' : Load ε} {ticket' : Nat} (h : l.Goes ticket)
    (h' : l'.Goes ticket') (hw : l'.wallet = l.wallet) {r : Registration}
    (hr : l.found.registration? l.wallet = some r) (hsame : SameWallets l.found l'.found)
    (he : l'.found.engines[r.access.engine]? = l.found.engines[r.access.engine]?) :
    l'.outcome = l.outcome := by
  obtain ⟨r', hr', haccess⟩ : ∃ r', l'.found.registration? l'.wallet = some r' ∧
      r'.access = r.access := by
    have haccess := hsame.accessOf? l.wallet
    rw [hr, ← hw] at haccess
    exact Option.map_eq_some_iff.mp haccess
  obtain ⟨e, _, hengine, htalk, hrefreshing, -⟩ := h.known r hr
  obtain ⟨e', _, hengine', htalk', hrefreshing', -⟩ := h'.known r' hr'
  rw [haccess, he, hengine] at hengine'
  cases hengine'
  rw [hw, haccess, hsame.config] at hrefreshing'
  exact hrefreshing'.unique hrefreshing htalk' htalk

namespace Gathering

variable {ids : List WalletId} {loads : List (Load ε)} {o : Outcome (List Accounts)}

theorem leads (h : Gathering ticket s ids loads o s') : Leads Load.found Load.left s loads s' := by
  induction h with
  | done s => exact .nil s
  | shown _ _ ih => exact ih
  | loaded _ _ _ _ ih => exact .cons _ ih
  | failed => exact .cons _ (.nil _)

theorem goes (h : Gathering ticket s ids loads o s') : ∀ l ∈ loads, l.Goes ticket := by
  induction h with
  | done => simp
  | shown _ _ ih => exact ih
  | loaded _ hgoes _ _ ih => exact List.forall_mem_cons.mpr ⟨hgoes, ih⟩
  | failed _ _ hgoes => exact List.forall_mem_singleton.mpr hgoes

theorem same (h : Gathering ticket s ids loads o s') : SameWallets s s' := by
  induction h with
  | done s => exact .refl s
  | shown _ _ ih => exact ih
  | loaded _ hgoes _ _ ih => exact hgoes.same.trans ih
  | failed _ _ hgoes => exact hgoes.same

/-- The pictures that there were stay, and those that were taken are added. -/
theorem snapshots (h : Gathering ticket s ids loads o s') (w : WalletId) :
    s'.snapshot? w = (s.snapshot? w).or (loads.findSome? (·.picture? w)) := by
  induction h with
  | done s => simp
  | shown _ _ ih => exact ih
  | @loaded s' l p ids loads o hl hgoes hp _ ih =>
    rw [ih, hgoes.snapshots, List.findSome?_cons]
    by_cases hw : w = l.wallet
    · subst hw
      simp [hl, Load.picture?_self hp]
    · simp [Load.picture?_ne hw]
  | failed ids hl hgoes hf =>
    rw [hgoes.unshown hf]
    simp [Load.picture?_error hf]

/-- A picture that there was stays. -/
theorem kept (h : Gathering ticket s ids loads o s') {p : Accounts} (hp : s.snapshot? w = some p) :
    s'.snapshot? w = some p := by
  rw [h.snapshots, hp]
  rfl

/-- What each engine was asked, over all. -/
theorem talks (h : Gathering ticket s ids loads o s') {n : Nat} {e : ε}
    (he : s.engines[n]? = some e) : ∃ e', s'.engines[n]? = some e' ∧
      Engine.Talk e (loads.flatMap (·.exchangesWith n)) e' := by
  induction h generalizing e with
  | done s => exact ⟨e, he, .nil e⟩
  | shown _ _ ih => exact ih he
  | loaded _ hgoes _ _ ih =>
    obtain ⟨e₁, he₁, hfirst⟩ := hgoes.talk he
    obtain ⟨e', he', hrest⟩ := ih he₁
    exact ⟨e', he', hfirst.append hrest⟩
  | failed _ _ hgoes =>
    obtain ⟨e', he', htalk⟩ := hgoes.talk he
    exact ⟨e', he', by simpa using htalk⟩

/-- On success every wallet that had no picture was refreshed once, and the pictures are
those that there are in the end. -/
theorem success (h : Gathering ticket s ids loads o s') {ps : List Accounts} (ho : o = .ok ps) :
    loads.map (·.wallet) = s.missing ids ∧ (∀ l ∈ loads, ∃ p, l.outcome = .ok p) ∧
      ids.map s'.snapshot? = ps.map some := by
  induction h generalizing ps with
  | done s =>
    cases ho
    exact ⟨rfl, by simp, rfl⟩
  | @shown s s' w p ids loads o hp hrest ih =>
    cases o with
    | error f => cases ho
    | ok rest =>
      cases ho
      obtain ⟨hloads, hok, hpictures⟩ := ih rfl
      refine ⟨hloads.trans (missing_shown hp ids).symm, hok, ?_⟩
      rw [List.map_cons, List.map_cons, hpictures, hrest.kept hp]
  | @loaded s' l p ids loads o hl hgoes hp hrest ih =>
    cases o with
    | error f => cases ho
    | ok rest =>
      cases ho
      obtain ⟨hloads, hok, hpictures⟩ := ih rfl
      refine ⟨?_, List.forall_mem_cons.mpr ⟨⟨p, hp⟩, hok⟩, ?_⟩
      · rw [List.map_cons, hloads, missing_loaded hl hgoes hp]
      · rw [List.map_cons, List.map_cons, hpictures, hrest.kept (hgoes.shown hp)]
  | failed => cases ho

/-- Every refresh has found what was gathered before it. -/
theorem reach (h : Gathering ticket s ids loads o s') {l : Load ε} (hl : l ∈ loads) :
    ∃ pre post done ps, ids = pre ++ l.wallet :: post ∧ l.found.snapshot? l.wallet = none ∧
      Gathering ticket s pre done (.ok ps) l.found := by
  induction h with
  | done => exact absurd hl List.not_mem_nil
  | @shown s s' w p ids loads o hp _ ih =>
    obtain ⟨pre, post, done, ps, rfl, hnone, hpre⟩ := ih hl
    exact ⟨w :: pre, post, done, p :: ps, rfl, hnone, .shown hp hpre⟩
  | @loaded s' l₀ p ids loads o hl₀ hgoes hp _ ih =>
    rcases List.mem_cons.mp hl with rfl | hl
    · exact ⟨[], ids, [], [], rfl, hl₀, .done _⟩
    · obtain ⟨pre, post, done, ps, rfl, hnone, hpre⟩ := ih hl
      exact ⟨l₀.wallet :: pre, post, l₀ :: done, p :: ps, rfl, hnone, .loaded hl₀ hgoes hp hpre⟩
  | @failed l₀ f ids hl₀ hgoes hf =>
    obtain rfl := List.mem_singleton.mp hl
    exact ⟨[], ids, [], [], rfl, hl₀, .done _⟩

/-- A failure is that of the last refresh; what was gathered before it went well. -/
theorem broken (h : Gathering ticket s ids loads o s') {f : Failure} (ho : o = .error f) :
    ∃ pre post done ps l, ids = pre ++ l.wallet :: post ∧ loads = done ++ [l] ∧
      Gathering ticket s pre done (.ok ps) l.found ∧ l.found.snapshot? l.wallet = none ∧
      l.Goes ticket ∧ l.outcome = .error f ∧ l.left = s' := by
  induction h with
  | done => cases ho
  | @shown s s' w p ids loads o hp _ ih =>
    cases o with
    | ok rest => cases ho
    | error f' =>
      cases ho
      obtain ⟨pre, post, done, ps, l, rfl, rfl, hpre, hl⟩ := ih rfl
      exact ⟨w :: pre, post, done, p :: ps, l, rfl, rfl, .shown hp hpre, hl⟩
  | @loaded s' l₀ p ids loads o hl₀ hgoes hp _ ih =>
    cases o with
    | ok rest => cases ho
    | error f' =>
      cases ho
      obtain ⟨pre, post, done, ps, l, rfl, rfl, hpre, hl⟩ := ih rfl
      exact ⟨l₀.wallet :: pre, post, l₀ :: done, p :: ps, l, rfl, rfl,
        .loaded hl₀ hgoes hp hpre, hl⟩
  | @failed l f' ids hl hgoes hf =>
    cases ho
    exact ⟨[], ids, [], [], l, rfl, rfl, .done _, hl, hgoes, hf, rfl⟩

/-- Other wallets keep the pictures they have, or have none. -/
theorem untouched (h : Gathering ticket s ids loads o s') (hw : w ∉ ids) :
    s'.snapshot? w = s.snapshot? w := by
  induction h with
  | done => rfl
  | shown _ _ ih => exact ih (List.not_mem_of_not_mem_cons hw)
  | loaded _ hgoes _ _ ih =>
    obtain ⟨hne, hw⟩ := List.ne_and_not_mem_of_not_mem_cons hw
    rw [ih hw, hgoes.snapshots, Load.picture?_ne hne]
    rfl
  | failed _ _ hgoes hf =>
    exact hgoes.unshown hf _

/-- Where all went well, there are pictures of all wallets. -/
theorem shows (h : Gathering ticket s ids loads o s') {ps : List Accounts} (ho : o = .ok ps) :
    ∀ w ∈ ids, (s'.snapshot? w).isSome := by
  intro w hw
  obtain ⟨-, -, hpictures⟩ := h.success ho
  have hmem : s'.snapshot? w ∈ ps.map some := hpictures ▸ List.mem_map_of_mem hw
  obtain ⟨p, -, hp⟩ := List.mem_map.mp hmem
  rw [← hp]
  rfl

/-- On failure the last refresh has failed. It was that of a wallet that had no picture, and
the wallets before it went well. Only their pictures are new. -/
theorem failure (h : Gathering ticket s ids loads o s') {f : Failure} (ho : o = .error f) :
    ∃ pre post done l, ids = pre ++ l.wallet :: post ∧ l.wallet ∉ pre ∧
      s.snapshot? l.wallet = none ∧ loads = done ++ [l] ∧ l.outcome = .error f ∧
      done.map (·.wallet) = s.missing pre ∧ (∀ d ∈ done, ∃ p, d.outcome = .ok p) ∧
      (∀ w ∈ pre, (s'.snapshot? w).isSome) ∧ ∀ w, w ∉ pre → s'.snapshot? w = s.snapshot? w := by
  obtain ⟨pre, post, done, ps, l, hids, hloads, hpre, hnone, hgoes, hf, rfl⟩ := h.broken ho
  obtain ⟨hdone, hok, -⟩ := hpre.success rfl
  have hnew : l.wallet ∉ pre := by
    intro hmem
    have hsome := hpre.shows rfl l.wallet hmem
    rw [hnone] at hsome
    cases hsome
  refine ⟨pre, post, done, l, hids, hnew, ?_, hloads, hf, hdone, hok, ?_, ?_⟩
  · rw [← hpre.untouched hnew, hnone]
  · intro w hw
    rw [hgoes.unshown hf]
    exact hpre.shows rfl w hw
  · intro w hw
    rw [hgoes.unshown hf, hpre.untouched hw]

/-- Where all went well, a wallet that had no picture was refreshed. -/
theorem taken (h : Gathering ticket s ids loads o s') {ps : List Accounts} (ho : o = .ok ps)
    (hw : w ∈ ids) (hnone : s.snapshot? w = none) :
    ∃ l ∈ loads, l.wallet = w ∧ ∃ p, l.outcome = .ok p := by
  obtain ⟨hloads, hok, -⟩ := h.success ho
  have hmem : w ∈ loads.map (·.wallet) := hloads ▸ mem_missing.mpr ⟨hw, hnone⟩
  obtain ⟨l, hl, rfl⟩ := List.mem_map.mp hmem
  exact ⟨l, hl, rfl, hok l hl⟩

/-- An engine that none of the wallets is reached through is left as it is. -/
theorem engine_untouched (h : Gathering ticket s ids loads o s') {n : Nat}
    (hn : ∀ w ∈ ids, ∀ r, s.registration? w = some r → r.access.engine ≠ n) :
    s'.engines[n]? = s.engines[n]? := by
  have hload {l : Load ε} (hgoes : l.Goes ticket)
      (hn : ∀ r, l.found.registration? l.wallet = some r → r.access.engine ≠ n) :
      l.left.engines[n]? = l.found.engines[n]? := by
    cases hr : l.found.registration? l.wallet with
    | none => rw [(hgoes.unknown hr).2.2]
    | some r =>
      obtain ⟨_, _, -, -, -, hengines⟩ := hgoes.known r hr
      rw [hengines, List.getElem?_set_ne (hn r hr)]
  induction h with
  | done => rfl
  | shown _ _ ih => exact ih fun w hw => hn w (List.mem_cons_of_mem _ hw)
  | @loaded s' l p ids loads o _ hgoes _ _ ih =>
    rw [ih fun w hw r hr => ?_, hload hgoes (hn l.wallet List.mem_cons_self)]
    have haccess := hgoes.same.accessOf? w
    rw [hr] at haccess
    obtain ⟨r', hr', heq⟩ := Option.map_eq_some_iff.mp haccess.symm
    have heq : r'.access = r.access := heq
    rw [← heq]
    exact hn w (List.mem_cons_of_mem _ hw) r' hr'
  | failed _ _ hgoes => exact hload hgoes (hn _ List.mem_cons_self)

/-- If no two of the wallets are reached through one engine, a refresh comes to what it would
have come to at the beginning. -/
theorem outcome_alone (hs : s.Sound) (h : Gathering ticket s ids loads o s')
    (hids : ∀ w ∈ ids, (s.registration? w).isSome)
    (hapart : ∀ w w' r r', s.registration? w = some r → s.registration? w' = some r' →
      r.access.engine = r'.access.engine → w = w') {l : Load ε} (hl : l ∈ loads) :
    ((refresh ticket l.wallet).exec s).1 = l.outcome := by
  have hgoes := h.goes l hl
  obtain ⟨pre, post, done, ps, rfl, hnone, hpre⟩ := h.reach hl
  obtain ⟨r, hr⟩ := Option.isSome_iff_exists.mp
    (hids l.wallet (List.mem_append_right _ List.mem_cons_self))
  have hothers : ∀ v ∈ pre, ∀ r', s.registration? v = some r' →
      r'.access.engine ≠ r.access.engine := by
    intro v hv r' hr' heq
    cases hapart v l.wallet r' r hr' hr heq
    -- the wallets before it have pictures by then
    have hsome := hpre.shows rfl _ hv
    rw [hnone] at hsome
    cases hsome
  obtain ⟨l₀, hwallet, rfl, -, hgoes₀⟩ := refresh_goes hs ticket l.wallet
  have hexec := hgoes₀.exec
  rw [hwallet] at hexec
  rw [hexec]
  exact (hgoes₀.outcome_eq hgoes hwallet.symm (hwallet ▸ hr) hpre.same
    (hpre.engine_untouched hothers)).symm

end Gathering

/-- Where there are all pictures already, nothing happens. -/
theorem gather_exec_shown {ids : List WalletId} {ps : List Accounts}
    (h : ids.map s.snapshot? = ps.map some) (ticket : Nat) :
    (gather ticket ids).exec s = (.ok ps, s) := by
  unfold gather
  induction ids generalizing ps with
  | nil =>
    cases ps with
    | nil => rfl
    | cons p ps => cases h
  | cons w ids ih =>
    cases ps with
    | nil => cases h
    | cons p ps =>
      rw [List.map_cons, List.map_cons] at h
      obtain ⟨hp, hps⟩ := List.cons.inj h
      rw [List.mapM_cons, exec_bind_ok (accountsOrRefresh_shown hp ticket)]
      exact exec_map (ih hps) _

end Registry

end Purse
