import Purse.Proofs.Registry.Gathering

/-!
# Chores

What is done with wallets over time: they are refreshed, get new accounts, and accounts get new
names. A chore may succeed or fail, and it leaves all wallets loaded and reached as they were
(`Chore.exec_same`). So a wallet that was loaded with an engine of its own is reached through
that engine after any number of them (`afterChores_reached`).
-/

namespace Purse.Registry

variable {ε : Type} [Engine ε] {s s' : Registry ε} {w : WalletId} {n : Nat} {engine : ε}

/-- What is done with a wallet that may change its accounts or their picture. -/
inductive Chore where
  | refresh (ticket : Nat)
  | errand (x : Errand)
  | rename (number : UInt32) (name : String)
  deriving DecidableEq, Repr

def Chore.on (w : WalletId) : Chore → Op ε Unit
  | refresh ticket => do
    let _ ← Registry.refresh ticket w
  | errand x => do
    let _ ← x.on w
  | rename number name => renameAccount w number name

/-- What becomes of a registry through chores, one after another. -/
def afterChores (s : Registry ε) (chores : List (WalletId × Chore)) : Registry ε :=
  chores.foldl (fun s c => ((c.2.on c.1).exec s).2) s

theorem Chore.exec_none (h : s.registration? w = none) (c : Chore) :
    (c.on w).exec s = (.error (.notFound (.wallet w)), s) := by
  have hentry := entry_exec_none h
  have haccess : (access w : Op ε Access).exec s = (.error (.notFound (.wallet w)), s) :=
    exec_bind_error hentry _
  cases c with
  | refresh ticket => exact exec_bind_error (exec_bind_error hentry _) _
  | rename number name => exact exec_bind_error haccess _
  | errand x =>
    refine exec_bind_error ?_ _
    cases x with
    | unlock | lock => exact exec_bind_error haccess _
    | next | create => exact exec_bind_error (exec_bind_error haccess _) _
    | createAll => exact exec_bind_error haccess _

/-- A chore leaves the wallets loaded and reached as they were. -/
theorem Chore.exec_same (hs : s.Sound) (w : WalletId) (c : Chore) :
    SameWallets s ((c.on w).exec s).2 ∧ ((c.on w).exec s).2.Sound := by
  cases hr : s.registration? w with
  | none =>
    rw [c.exec_none hr]
    exact ⟨.refl s, hs⟩
  | some r =>
    obtain ⟨e, he⟩ := hs.engine hr
    cases c with
    | refresh ticket =>
      have hexec : ((refresh ticket).on w).exec s = _ := exec_map rfl _
      rw [hexec]
      exact refresh_exec_same hs rfl
    | errand x =>
      obtain ⟨_, o, e', -, hx⟩ := Errand.on_exec hr he x
      have hexec : ((errand x).on w).exec s = _ := exec_map hx _
      rw [hexec]
      exact ⟨sameWallets_withEngine s _ e', hs.withEngine _ e'⟩
    | rename number name =>
      have hexec : ((rename number name).on w).exec s = _ :=
        (exec_bind_ok (access_exec hr) _).trans (call_exec r.access he _)
      rw [hexec]
      exact ⟨sameWallets_withEngine s _ _, hs.withEngine _ _⟩

theorem afterChores_same (hs : s.Sound) (chores : List (WalletId × Chore)) :
    SameWallets s (s.afterChores chores) ∧ (s.afterChores chores).Sound := by
  induction chores generalizing s with
  | nil => exact ⟨.refl s, hs⟩
  | cons c chores ih =>
    obtain ⟨hsame, hsound⟩ := c.2.exec_same hs c.1
    obtain ⟨hrest, hsound'⟩ := ih hsound
    exact ⟨hsame.trans hrest, hsound'⟩

omit [Engine ε] in
theorem registration?_add (h : s.key? w = none) (access : Access) :
    (s.add w access).registration? w = some { access } := by
  have hkey : (s.add w access).key? w = some s.registrations.length :=
    (lookup_insertWallet h _ w).trans (if_pos rfl)
  unfold registration?
  rw [hkey]
  exact (getElem?_add s w access _).trans (if_pos rfl)

/-- A wallet that has been loaded is reached through its engine. -/
theorem load_exec_ok (hs : s.Sound) (h : (load w engine).exec s = (.ok n, s')) :
    s'.Sound ∧ ∃ r, s'.registration? w = some r ∧ r.access.engine = n := by
  unfold load at h
  rw [exec_bind_ok (exec_pauseFor _ s), exec_bind_ok (exec_get s)] at h
  by_cases hw : (s.key? w).isSome
  · rw [if_pos hw] at h
    cases h
  · rw [if_neg hw] at h
    cases h
    have hfree : s.key? w = none := Option.not_isSome_iff_eq_none.mp hw
    exact ⟨(hs.addEngine engine).add hfree (by simp), _, registration?_add hfree _, rfl⟩

/-- Whatever chores are done, a wallet with an engine of its own is reached through it. -/
theorem afterChores_reached (hs : s.Sound) (h : (load w engine).exec s = (.ok n, s'))
    (chores : List (WalletId × Chore)) :
    (∃ e, (s'.afterChores chores).engines[n]? = some e) ∧
      ∀ r, (s'.afterChores chores).registration? w = some r → r.access.engine = n := by
  obtain ⟨hs', r, hr, rfl⟩ := load_exec_ok hs h
  obtain ⟨hsame, hsound⟩ := afterChores_same hs' chores
  have haccess := hsame.accessOf? w
  rw [hr] at haccess
  obtain ⟨r', hr', haccess'⟩ := Option.map_eq_some_iff.mp haccess
  have hengine : r'.access.engine = r.access.engine := congrArg Access.engine haccess'
  refine ⟨hengine ▸ hsound.engine hr', fun r'' hr'' => ?_⟩
  cases hr'.symm.trans hr''
  exact hengine

end Purse.Registry
