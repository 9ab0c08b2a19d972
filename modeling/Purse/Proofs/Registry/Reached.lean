import Purse.Proofs.Registry.Sound
import Purse.Proofs.Registry.Course

/-!
# Registries that come about

A registry comes about when a new one is worked on: wallets are loaded, also with the engine of
another one, removed and refreshed. `Reached` lets such works go on in any order, turn by turn,
while engines do whatever they do.

Every turn of such a work keeps the wallets in ascending order (`Work.within`), since it leaves
them alone, takes one out or puts a new one in its place. Soundness is kept in company
(`Work.abides`). So whatever is reached is sound, with wallets in ascending order
(`Reached.sound`, `Reached.ascending`).
-/

namespace Purse.Registry

variable {ε : Type} {s s' : Registry ε} {w : WalletId}

/-! ## The order of the wallets -/

/-- The wallets stand in ascending order, no one twice. -/
def Ascending (s : Registry ε) : Prop :=
  (s.wallets.map (·.1)).Pairwise (· < ·)

/-- Wallets in ascending order stay so. -/
def Rises (s s' : Registry ε) : Prop :=
  s.Ascending → s'.Ascending

instance : Std.Refl (Rises (ε := ε)) :=
  ⟨fun _ h => h⟩

instance : Trans (Rises (ε := ε)) Rises Rises :=
  ⟨fun h h' hs => h' (h hs)⟩

theorem rises_of_wallets (h : s'.wallets = s.wallets) : Rises s s' := by
  unfold Rises Ascending
  rw [h]
  exact id

theorem mem_insertWallet {key : Nat} {l : List (WalletId × Nat)} {v : WalletId} :
    v ∈ (insertWallet w key l).map (·.1) ↔ v = w ∨ v ∈ l.map (·.1) := by
  induction l with
  | nil => simp [insertWallet]
  | cons e rest ih =>
    unfold insertWallet
    split
    · simp
    · simp only [List.map_cons, List.mem_cons, ih]
      exact or_left_comm

theorem ascending_insertWallet {key : Nat} {l : List (WalletId × Nat)}
    (h : (l.map (·.1)).Pairwise (· < ·)) (hw : l.lookup w = none) :
    ((insertWallet w key l).map (·.1)).Pairwise (· < ·) := by
  induction l with
  | nil => exact List.pairwise_singleton _ _
  | cons e rest ih =>
    obtain ⟨hhead, hrest⟩ := List.pairwise_cons.mp h
    rw [Keyed.lookup_eq_none_iff, List.map_cons] at hw
    obtain ⟨hne, hnew⟩ := List.ne_and_not_mem_of_not_mem_cons hw
    unfold insertWallet
    split
    · next hlt =>
      refine List.pairwise_cons.mpr ⟨fun v hv => ?_, h⟩
      rcases List.mem_cons.mp hv with rfl | hv
      · exact hlt
      · exact UInt32.lt_trans hlt (hhead v hv)
    · next hge =>
      refine List.pairwise_cons.mpr ⟨fun v hv => ?_, ih hrest (Keyed.lookup_eq_none_iff.mpr hnew)⟩
      rcases mem_insertWallet.mp hv with rfl | hv
      · exact UInt32.lt_of_le_of_ne (UInt32.not_lt.mp hge) hne.symm
      · exact hhead v hv

theorem rises_add (h : s.key? w = none) (access : Access) : Rises s (s.add w access) :=
  fun hs => ascending_insertWallet hs h

theorem rises_forget (s : Registry ε) (w : WalletId) :
    Rises s { s with wallets := s.wallets.filter (·.1 ≠ w) } :=
  fun hs => List.Pairwise.sublist (List.filter_sublist.map _) hs

theorem ascending_new {config : Config} (h : Registry.new config = .ok s) : s.Ascending := by
  unfold Registry.new at h
  cases hv : config.validate with
  | error f =>
    rw [hv] at h
    cases h
  | ok u =>
    rw [hv] at h
    cases h
    exact List.Pairwise.nil

/-! ## Works -/

/-- What is done to the wallets of a registry. -/
inductive Work (ε : Type) where
  | load (w : WalletId) (engine : ε)
  | share (w other : WalletId)
  | remove (w : WalletId)
  | refresh (ticket : Nat) (w : WalletId)

variable [Engine ε]

def Work.op : Work ε → Op ε Unit
  | load w engine => do
    let _ ← Registry.load w engine
  | share w other => Registry.share w other
  | remove w => Registry.remove w
  | refresh ticket w => do
    let _ ← Registry.refresh ticket w

omit [Engine ε] in
theorem modify_within {f : Registry ε → Registry ε} (h : ∀ s, (f s).wallets = s.wallets) :
    (modify f : Op ε PUnit).Within (fun _ => True) Rises :=
  Flow.Within.bind (Flow.Within.change (f := fun s => (PUnit.unit, f s))
    fun s => rises_of_wallets (h s)) fun _ => .pure _

theorem refresh_within (ticket : Nat) (w : WalletId) :
    (refresh ticket w : Op ε Accounts).Within (fun _ => True) Rises := by
  unfold refresh
  refine .bind (entry_within trivial w) fun kr => .bind ?_ fun _ => .bind ?_ fun outcome =>
    .bind (modify_within fun _ => rfl) fun _ => .conclude outcome
  · unfold acquire
    exact .bind (.pauseFor trivial) fun _ =>
      .bind (modify_within fun _ => rfl) fun _ => .pauseFor trivial
  · have hrebuild : (rebuild w kr.1 kr.2.access : Op ε Accounts).Within (fun _ => True) Rises := by
      rw [rebuild_eq]
      refine .bind ?_ fun p => ?_
      · exact (survey_within w kr.2.access).mono (fun _ _ => trivial) fun _ _ h =>
          rises_of_wallets h.wallets
      · exact .bind (.pauseFor trivial) fun _ => .bind (modify_within fun _ => rfl) fun _ => .pure _
    exact Flow.Within.bind hrebuild fun _ => .pure _

theorem load_within (w : WalletId) (engine : ε) :
    (load w engine).Within (fun _ => True) Rises := by
  unfold load
  refine .bind (.pauseFor trivial) fun _ => .once fun s => ?_
  by_cases hw : (s.key? w).isSome
  · rw [if_pos hw]
    exact ⟨_, _, rfl, Std.Refl.refl s⟩
  · rw [if_neg hw]
    refine ⟨_, _, rfl, fun hs => ?_⟩
    exact ascending_insertWallet hs (Option.not_isSome_iff_eq_none.mp hw)

omit [Engine ε] in
theorem share_within (w other : WalletId) :
    (share w other : Op ε Unit).Within (fun _ => True) Rises := by
  unfold share access
  refine .bind (.bind (entry_within trivial other) fun r => .pure _) fun a =>
    .bind (.pauseFor trivial) fun _ => .once fun s => ?_
  by_cases hw : (s.key? w).isSome
  · rw [if_pos hw]
    exact ⟨_, _, rfl, Std.Refl.refl s⟩
  · rw [if_neg hw]
    refine ⟨_, _, rfl, ?_⟩
    exact rises_add (Option.not_isSome_iff_eq_none.mp hw) _

omit [Engine ε] in
theorem remove_within (w : WalletId) : (remove w : Op ε Unit).Within (fun _ => True) Rises := by
  unfold remove
  refine .bind (.pauseFor trivial) fun _ => .once fun s => ?_
  by_cases hw : (s.key? w).isNone
  · rw [if_pos hw]
    exact ⟨_, _, rfl, Std.Refl.refl s⟩
  · rw [if_neg hw]
    exact ⟨_, _, rfl, rises_forget s w⟩

/-- Every turn of a work leaves ascending wallets ascending. -/
theorem Work.within (x : Work ε) : x.op.Within (fun _ => True) Rises := by
  cases x with
  | load w engine => exact .bind (load_within w engine) fun _ => .pure _
  | share w other => exact share_within w other
  | remove w => exact remove_within w
  | refresh ticket w => exact .bind (refresh_within ticket w) fun _ => .pure _

/-- A work keeps a registry sound in any company. -/
theorem Work.abides (x : Work ε) : x.op.Abides Sound Grows := by
  cases x with
  | load w engine => exact .bind (load_abides w engine) fun _ => .pure _
  | share w other => exact share_abides w other
  | remove w => exact remove_abides w
  | refresh ticket w => exact .bind (refresh_abides ticket w) fun _ => .pure _

/-! ## Works on a new registry -/

/-- What works can make of a new registry, with what is left of those that are under way. Any
of them may go on next. -/
inductive Reached (config : Config) :
    Registry ε → List (Flow Wait (Registry ε) (Outcome Unit)) → Prop
  | new {s : Registry ε} (h : Registry.new config = .ok s) : Reached config s []
  | begins {s : Registry ε} {xs : List (Flow Wait (Registry ε) (Outcome Unit))}
      (h : Reached config s xs) (x : Work ε) : Reached config s (xs ++ [x.op.run])
  | goesOn {s s' : Registry ε} {pre post : List (Flow Wait (Registry ε) (Outcome Unit))}
      {x x' : Flow Wait (Registry ε) (Outcome Unit)} {w : Wait}
      (h : Reached config s (pre ++ x :: post)) (hx : x s = .pause w s' x') :
      Reached config s' (pre ++ x' :: post)
  | ends {s s' : Registry ε} {pre post : List (Flow Wait (Registry ε) (Outcome Unit))}
      {x : Flow Wait (Registry ε) (Outcome Unit)} {o : Outcome Unit}
      (h : Reached config s (pre ++ x :: post)) (hx : x s = .done o s') :
      Reached config s' (pre ++ post)
  /-- Engines change by themselves. -/
  | changes {s : Registry ε} {xs : List (Flow Wait (Registry ε) (Outcome Unit))}
      (h : Reached config s xs) (n : Nat) (e : ε) : Reached config (s.withEngine n e) xs

omit [Engine ε] in
theorem state_within {R : Registry ε → Registry ε → Prop} {x : Flow Wait (Registry ε) (Outcome Unit)}
    (h : x.Within (fun _ => True) R) (s : Registry ε) : R s (x s).state :=
  (h _ _ (.first .look s)).1 _ (List.mem_singleton_self _)

namespace Reached

variable {config : Config} {xs : List (Flow Wait (Registry ε) (Outcome Unit))}

/-- The wallets are in ascending order, and every work under way will leave them so. -/
theorem rising (h : Reached config s xs) :
    s.Ascending ∧ ∀ x ∈ xs, x.Within (fun _ => True) Rises := by
  induction h with
  | new h => exact ⟨ascending_new h, by simp⟩
  | begins _ x ih =>
    exact ⟨ih.1, List.forall_mem_append.mpr ⟨ih.2, List.forall_mem_singleton.mpr x.within⟩⟩
  | @goesOn s s' pre post x x' w _ hx ih =>
    obtain ⟨hs, hall⟩ := ih
    obtain ⟨hpre, hcons⟩ := List.forall_mem_append.mp hall
    obtain ⟨hwithin, hpost⟩ := List.forall_mem_cons.mp hcons
    have hturn := state_within hwithin s
    rw [hx] at hturn
    exact ⟨hturn hs, List.forall_mem_append.mpr
      ⟨hpre, List.forall_mem_cons.mpr ⟨hwithin.resume hx, hpost⟩⟩⟩
  | @ends s s' pre post x o _ hx ih =>
    obtain ⟨hs, hall⟩ := ih
    obtain ⟨hpre, hcons⟩ := List.forall_mem_append.mp hall
    obtain ⟨hwithin, hpost⟩ := List.forall_mem_cons.mp hcons
    have hturn := state_within hwithin s
    rw [hx] at hturn
    exact ⟨hturn hs, List.forall_mem_append.mpr ⟨hpre, hpost⟩⟩
  | changes _ n e ih => exact ih

/-- From where it was left, the work keeps registries sound. -/
def Abiding (s : Registry ε) (x : Flow Wait (Registry ε) (Outcome Unit)) : Prop :=
  ∃ s₀, Grows s₀ s ∧ ∀ s₁, s₁.Sound → Grows s₀ s₁ → (x s₁).Abides Sound Grows s₁

omit [Engine ε] in
theorem Abiding.grows {x : Flow Wait (Registry ε) (Outcome Unit)} (h : Abiding s x)
    (hg : Grows s s') : Abiding s' x := by
  obtain ⟨s₀, hs₀, hx⟩ := h
  exact ⟨s₀, Nat.le_trans hs₀ hg, hx⟩

/-- The registry is sound, and every work under way will leave it so, whatever the others do
in the meantime. -/
theorem abiding (h : Reached config s xs) : s.Sound ∧ ∀ x ∈ xs, Abiding s x := by
  induction h with
  | new h => exact ⟨sound_new h, by simp⟩
  | @begins s _ _ x ih =>
    have hx : Abiding s x.op.run := ⟨s, Nat.le_refl _, fun s₁ hs₁ _ => x.abides s₁ hs₁⟩
    exact ⟨ih.1, List.forall_mem_append.mpr ⟨ih.2, List.forall_mem_singleton.mpr hx⟩⟩
  | @goesOn s s' pre post x x' w _ hx ih =>
    obtain ⟨hs, hall⟩ := ih
    obtain ⟨hpre, hcons⟩ := List.forall_mem_append.mp hall
    obtain ⟨⟨s₀, hs₀, hturn⟩, hpost⟩ := List.forall_mem_cons.mp hcons
    have habides := hturn s hs hs₀
    rw [hx] at habides
    cases habides with
    | pause hs' hg hrest =>
      refine ⟨hs', List.forall_mem_append.mpr ⟨fun y hy => (hpre y hy).grows hg,
        List.forall_mem_cons.mpr ⟨⟨s', Nat.le_refl _, hrest⟩, fun y hy => (hpost y hy).grows hg⟩⟩⟩
  | @ends s s' pre post x o _ hx ih =>
    obtain ⟨hs, hall⟩ := ih
    obtain ⟨hpre, hcons⟩ := List.forall_mem_append.mp hall
    obtain ⟨⟨s₀, hs₀, hturn⟩, hpost⟩ := List.forall_mem_cons.mp hcons
    have habides := hturn s hs hs₀
    rw [hx] at habides
    cases habides with
    | done hs' hg =>
      exact ⟨hs', List.forall_mem_append.mpr
        ⟨fun y hy => (hpre y hy).grows hg, fun y hy => (hpost y hy).grows hg⟩⟩
  | @changes s _ _ n e ih =>
    have hg : Grows s (s.withEngine n e) := Nat.le_of_eq List.length_set.symm
    exact ⟨ih.1.withEngine n e, fun x hx => (ih.2 x hx).grows hg⟩

theorem sound (h : Reached config s xs) : s.Sound :=
  h.abiding.1

theorem ascending (h : Reached config s xs) : s.Ascending :=
  h.rising.1

/-- A work may go on to its end with nobody in between. -/
theorem finish {pre post : List (Flow Wait (Registry ε) (Outcome Unit))}
    {x : Flow Wait (Registry ε) (Outcome Unit)} (h : Reached config s (pre ++ x :: post)) :
    Reached config (x.run s).2 (pre ++ post) := by
  unfold Flow.run
  generalize ht : x s = t
  induction t generalizing s x with
  | done o s' => exact h.ends ht
  | pause w s' resume ih => exact ih s' (h.goesOn ht) rfl

/-- What works make of a registry if they are done one after another. -/
theorem inTurn (works : List (Work ε)) (h : Reached config s xs) :
    Reached config (works.foldl (fun s x => (x.op.exec s).2) s) xs := by
  induction works generalizing s with
  | nil => exact h
  | cons x works ih =>
    have hbegun := h.begins x
    have hdone := hbegun.finish
    rw [List.append_nil] at hdone
    exact ih hdone

end Reached

end Purse.Registry
