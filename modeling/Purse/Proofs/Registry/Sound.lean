import Mathlib.Data.List.Nodup
import Purse.Keyed
import Purse.Proofs.Interference
import Purse.Proofs.Registry.Alone

/-!
# What every registry is like

A registry refers to its parts by number. `Sound` says that the numbers are good: every
loaded wallet has a registration, no two wallets have the same one, and the engine of
every registration exists. A new registry is sound (`sound_new`), and the operations
keep it so in any company: `load_abides`, `share_abides`, `remove_abides`,
`call_abides`, `refresh_abides`. That engines are only ever added (`Grows`) is what a
wallet relies on that shares the engine of another.
-/

namespace Purse.Registry

variable {ε : Type} {s s' : Registry ε} {w : WalletId} {key n : Nat} {e : ε}

/-- The numbers by which a registry refers to its parts are good. -/
structure Sound (s : Registry ε) : Prop where
  registered : ∀ w key, s.key? w = some key → key < s.registrations.length
  apart : ∀ w w' key, s.key? w = some key → s.key? w' = some key → w = w'
  engines : ∀ r ∈ s.registrations, r.access.engine < s.engines.length

/-- Every loaded wallet has a registration of its own. -/
structure Owned (s : Registry ε) : Prop where
  registered : ∀ w key, s.key? w = some key → key < s.registrations.length
  apart : ∀ w w' key, s.key? w = some key → s.key? w' = some key → w = w'

theorem Sound.owned (hs : s.Sound) : s.Owned :=
  ⟨hs.registered, hs.apart⟩

/-- The engine of a loaded wallet. -/
theorem Sound.engine (hs : s.Sound) {r : Registration} (h : s.registration? w = some r) :
    ∃ e, s.engines[r.access.engine]? = some e := by
  obtain ⟨key, -, hr⟩ := Option.bind_eq_some_iff.mp h
  have hlt := hs.engines r (List.mem_of_getElem? hr)
  exact ⟨s.engines[r.access.engine], List.getElem?_eq_getElem hlt⟩

theorem sound_new {config : Config} (h : Registry.new config = .ok s) : s.Sound := by
  unfold Registry.new at h
  cases hv : config.validate with
  | error f =>
    rw [hv] at h
    cases h
  | ok u =>
    rw [hv] at h
    cases h
    exact ⟨by simp [key?], by simp [key?], by simp⟩

/-- The numbers are good if each wallet is listed with a registration of its own, and every
registration has an engine. -/
theorem sound_of_nodup (hkeys : (s.wallets.map (·.2)).Nodup)
    (hregistered : ∀ p ∈ s.wallets, p.2 < s.registrations.length)
    (hengines : ∀ r ∈ s.registrations, r.access.engine < s.engines.length) : s.Sound := by
  refine ⟨fun w key h => hregistered _ (Keyed.mem_of_lookup h), fun w w' key h h' => ?_, hengines⟩
  have hpair := List.inj_on_of_nodup_map hkeys (Keyed.mem_of_lookup h) (Keyed.mem_of_lookup h') rfl
  exact congrArg Prod.fst hpair

/-! ## Changes -/

theorem lookup_insertWallet {l : List (WalletId × Nat)} (h : l.lookup w = none) (key : Nat)
    (w' : WalletId) :
    (insertWallet w key l).lookup w' = if w' = w then some key else l.lookup w' := by
  induction l with
  | nil =>
    by_cases hw : w' = w
    · simp [insertWallet, hw]
    · simp [insertWallet, hw]
  | cons a rest ih =>
    unfold insertWallet
    have hne : (w == a.1) = false := by
      cases hw : w == a.1 with
      | false => rfl
      | true =>
        rw [List.lookup_cons, hw] at h
        cases h
    have hrest : rest.lookup w = none := by
      rw [List.lookup_cons, hne] at h
      exact h
    by_cases hlt : w < a.1
    · rw [if_pos hlt, List.lookup_cons]
      by_cases hw : w' = w
      · simp [hw]
      · rw [beq_false_of_ne hw, if_neg hw]
    · rw [if_neg hlt, List.lookup_cons, ih hrest, List.lookup_cons]
      by_cases hw : w' = w
      · subst hw
        rw [hne, if_pos rfl]
      · rw [if_neg hw, if_neg hw]

/-- A registration that is added has a number that no wallet has. -/
theorem Owned.add (ho : s.Owned) (hw : s.key? w = none) (access : Access) :
    (s.add w access).Owned := by
  have hkey : ∀ w', (s.add w access).key? w' =
      if w' = w then some s.registrations.length else s.key? w' := lookup_insertWallet hw _
  have hlength : (s.add w access).registrations.length = s.registrations.length + 1 := by
    show (s.registrations ++ [_]).length = _
    rw [List.length_append, List.length_singleton]
  constructor
  · intro w' key h
    rw [hkey] at h
    rw [hlength]
    by_cases hw' : w' = w
    · rw [if_pos hw'] at h
      cases h
      omega
    · rw [if_neg hw'] at h
      have hlt := ho.registered w' key h
      omega
  · intro w₁ w₂ key h₁ h₂
    rw [hkey] at h₁ h₂
    -- the new number is not one of the old ones
    by_cases hw₁ : w₁ = w
    · by_cases hw₂ : w₂ = w
      · exact hw₁.trans hw₂.symm
      · rw [if_pos hw₁] at h₁
        rw [if_neg hw₂] at h₂
        cases h₁
        have hlt := ho.registered w₂ _ h₂
        omega
    · rw [if_neg hw₁] at h₁
      by_cases hw₂ : w₂ = w
      · rw [if_pos hw₂] at h₂
        cases h₂
        have hlt := ho.registered w₁ _ h₁
        omega
      · rw [if_neg hw₂] at h₂
        exact ho.apart w₁ w₂ key h₁ h₂

theorem Sound.add (hs : s.Sound) (hw : s.key? w = none) {access : Access}
    (ha : access.engine < s.engines.length) : (s.add w access).Sound := by
  obtain ⟨hregistered, hapart⟩ := hs.owned.add hw access
  refine ⟨hregistered, hapart, fun r hr => ?_⟩
  have hr : r ∈ s.registrations ++ [{ access := access }] := hr
  rcases List.mem_append.mp hr with hr | hr
  · exact hs.engines r hr
  · rw [List.mem_singleton] at hr
    subst hr
    exact ha

/-- More engines do no harm. -/
theorem Sound.addEngine (hs : s.Sound) (e : ε) : { s with engines := s.engines ++ [e] }.Sound := by
  refine ⟨hs.registered, hs.apart, fun r hr => ?_⟩
  have hlt := hs.engines r hr
  show r.access.engine < (s.engines ++ [e]).length
  rw [List.length_append]
  omega

theorem Sound.withEngine (hs : s.Sound) (n : Nat) (e : ε) : (s.withEngine n e).Sound := by
  refine ⟨hs.registered, hs.apart, fun r hr => ?_⟩
  show r.access.engine < (s.engines.set n e).length
  rw [List.length_set]
  exact hs.engines r hr

theorem Owned.forget (ho : s.Owned) (w : WalletId) :
    { s with wallets := s.wallets.filter (·.1 ≠ w) }.Owned := by
  have hkey : ∀ w', Registry.key? { s with wallets := s.wallets.filter (·.1 ≠ w) } w' =
      if w' = w then none else s.key? w' := fun w' => Keyed.lookup_erase w w' s.wallets
  refine ⟨fun w' key h => ?_, fun w₁ w₂ key h₁ h₂ => ?_⟩
  · rw [hkey] at h
    by_cases hw : w' = w
    · rw [if_pos hw] at h
      cases h
    · rw [if_neg hw] at h
      exact ho.registered w' key h
  · rw [hkey] at h₁ h₂
    by_cases hw₁ : w₁ = w
    · rw [if_pos hw₁] at h₁
      cases h₁
    · by_cases hw₂ : w₂ = w
      · rw [if_pos hw₂] at h₂
        cases h₂
      · rw [if_neg hw₁] at h₁
        rw [if_neg hw₂] at h₂
        exact ho.apart w₁ w₂ key h₁ h₂

theorem Sound.forget (hs : s.Sound) (w : WalletId) :
    { s with wallets := s.wallets.filter (·.1 ≠ w) }.Sound := by
  obtain ⟨hregistered, hapart⟩ := hs.owned.forget w
  exact ⟨hregistered, hapart, hs.engines⟩

/-- Registrations may change as long as they are reached as before. -/
theorem Sound.of_access (hs : s.Sound) (hw : s'.wallets = s.wallets)
    (he : s'.engines = s.engines)
    (ha : s'.registrations.map (·.access) = s.registrations.map (·.access)) : s'.Sound := by
  have hkey : ∀ w, s'.key? w = s.key? w := fun w => congrArg (·.lookup w) hw
  have hlength := congrArg List.length ha
  rw [List.length_map, List.length_map] at hlength
  refine ⟨fun w key h => ?_, fun w₁ w₂ key h₁ h₂ => ?_, fun r hr => ?_⟩
  · rw [hlength]
    exact hs.registered w key ((hkey w).symm.trans h)
  · exact hs.apart w₁ w₂ key ((hkey w₁).symm.trans h₁) ((hkey w₂).symm.trans h₂)
  · have hmem : r.access ∈ s.registrations.map (·.access) := ha ▸ List.mem_map_of_mem hr
    obtain ⟨r', hr', hra⟩ := List.mem_map.mp hmem
    rw [he, ← hra]
    exact hs.engines r' hr'

theorem Sound.modifyRegistration (hs : s.Sound) (key : Nat) {f : Registration → Registration}
    (hf : ∀ r, (f r).access = r.access) : (s.modifyRegistration key f).Sound := by
  refine hs.of_access rfl rfl ?_
  show (s.registrations.modify key f).map _ = _
  refine List.ext_getElem? fun i => ?_
  rw [List.getElem?_map, List.getElem?_map, List.getElem?_modify, Option.map_eq_map, Option.map_map]
  by_cases hi : key = i
  · simp [hi, hf, Function.comp_def]
  · simp [hi, Function.comp_def]

theorem Sound.leave (hs : s.Sound) (ticket : Nat) : (s.leave ticket).Sound := by
  refine hs.of_access rfl rfl ?_
  show (s.registrations.map _).map _ = _
  rw [List.map_map]
  rfl

/-! ## Operations -/

/-- Engines are only added. -/
def Grows (s s' : Registry ε) : Prop :=
  s.engines.length ≤ s'.engines.length

instance : Std.Refl (Grows (ε := ε)) :=
  ⟨fun _ => Nat.le_refl _⟩

instance : Trans (Grows (ε := ε)) Grows Grows :=
  ⟨Nat.le_trans⟩

section Operations

variable {α : Type}

theorem onEngine_abides (n : Nat) (missing : α) (f : ε → α × ε) :
    (onEngine n missing f : Flow Wait (Registry ε) α).Abides Sound Grows := by
  intro s hs
  refine .done ?_ ?_
  · dsimp only
    split
    · exact hs
    · exact hs.withEngine n _
  · dsimp only
    split
    · exact Std.Refl.refl s
    · exact Nat.le_of_eq List.length_set.symm

/-- A wallet that is found is in the registry at that moment. -/
theorem entry_ends {w : WalletId} {key : Nat} {r : Registration}
    (h : ((entry w : Op ε (Nat × Registration)).run s).Ends (.ok (key, r)) s') :
    s'.registration? w = some r := by
  unfold entry at h
  obtain ⟨s₁, h⟩ := Op.pauseFor_ends h
  replace h := Op.read_ends h
  cases hk : s₁.key? w with
  | none =>
    rw [hk] at h
    cases h
  | some key =>
    cases hr : s₁.registration? w with
    | none =>
      rw [hk, hr] at h
      cases h
    | some r =>
      rw [hk, hr] at h
      cases h
      exact hr

theorem entry_abides (w : WalletId) : (entry w : Op ε (Nat × Registration)).Abides Sound Grows := by
  unfold entry
  refine .bind (.pauseFor _) fun _ => .read fun s hs => ?_
  split
  · exact .done hs (Std.Refl.refl s)
  · exact .done hs (Std.Refl.refl s)

theorem share_abides (w other : WalletId) : (share w other : Op ε Unit).Abides Sound Grows := by
  unfold share access
  intro s hs
  refine ((entry_abides other).bind fun r => .pure r.2.access) s hs |>.bind ?_
  intro o s₁ hs₁ hends
  cases o with
  | error f => exact .done hs₁ (Std.Refl.refl s₁)
  | ok a =>
    -- the engine was there when the other wallet was found
    have ha : a.engine < s₁.engines.length := by
      obtain ⟨o', s', hentry, hdone⟩ := Turns.ends_bind hends
      cases o' with
      | error f => cases hdone
      | ok kr =>
        cases hdone
        obtain ⟨e, he⟩ := hs₁.engine (entry_ends hentry)
        exact (List.getElem?_eq_some_iff.mp he).1
    -- the other wallet may be gone by now, its engine is not
    refine .pause hs₁ (Std.Refl.refl s₁) fun s₂ hs₂ hgrows => ?_
    show (ExceptT.run (ite ((s₂.key? w).isSome = true) _ _ : Op ε Unit) s₂).Abides Sound Grows s₂
    by_cases hw : (s₂.key? w).isSome
    · rw [if_pos hw]
      exact .done hs₂ (Std.Refl.refl s₂)
    · rw [if_neg hw]
      have hadd := hs₂.add (Option.not_isSome_iff_eq_none.mp hw) (Nat.lt_of_lt_of_le ha hgrows)
      exact .done hadd (Nat.le_refl _)

theorem remove_abides (w : WalletId) : (remove w : Op ε Unit).Abides Sound Grows := by
  unfold remove
  refine .bind (.pauseFor _) fun _ => .read fun s hs => ?_
  by_cases hw : (s.key? w).isNone
  · rw [if_pos hw]
    exact .done hs (Std.Refl.refl s)
  · rw [if_neg hw]
    exact .done (hs.forget w) (Nat.le_refl _)

variable [Engine ε]

theorem load_abides (w : WalletId) (engine : ε) : (load w engine).Abides Sound Grows := by
  unfold load
  refine .bind (.pauseFor _) fun _ => .read fun s hs => ?_
  by_cases hw : (s.key? w).isSome
  · rw [if_pos hw]
    exact .done hs (Std.Refl.refl s)
  · rw [if_neg hw]
    refine .done ((hs.addEngine engine).add ?_ ?_) ?_
    · exact Option.not_isSome_iff_eq_none.mp hw
    · simp
    · simp [Grows, Registry.add]

theorem ask_abides (n : Nat) (c : Call) :
    (ask n c : Flow Wait (Registry ε) (Except EngineError c.Answer)).Abides Sound Grows := by
  unfold ask
  refine .bind (onEngine_abides n _ _) fun refusal => .bind (.pause _) fun _ => ?_
  cases refusal with
  | some refusal => exact .pure _
  | none =>
    refine .bind (onEngine_abides n _ _) fun passage => ?_
    cases passage.givesWay with
    | true => exact .bind (.pause _) fun _ => .bind (.pause _) fun _ => onEngine_abides n _ _
    | false => exact .bind (.pause _) fun _ => onEngine_abides n _ _

theorem call_abides (a : Access) (c : Call) : (call a c : Op ε c.Answer).Abides Sound Grows :=
  Flow.Abides.bind (ask_abides a.engine c) fun _ => .pure _

theorem price_abides (w : WalletId) (a : Access) (info : AccountInfo) :
    (price w a info : Op ε Account).Abides Sound Grows := by
  unfold price accountBalance accept
  refine .read fun s hs => ?_
  exact Op.Abides.bind (.bind (call_abides a _) fun _ => .conclude _) (fun _ => .pure _) s hs

theorem rebuild_abides (w : WalletId) (key : Nat) (a : Access) :
    (rebuild w key a : Op ε Accounts).Abides Sound Grows := by
  unfold rebuild listAccounts
  refine .bind (.bind (call_abides a _) fun _ => .pure _) fun listing => ?_
  refine .bind (.mapM (price_abides w a) _) fun accounts => ?_
  refine .bind (.pauseFor _) fun _ => .bind (.write ?_ fun s => Nat.le_refl _) fun _ => .pure _
  exact fun s hs => hs.modifyRegistration key fun _ => rfl

theorem refresh_abides (ticket : Nat) (w : WalletId) :
    (refresh ticket w : Op ε Accounts).Abides Sound Grows := by
  unfold refresh
  refine .bind (entry_abides w) fun r => .bind ?_ fun _ => ?_
  · unfold acquire
    refine .bind (.pauseFor _) fun _ => .bind (.write ?_ fun s => Nat.le_refl _) fun _ => .pauseFor _
    exact fun s hs => hs.modifyRegistration r.1 fun _ => rfl
  · refine .bind (.attempt (rebuild_abides w r.1 r.2.access)) fun outcome => ?_
    exact .bind (.write (fun s hs => hs.leave ticket) fun s => Nat.le_refl _) fun _ => .conclude outcome

end Operations

end Purse.Registry
