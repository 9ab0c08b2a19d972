import Purse.Proofs.Registry.Refresh
import Purse.Proofs.Relay.Announcement

/-!
# Turns that leave the pictures

Most turns touch no picture in the registry. Whoever asks an engine changes engines only
(`EnginesOnly`), a refresh that fails changes no picture, and one that succeeds changes
pictures in its last turn only, by putting up what it returns (`refresh_untouched`). The
same with nobody in between is `refresh_exec_error`.
-/

namespace Purse

/-- The turns before the last one have left a pause. -/
theorem Flow.Course.before {ω σ α : Type} {x : Flow ω σ α} {ts : List (Turn ω σ)} {τ : Turn ω σ}
    {t : Turns ω σ α} (h : x.Course (ts ++ [τ]) t) (hne : ts ≠ []) :
    ∃ w s resume, x.Course ts (.pause w s resume) := by
  generalize hts : ts ++ [τ] = turns at h
  cases h with
  | first =>
    obtain ⟨rfl, -⟩ := eq_of_concat [] hts
    exact absurd rfl hne
  | next h s' =>
    obtain ⟨rfl, -⟩ := List.append_inj' hts rfl
    exact ⟨_, _, _, h⟩

/-- With nobody in between all turns together stay within the relation. -/
theorem Flow.Within.run {σ α : Type} {P : Wait → Prop} {R : σ → σ → Prop} [htrans : Trans R R R]
    {x : Flow Wait σ α} (h : x.Within P R) (s : σ) : R s (x.run s).2 := by
  unfold Flow.run
  generalize hx : x s = t
  induction t generalizing x s with
  | done a s' =>
    have hfirst := (h _ _ (.first .answer s)).1 _ (List.mem_singleton_self _)
    rw [hx] at hfirst
    exact hfirst
  | pause w s' resume ih =>
    have hfirst := (h _ _ (.first .answer s)).1 _ (List.mem_singleton_self _)
    rw [hx] at hfirst
    exact htrans.trans hfirst (ih s' (h.resume hx) s' rfl)

namespace Registry

variable {ε : Type} {s s' : Registry ε} {w : WalletId} {ticket : Nat}

/-- Nothing but engines has changed. -/
structure EnginesOnly (s s' : Registry ε) : Prop where
  registrations : s'.registrations = s.registrations
  wallets : s'.wallets = s.wallets

instance : Std.Refl (EnginesOnly (ε := ε)) :=
  ⟨fun _ => ⟨rfl, rfl⟩⟩

instance : Trans (EnginesOnly (ε := ε)) EnginesOnly EnginesOnly where
  trans h h' := ⟨h'.registrations.trans h.registrations, h'.wallets.trans h.wallets⟩

theorem EngineOnly.enginesOnly {n : Nat} (h : EngineOnly n s s') : EnginesOnly s s' :=
  ⟨h.registrations, h.wallets⟩

theorem EnginesOnly.picture (h : EnginesOnly s s') (key : Nat) :
    s'.picture key = s.picture key := by
  unfold Registry.picture
  rw [h.registrations]

theorem EnginesOnly.snapshot? (h : EnginesOnly s s') (w : WalletId) :
    s'.snapshot? w = s.snapshot? w := by
  have hkey : s'.key? w = s.key? w := congrArg (·.lookup w) h.wallets
  rw [snapshot?_eq_picture, snapshot?_eq_picture, hkey]
  exact congrArg (s.key? w).bind (funext h.picture)

/-- The turns have changed no picture. -/
def Untouched (ts : List (Turn Wait (Registry ε))) : Prop :=
  ∀ τ ∈ ts, ∀ key, τ.left.picture key = τ.found.picture key

theorem Untouched.cons {τ : Turn Wait (Registry ε)} {ts : List (Turn Wait (Registry ε))}
    (hτ : ∀ key, τ.left.picture key = τ.found.picture key) (h : Untouched ts) :
    Untouched (τ :: ts) := by
  intro τ' hτ'
  rcases List.mem_cons.mp hτ' with rfl | hτ'
  · exact hτ
  · exact h τ' hτ'

/-- Turns that change nothing but engines change no picture. -/
theorem untouched_of_within {α : Type} {P : Wait → Prop} {x : Op ε α}
    (hx : x.Within P EnginesOnly) {ts : List (Turn Wait (Registry ε))}
    {t : Turns Wait (Registry ε) (Outcome α)} (h : x.run.Course ts t) : Untouched ts :=
  fun τ hτ => ((hx ts t h).1 τ hτ).picture

variable [Engine ε]

/-! ## A refresh in company -/

/-- A refresh that succeeds has put its picture up in its last turn, and changed no
picture before. -/
theorem refresh_untouched {ts : List (Turn Wait (Registry ε))} {τ : Turn Wait (Registry ε)}
    {p : Accounts} (h : (refresh ticket w).run.Course (ts ++ [τ]) (.done (.ok p) s)) :
    Untouched ts ∧ ∃ key r, FoundAs w key r ts ∧
      ∀ k, τ.left.picture k = (τ.found.putUp key p).picture k := by
  generalize ht : Turns.done _ s = t at h
  cases refresh_turn h with
  | begins | finds | linesUp | asks => cases ht
  | misses | fails => cases ht
  | @succeeds key r _ hlength hfound hleft =>
    cases ht
    refine ⟨?_, key, r, hfound, fun k => by rw [hleft, picture_leave]⟩
    have hne : ts ≠ [] := by
      rintro rfl
      cases hlength
    obtain ⟨_, _, _, hbefore⟩ := h.before hne
    rcases refresh_pictures hbefore with hsame | ⟨_, _, heq⟩
    · exact hsame
    · cases heq

/-! ## A refresh alone -/

/-- A refresh that fails leaves all pictures. -/
theorem refresh_exec_error {f : Failure} (h : (refresh ticket w).exec s = (.error f, s'))
    (w' : WalletId) : s'.snapshot? w' = s.snapshot? w' := by
  cases hr : s.registration? w with
  | none =>
    have hmissing : (refresh ticket w).exec s = (.error (.notFound (.wallet w)), s) :=
      exec_bind_error (entry_exec_none hr) _
    cases h.symm.trans hmissing
    rfl
  | some r =>
    obtain ⟨key, hkey, -⟩ := Option.bind_eq_some_iff.mp hr
    have hlined : (s.lineUp key ticket).snapshot? w' = s.snapshot? w' :=
      snapshot?_modify_of (f := fun r => { r with line := r.line ++ [ticket] }) (fun _ => rfl) key
    rw [refresh_exec_eq hkey hr] at h
    cases he : s.engines[r.access.engine]? with
    | none =>
      have hmissing : (s.lineUp key ticket).engines[r.access.engine]? = none := he
      rw [rebuild_exec_none w key r.access hmissing] at h
      cases h
      rw [snapshot?_leave, hlined]
    | some e =>
      have hthere : (s.lineUp key ticket).engines[r.access.engine]? = some e := he
      obtain ⟨xs, e', o, -, -, hrebuild⟩ := rebuild_exec w key r.access hthere
      rw [hrebuild] at h
      cases o with
      | ok p => cases h
      | error f =>
        cases h
        rw [snapshot?_leave, ← hlined]
        rfl

/-- A refresh that succeeds has asked for all there is to know. -/
theorem refresh_exec_complete {p : Accounts} (h : (refresh ticket w).exec s = (.ok p, s')) :
    ∃ r xs, s.registration? w = some r ∧
      Refreshing w r.access.scope s.config.effectiveConfirmations xs (.ok p) := by
  cases hr : s.registration? w with
  | none =>
    have hmissing : (refresh ticket w).exec s = (.error (.notFound (.wallet w)), s) :=
      exec_bind_error (entry_exec_none hr) _
    cases h.symm.trans hmissing
  | some r =>
    obtain ⟨key, hkey, -⟩ := Option.bind_eq_some_iff.mp hr
    rw [refresh_exec_eq hkey hr] at h
    cases he : s.engines[r.access.engine]? with
    | none =>
      have hmissing : (s.lineUp key ticket).engines[r.access.engine]? = none := he
      rw [rebuild_exec_none w key r.access hmissing] at h
      cases h
    | some e =>
      have hthere : (s.lineUp key ticket).engines[r.access.engine]? = some e := he
      obtain ⟨xs, e', o, -, hrefreshing, hrebuild⟩ := rebuild_exec w key r.access hthere
      rw [hrebuild] at h
      cases o with
      | error f => cases h
      | ok p' =>
        cases h
        exact ⟨r, xs, rfl, hrefreshing⟩

end Registry

end Purse
