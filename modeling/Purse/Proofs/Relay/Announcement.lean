import Mathlib.Data.List.Basic
import Purse.Proofs.Registry.Course
import Purse.Relay

/-!
# What pages are told about a refresh

`refreshEvents` refreshes a wallet, may ask whether its mixer runs, and ends with what the
pages are told. `Announces` says what that is, from the turns that it had: a failure has
touched no picture; after a success the picture of the registration that was found is the
new one, and whether the mixer runs is the engine's own word.

Main statement: `announces`. It needs no more of others than that registrations last.
-/

namespace Purse

namespace Registry

variable {ε : Type} {s s' : Registry ε} {ticket : Nat} {w : WalletId}

/-! ## Registrations that last -/

/-- Every registration is reached as before. -/
def Lasts (s s' : Registry ε) : Prop :=
  ∀ key a, s.access? key = some a → s'.access? key = some a

instance : Trans (Lasts (ε := ε)) Lasts Lasts where
  trans h₁ h₂ := fun key a h => h₂ key a (h₁ key a h)

/-- All registrations are what they were, pictures and lines included. -/
def SameRegistrations (s s' : Registry ε) : Prop :=
  s'.registrations = s.registrations

instance : Std.Refl (SameRegistrations (ε := ε)) := ⟨fun _ => rfl⟩

instance : Trans (SameRegistrations (ε := ε)) SameRegistrations SameRegistrations where
  trans h₁ h₂ := h₂.trans h₁

theorem SameRegistrations.lasts (h : SameRegistrations s s') : Lasts s s' := fun key a ha => by
  unfold access? at ha ⊢
  rwa [h]

variable [Engine ε]

/-! ## Pictures -/

/-- Only the last turn of a success changes pictures. -/
theorem Deed.picture {ts : List (Turn Wait (Registry ε))} {τ : Turn Wait (Registry ε)}
    {t : Turns Wait (Registry ε) (Outcome Accounts)} (h : Deed ticket w ts τ t) :
    (∀ k, τ.left.picture k = τ.found.picture k) ∨ ∃ p, t = .done (.ok p) τ.left := by
  cases h with
  | begins _ hleft | misses _ hleft | finds _ hleft => exact Or.inl fun k => by rw [hleft]
  | linesUp _ _ hleft => exact Or.inl fun k => by rw [hleft, picture_lineUp]
  | asks _ _ he => exact Or.inl he.picture
  | fails _ _ he hleft => exact Or.inl fun k => by rw [hleft, picture_leave, he.picture]
  | succeeds => exact Or.inr ⟨_, rfl⟩

/-- A refresh that has not succeeded has changed no picture. -/
theorem refresh_pictures {ts : List (Turn Wait (Registry ε))}
    {t : Turns Wait (Registry ε) (Outcome Accounts)} (h : (refresh ticket w).run.Course ts t) :
    (∀ τ ∈ ts, ∀ k, τ.left.picture k = τ.found.picture k) ∨ ∃ p s, t = .done (.ok p) s := by
  induction h with
  | first wait s =>
    have hdeed : Deed ticket w [] ⟨wait, s, _⟩ _ := refresh_turn (.first wait s)
    rcases hdeed.picture with hsame | ⟨p, heq⟩
    · refine Or.inl fun τ hτ => ?_
      obtain rfl := List.mem_singleton.mp hτ
      exact hsame
    · exact Or.inr ⟨p, _, heq⟩
  | next h s' ih =>
    rcases ih with hsame | ⟨_, _, heq⟩
    · rcases (refresh_turn (h.next s')).picture with hlast | ⟨p, heq⟩
      · refine Or.inl fun τ hτ => ?_
        rcases List.mem_append.mp hτ with hτ | hτ
        · exact hsame τ hτ
        · obtain rfl := List.mem_singleton.mp hτ
          exact hlast
      · exact Or.inr ⟨p, _, heq⟩
    · cases heq

/-- A success has put its picture up in the registration that it has found. -/
theorem refresh_putsUp {ts : List (Turn Wait (Registry ε))} {p : Accounts}
    (h : (refresh ticket w).run.Course ts (.done (.ok p) s))
    (hlasts : (ts.map (·.found)).Pairwise Lasts) :
    ∃ key r, FoundAs w key r ts ∧ s.picture key = some p := by
  obtain ⟨ts, τ, rfl⟩ := (List.eq_nil_or_concat' ts).resolve_left h.ne_nil
  have hleft : τ.left = s := h.left
  subst hleft
  generalize ht : Turns.done _ _ = t at h
  cases refresh_turn h with
  | begins | finds | linesUp | asks => cases ht
  | misses | fails => cases ht
  | @succeeds key r _ hlength hfound hleft =>
    cases ht
    refine ⟨key, r, hfound.append _, ?_⟩
    obtain ⟨τ₁, hτ₁, hfind⟩ := hfound
    -- the registration is still there when the picture is put up
    have hthere : τ.found.access? key = some r.access := by
      rw [List.map_append, List.pairwise_append] at hlasts
      refine hlasts.2.2 _ (List.mem_map_of_mem (List.mem_of_getElem? hτ₁)) _
        (List.mem_singleton_self _) key r.access ?_
      unfold access?
      rw [(find_ok hfind).2]
      rfl
    rw [hleft, picture_leave, picture_putUp hthere, if_pos rfl]

/-! ## Whether the mixer runs -/

/-- It is known of the wallet whether its mixer runs: a Bitcoin wallet has none, and of
others the engine has told. -/
def KnownMixer (w : WalletId) (running : Bool) (ts : List (Turn Wait (Registry ε))) : Prop :=
  ∃ key r, FoundAs w key r ts ∧
    match r.access.asset with
    | .btc => running = false
    | .dcr => ∃ τ ∈ ts.drop 2, Told r.access.engine .mixerActive running τ.found

theorem mixerActive_eq (w : WalletId) :
    (mixerActive w : Op ε Bool) = entry w >>= fun kr => isMixerActive kr.2.access := by
  unfold mixerActive access
  rw [bind_assoc]
  congr 1

theorem mixerActive_within (w : WalletId) :
    (mixerActive w : Op ε Bool).Within (fun _ => True) SameRegistrations := by
  rw [mixerActive_eq]
  refine .bind (entry_within trivial w) fun kr => ?_
  unfold isMixerActive
  split
  · exact .pure _
  · exact Flow.Within.mono (call_within _ _) (fun _ _ => trivial) fun _ _ h => h.registrations

theorem mixerActive_picture {post : List (Turn Wait (Registry ε))} {wait : Wait}
    {t : Turns Wait (Registry ε) (Outcome Bool)}
    (h : (mixerActive w).run.Course (⟨wait, s, s'⟩ :: post) t) (key : Nat) :
    s'.picture key = s.picture key := by
  have hsame : s'.registrations = s.registrations :=
    (mixerActive_within w _ _ h).1 _ List.mem_cons_self
  unfold picture
  rw [hsame]

theorem mixerActive_known {running : Bool} {ts : List (Turn Wait (Registry ε))}
    (h : (mixerActive w).run.Course ts (.done (.ok running) s)) : KnownMixer w running ts := by
  rw [mixerActive_eq] at h
  generalize ht : Turns.done _ _ = t at h
  cases Op.parts h with
  | first => cases ht
  | failed => cases ht
  | @second _ post wait s₁ s₂ s₃ kr _ hentry hrest =>
    subst ht
    obtain ⟨_, _, hts, hfind⟩ := entry_course hentry
    obtain ⟨rfl, hτ⟩ := eq_of_concat [_] hts
    cases hτ
    refine ⟨_, _, ⟨_, rfl, hfind⟩, ?_⟩
    unfold isMixerActive at hrest
    cases hasset : kr.2.access.asset with
    | btc =>
      rw [hasset] at hrest
      obtain ⟨_, _, -, heq⟩ := Flow.Course.of_pure (a := Except.ok false) hrest
      cases heq
      rfl
    | dcr =>
      rw [hasset] at hrest
      exact call_learns kr.2.access .mixerActive _ _ _ hrest

end Registry

namespace Relay

open Registry

variable {ε : Type} [Engine ε] {ticket : Nat} {w : WalletId} {reason : RefreshReason}

/-- What the rest of the turns after a refresh make of its outcome. -/
def report (w : WalletId) (reason : RefreshReason) :
    Outcome Accounts → Flow Wait (Registry ε) (List ViewEvent)
  | .error e => return [.refreshFailed w e.message]
  | .ok _ =>
    match reason with
    | .transaction | .resync => return [.accountsRefreshed w, .transactionsChanged w]
    | .mixer => do
      match ← (Registry.mixerActive w).run with
      | .ok running => return [.accountsRefreshed w, .mixerStateChanged w running]
      | .error e => return [.accountsRefreshed w, .refreshFailed w e.message]

theorem refreshEvents_eq (ticket : Nat) (w : WalletId) (reason : RefreshReason) :
    (refreshEvents ticket w reason : Flow Wait (Registry ε) (List ViewEvent)) =
      (Registry.refresh ticket w).run >>= report w reason :=
  rfl

theorem report_within (o : Outcome Accounts) :
    (report w reason o : Flow Wait (Registry ε) (List ViewEvent)).Within (fun _ => True)
      SameRegistrations := by
  unfold report
  split
  · exact .pure _
  · cases reason with
    | transaction | resync => exact .pure _
    | mixer =>
      refine .bind (mixerActive_within w) fun o => ?_
      cases o <;> exact .pure _

/-- The work for the pages leaves registrations where they are. -/
theorem refreshEvents_within (ticket : Nat) (w : WalletId) (reason : RefreshReason) :
    (refreshEvents ticket w reason : Flow Wait (Registry ε) (List ViewEvent)).Within
      (fun _ => True) Lasts := by
  rw [refreshEvents_eq]
  refine .bind (.of_last fun ts τ t h => ?_) fun o =>
    (report_within o).mono (fun _ _ => trivial) fun _ _ h => h.lasts
  intro key a ha
  rwa [(refresh_turn h).frame.2 key]

/-- What the pages are told after these turns of a refresh and the work that follows it. -/
inductive Announces (ticket : Nat) (w : WalletId) :
    RefreshReason → List (Turn Wait (Registry ε)) → List ViewEvent → Prop
  /-- A failure has touched no picture. -/
  | failed {reason : RefreshReason} {ts : List (Turn Wait (Registry ε))} {e : Failure}
      {s : Registry ε} (hrefresh : (Registry.refresh ticket w).run.Course ts (.done (.error e) s))
      (hsame : ∀ τ ∈ ts, ∀ key, τ.left.picture key = τ.found.picture key) :
      Announces ticket w reason ts [.refreshFailed w e.message]
  /-- The new picture is up. -/
  | refreshed {reason : RefreshReason} (hreason : reason ≠ .mixer)
      {ts : List (Turn Wait (Registry ε))} {p : Accounts} {s : Registry ε} {key : Nat}
      {r : Registration}
      (hrefresh : (Registry.refresh ticket w).run.Course ts (.done (.ok p) s))
      (hfound : FoundAs w key r ts) (hpicture : s.picture key = some p) :
      Announces ticket w reason ts [.accountsRefreshed w, .transactionsChanged w]
  /-- The new picture was put up in the turn in which the mixer's state began to be asked for. -/
  | mixer {pre post : List (Turn Wait (Registry ε))} {wait : Wait} {p : Accounts}
      {s s' s'' s₁ : Registry ε} {key : Nat} {r : Registration} {o : Outcome Bool}
      {last : ViewEvent}
      (hrefresh : (Registry.refresh ticket w).run.Course (pre ++ [⟨wait, s, s'⟩]) (.done (.ok p) s'))
      (hfound : FoundAs w key r (pre ++ [⟨wait, s, s'⟩])) (hpicture : s''.picture key = some p)
      (hasked : (Registry.mixerActive w).run.Course (⟨wait, s', s''⟩ :: post) (.done o s₁))
      (hlast : match o with
        | .ok running =>
          last = .mixerStateChanged w running ∧ KnownMixer w running (⟨wait, s', s''⟩ :: post)
        | .error e => last = .refreshFailed w e.message) :
      Announces ticket w .mixer (pre ++ ⟨wait, s, s''⟩ :: post) [.accountsRefreshed w, last]

omit [Engine ε] in
/-- A report that needs no more turns is made in the last turn of the refresh. -/
theorem report_pure {post : List (Turn Wait (Registry ε))} {wait : Wait} {s' s'' s₁ : Registry ε}
    {told events : List ViewEvent}
    (h : (pure told : Flow Wait (Registry ε) (List ViewEvent)).Course (⟨wait, s', s''⟩ :: post)
      (.done events s₁)) : post = [] ∧ s'' = s' ∧ events = told := by
  obtain ⟨_, _, hts, heq⟩ := h.of_pure
  cases hts
  cases heq
  exact ⟨rfl, rfl, rfl⟩

/-- What the pages are told is what has happened, provided that registrations last. -/
theorem announces {ts : List (Turn Wait (Registry ε))} {events : List ViewEvent} {s : Registry ε}
    (h : (refreshEvents ticket w reason).Course ts (.done events s))
    (hlasts : (ts.map (·.found)).Pairwise Lasts) : Announces ticket w reason ts events := by
  rw [refreshEvents_eq] at h
  generalize ht : Turns.done events s = t at h
  cases h.parts with
  | first => cases ht
  | @second pre post wait s₁ s' s'' o _ hrefresh hreport =>
    subst ht
    have hlasts : ((pre ++ [⟨wait, s₁, s'⟩] : List (Turn Wait (Registry ε))).map (·.found)).Pairwise
        Lasts := by
      refine hlasts.sublist ?_
      rw [List.map_append, List.map_append]
      exact (List.singleton_sublist.mpr List.mem_cons_self).append_left _
    cases o with
    | error e =>
      obtain ⟨rfl, rfl, rfl⟩ := report_pure hreport
      rcases refresh_pictures hrefresh with hsame | ⟨_, _, heq⟩
      · exact .failed hrefresh hsame
      · cases heq
    | ok p =>
      obtain ⟨key, r, hfound, hpicture⟩ := refresh_putsUp hrefresh hlasts
      cases reason with
      | transaction | resync =>
        obtain ⟨rfl, rfl, rfl⟩ := report_pure hreport
        exact .refreshed RefreshReason.noConfusion hrefresh hfound hpicture
      | mixer =>
        generalize hts : (⟨wait, s', s''⟩ :: post : List (Turn Wait (Registry ε))) = ts at hreport
        generalize ht : Turns.done events s = t at hreport
        have hreport : Flow.Course ((Registry.mixerActive w).run >>= _) ts t := hreport
        cases hreport.parts with
        | first => cases ht
        | @second pre' post' wait' s₂ s₃ s₄ o _ hasked htold =>
          subst ht
          cases o with
          | ok running =>
            obtain ⟨rfl, rfl, rfl⟩ := report_pure htold
            rw [← hts] at hasked
            exact .mixer hrefresh hfound ((mixerActive_picture hasked key).trans hpicture) hasked
              ⟨rfl, mixerActive_known hasked⟩
          | error e =>
            obtain ⟨rfl, rfl, rfl⟩ := report_pure htold
            rw [← hts] at hasked
            exact .mixer hrefresh hfound ((mixerActive_picture hasked key).trans hpicture) hasked rfl

end Relay

end Purse
