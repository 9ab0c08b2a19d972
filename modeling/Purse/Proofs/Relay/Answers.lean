import Purse.Proofs.Registry.Exchanges
import Purse.Proofs.Relay.Announcement

/-!
# What pages are told comes from answers

`Announces` says that what pages are told about a refresh has happened. Here it is put down
to the answers that were given in the turns of this very refresh: those of the refresh
itself (`Refreshed`), and the one about the mixer where that is asked for (`Queried`).

Main statement: `answered`.
-/

namespace Purse

namespace Registry

variable {ε : Type} [Engine ε] {ts : List (Turn Wait (Registry ε))} {s : Registry ε} {w : WalletId}

/-- All turns of a question whether the mixer of a wallet runs, and the answer. -/
inductive Queried (w : WalletId) : List (Turn Wait (Registry ε)) → Outcome Bool → Prop
  | missing {wait : Wait} {s₀ s : Registry ε} {f : Failure} (hfind : s.find w = .error f) :
      Queried w [⟨wait, s₀, s₀⟩, ⟨.look, s, s⟩] (.error f)
  /-- A Bitcoin wallet has no mixer. -/
  | none {wait : Wait} {s₀ s : Registry ε} {key : Nat} {r : Registration}
      (hfind : s.find w = .ok (key, r)) (hasset : r.access.asset = .btc) :
      Queried w [⟨wait, s₀, s₀⟩, ⟨.look, s, s⟩] (.ok false)
  | asked {wait : Wait} {s₀ s s' : Registry ε} {key : Nat} {r : Registration}
      {post : List (Turn Wait (Registry ε))} {reply : Except EngineError Bool}
      (hfind : s.find w = .ok (key, r)) (hasset : r.access.asset = .dcr)
      (h : Exchanges r.access.engine (⟨.look, s, s'⟩ :: post) [⟨.mixerActive, reply⟩]) :
      Queried w (⟨wait, s₀, s₀⟩ :: ⟨.look, s, s'⟩ :: post) (reply.mapError Failure.ofEngine)

theorem queried {o : Outcome Bool} (h : (mixerActive w).run.Course ts (.done o s)) :
    Queried w ts o := by
  rw [mixerActive_eq] at h
  generalize ht : Turns.done o s = t at h
  cases Op.parts h with
  | first => cases ht
  | failed hentry =>
    cases ht
    obtain ⟨_, _, rfl, hfind⟩ := entry_course hentry
    exact .missing hfind
  | @second pre post wait s₁ s₂ s₃ kr _ hentry hrest =>
    subst ht
    obtain ⟨key, r⟩ := kr
    obtain ⟨_, _, hts, hfind⟩ := entry_course hentry
    obtain ⟨rfl, hτ⟩ := eq_of_concat [_] hts
    cases hτ
    unfold isMixerActive at hrest
    cases hasset : r.access.asset with
    | btc =>
      rw [hasset] at hrest
      obtain ⟨_, _, hpost, heq⟩ := Flow.Course.of_pure (a := Except.ok false) hrest
      cases hpost
      cases heq
      exact .none hfind hasset
    | dcr =>
      rw [hasset] at hrest
      obtain ⟨reply, hxs, rfl⟩ := call_course hrest
      exact .asked hfind hasset hxs

end Registry

namespace Relay

open Registry

variable {ε : Type} [Engine ε] {ticket : Nat} {w : WalletId} {reason : RefreshReason}

/-- What is told of the answer about the mixer. -/
def mixerEvent (w : WalletId) : Outcome Bool → ViewEvent
  | .ok running => .mixerStateChanged w running
  | .error e => .refreshFailed w e.message

/-- What the turns after a refresh make of its outcome. -/
inductive Reported (w : WalletId) :
    RefreshReason → Outcome Accounts → List (Turn Wait (Registry ε)) → List ViewEvent → Prop
  | failed {reason : RefreshReason} {e : Failure} {wait : Wait} {s : Registry ε} :
      Reported w reason (.error e) [⟨wait, s, s⟩] [.refreshFailed w e.message]
  | refreshed {reason : RefreshReason} (hreason : reason ≠ .mixer) {p : Accounts} {wait : Wait}
      {s : Registry ε} :
      Reported w reason (.ok p) [⟨wait, s, s⟩] [.accountsRefreshed w, .transactionsChanged w]
  | mixer {p : Accounts} {ts : List (Turn Wait (Registry ε))} {o : Outcome Bool}
      (h : Queried w ts o) :
      Reported w .mixer (.ok p) ts [.accountsRefreshed w, mixerEvent w o]

/-- All turns of a refresh for a page, and what the pages are told at their end. The turn in
which the refresh ends is the first of the report. -/
inductive Answered (ticket : Nat) (w : WalletId) (confirmations : UInt32) (reason : RefreshReason) :
    List (Turn Wait (Registry ε)) → List ViewEvent → Prop
  | intro {pre post : List (Turn Wait (Registry ε))} {wait : Wait} {s s' s'' : Registry ε}
      {o : Outcome Accounts} {events : List ViewEvent}
      (hrefresh : Refreshed ticket w confirmations (pre ++ [⟨wait, s, s'⟩]) o)
      (hreport : Reported w reason o (⟨wait, s', s''⟩ :: post) events) :
      Answered ticket w confirmations reason (pre ++ ⟨wait, s, s''⟩ :: post) events

theorem reported {o : Outcome Accounts} {ts : List (Turn Wait (Registry ε))}
    {events : List ViewEvent} {s : Registry ε} (h : (report w reason o).Course ts (.done events s)) :
    Reported w reason o ts events := by
  have hpure : ∀ {told : List ViewEvent},
      (pure told : Flow Wait (Registry ε) (List ViewEvent)).Course ts (.done events s) →
      ∃ wait s', ts = [⟨wait, s', s'⟩] ∧ events = told := fun hc => by
    obtain ⟨wait, s', rfl, heq⟩ := hc.of_pure
    cases heq
    exact ⟨wait, _, rfl, rfl⟩
  cases o with
  | error e =>
    obtain ⟨wait, s', rfl, rfl⟩ := hpure h
    exact .failed
  | ok p =>
    cases reason with
    | transaction | resync =>
      obtain ⟨wait, s', rfl, rfl⟩ := hpure h
      exact .refreshed RefreshReason.noConfusion
    | mixer =>
      generalize ht : Turns.done events s = t at h
      have hparts : Flow.Course ((Registry.mixerActive w).run >>= _) ts t := h
      cases hparts.parts with
      | first => cases ht
      | @second pre post wait s₁ s₂ s₃ o _ hasked htold =>
        subst ht
        cases o with
        | ok running | error e =>
          obtain ⟨_, _, hts, heq⟩ := htold.of_pure
          cases hts
          cases heq
          exact .mixer (queried hasked)

/-- What pages are told is what the answers to this refresh's own calls make of it. -/
theorem answered {ts : List (Turn Wait (Registry ε))} {events : List ViewEvent} {s : Registry ε}
    {config : Config} (h : (refreshEvents ticket w reason).Course ts (.done events s))
    (hconfig : ∀ τ ∈ ts, τ.found.config = config) :
    Answered ticket w config.effectiveConfirmations reason ts events := by
  rw [refreshEvents_eq] at h
  generalize ht : Turns.done events s = t at h
  cases h.parts with
  | first => cases ht
  | @second pre post wait s₁ s' s'' o _ hrefresh hreport =>
    subst ht
    exact .intro (refreshed_first hrefresh hconfig) (reported hreport)

end Relay

end Purse
