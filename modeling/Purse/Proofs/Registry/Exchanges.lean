import Mathlib.Data.List.Basic
import Purse.Proofs.Registry.Refresh

/-!
# What a refresh is told in its own turns

`Refreshing` says what comes of the answers that a refresh gets. Here the answers are found
in its turns, whatever others do in between: `Exchanges` are the calls that were made in a
list of turns, one after the other, with the answers that they got. The turn in which a call
ends is the one in which the next begins.

`Refreshed` tells all turns of a refresh that has ended: it looks the wallet up, lines up,
asks, and leaves the line in its last turn, in which a new picture is put up if there is one.
Nothing that others do has a part in its outcome but through those answers.

Main statement: `refreshed`.
-/

namespace Purse.Registry

variable {ε : Type} [Engine ε] {α β : Type} {n : Nat} {ts pre post : List (Turn Wait (Registry ε))}
  {xs ys : List Exchange} {wait : Wait} {s s' s'' : Registry ε}

/-! ## Calls in turns -/

/-- In these turns an engine was asked for this, and these were the answers. -/
inductive Exchanges (n : Nat) : List (Turn Wait (Registry ε)) → List Exchange → Prop
  | nil (wait : Wait) (s : Registry ε) : Exchanges n [⟨wait, s, s⟩] []
  | cons {pre post : List (Turn Wait (Registry ε))} {wait : Wait} {s s' s'' : Registry ε}
      {c : Call} {reply : Except EngineError c.Answer} {xs : List Exchange}
      (hask : (ask n c).Course (pre ++ [⟨wait, s, s'⟩]) (.done reply s'))
      (h : Exchanges n (⟨wait, s', s''⟩ :: post) xs) :
      Exchanges n (pre ++ ⟨wait, s, s''⟩ :: post) (⟨c, reply⟩ :: xs)

namespace Exchanges

/-- Turns in which an engine is asked change nothing else. -/
theorem within (h : Exchanges n ts xs) : ∀ τ ∈ ts, EngineOnly n τ.found τ.left := by
  induction h with
  | nil wait s =>
    intro τ hτ
    obtain rfl := List.mem_singleton.mp hτ
    exact Std.Refl.refl s
  | @cons pre post wait s s' s'' c reply xs hask _ ih =>
    obtain ⟨hpre, -⟩ := ask_within n c _ _ hask
    intro τ hτ
    rcases List.mem_append.mp hτ with hτ | hτ
    · exact hpre τ (List.mem_append_left _ hτ)
    · rcases List.mem_cons.mp hτ with rfl | hτ
      · have h₁ : EngineOnly n s s' := hpre _ (List.mem_append_right _ (List.mem_singleton_self _))
        have h₂ : EngineOnly n s' s'' := ih _ List.mem_cons_self
        exact Trans.trans h₁ h₂
      · exact ih τ (List.mem_cons_of_mem _ hτ)

/-- Other calls may follow in the last turn. -/
theorem append (hx : Exchanges n (pre ++ [⟨wait, s, s'⟩]) xs)
    (hy : Exchanges n (⟨wait, s', s''⟩ :: post) ys) :
    Exchanges n (pre ++ ⟨wait, s, s''⟩ :: post) (xs ++ ys) := by
  generalize hts : pre ++ [⟨wait, s, s'⟩] = ts at hx
  induction hx generalizing pre s with
  | nil wait₁ s₁ =>
    obtain ⟨rfl, hτ⟩ := eq_of_concat [] hts
    cases hτ
    exact hy
  | @cons pre₁ post₁ wait₁ s₁ s₁' s₁'' c reply xs hask _ ih =>
    rcases List.eq_nil_or_concat' post₁ with rfl | ⟨post₁, τ, rfl⟩
    · -- the last call ends in the last turn
      obtain ⟨rfl, hτ⟩ := eq_of_concat pre₁ hts
      cases hτ
      exact .cons hask (@ih [] _ rfl)
    · rw [← List.cons_append, ← List.append_assoc] at hts
      obtain ⟨rfl, hτ⟩ := eq_of_concat _ hts
      cases hτ
      rw [List.append_assoc]
      exact .cons hask (@ih (_ :: post₁) _ rfl)

end Exchanges

/-- Whatever the operation comes to, that is what the engine's answers make of it. -/
def Op.Talks (x : Op ε α) (config : Config) (n : Nat) (Q : List Exchange → Outcome α → Prop) :
    Prop :=
  ∀ ts o s, x.run.Course ts (.done o s) → (∀ τ ∈ ts, τ.found.config = config) →
    ∃ xs, Exchanges n ts xs ∧ Q xs o

namespace Op.Talks

variable {x : Op ε α} {config : Config} {P : List Exchange → Outcome α → Prop}

theorem conclude {o : Outcome α} (h : P [] o) : Talks (conclude o : Op ε α) config n P := by
  intro ts o' s hc _
  obtain ⟨_, _, rfl, heq⟩ := Flow.Course.of_pure hc
  cases heq
  exact ⟨[], .nil _ _, h⟩

theorem pure {a : α} (h : P [] (.ok a)) : Talks (Pure.pure a : Op ε α) config n P :=
  conclude h

/-- What is read has the configuration there is. -/
theorem read : Talks (get : Op ε (Registry ε)) config n fun xs o =>
    xs = [] ∧ ∃ s, o = .ok s ∧ s.config = config := by
  intro ts o s hc hconfig
  obtain ⟨_, _, rfl, heq⟩ := Flow.Course.of_change (f := fun s => (Except.ok s, s)) hc
  cases heq
  exact ⟨[], .nil _ _, rfl, _, rfl, hconfig _ (List.mem_singleton_self _)⟩

/-- The second part talks with the answers of the first one in mind. -/
theorem bind {f : α → Op ε β} {Q : List Exchange → Outcome β → Prop} (hx : x.Talks config n P)
    (hfail : ∀ xs e, P xs (.error e) → Q xs (.error e))
    (hf : ∀ a xs, P xs (.ok a) → (f a).Talks config n fun ys o => Q (xs ++ ys) o) :
    Talks (x >>= f) config n Q := by
  intro ts o s hc hconfig
  generalize ht : Turns.done o s = t at hc
  cases Op.parts hc with
  | first => cases ht
  | failed hfailed =>
    cases ht
    obtain ⟨xs, hxs, hP⟩ := hx _ _ _ hfailed hconfig
    exact ⟨xs, hxs, hfail xs _ hP⟩
  | @second pre post wait s s' s'' a _ hfirst hsecond =>
    subst ht
    have hpre : ∀ τ ∈ pre ++ [⟨wait, s, s'⟩], τ.found.config = config :=
      found_first (P := fun s => s.config = config) hconfig s'
    obtain ⟨xs, hxs, hP⟩ := hx _ _ _ hfirst hpre
    have hpost : ∀ τ ∈ ⟨wait, s', s''⟩ :: post, τ.found.config = config := by
      intro τ hτ
      rcases List.mem_cons.mp hτ with rfl | hτ
      · -- the first part has left the configuration as it was
        have hlast := List.mem_append_right pre (List.mem_singleton_self (⟨wait, s, s'⟩ : Turn _ _))
        exact (hxs.within _ hlast).config.trans (hpre _ hlast)
      · exact hconfig τ (List.mem_append_right _ (List.mem_cons_of_mem _ hτ))
    obtain ⟨ys, hys, hQ⟩ := hf a xs hP _ _ _ hsecond hpost
    exact ⟨xs ++ ys, hxs.append hys, hQ⟩

end Op.Talks

/-! ## A picture from answers -/

/-- A call that has ended was one exchange. -/
theorem call_course {a : Access} {c : Call} {o : Outcome c.Answer}
    (h : (call a c : Op ε c.Answer).run.Course ts (.done o s)) :
    ∃ reply, Exchanges a.engine ts [⟨c, reply⟩] ∧ o = reply.mapError Failure.ofEngine := by
  generalize ht : Turns.done o s = t at h
  cases Flow.Course.parts (x := ask a.engine c) h with
  | first => cases ht
  | @second pre post wait s s' s'' reply _ hask hf =>
    subst ht
    obtain ⟨_, _, hts, heq⟩ := hf.of_pure
    cases hts
    cases heq
    exact ⟨reply, .cons hask (.nil _ _), rfl⟩

/-- A report that has been taken over, or not, was one exchange. -/
theorem acceptCall_course {a : Access} {c : Call} {f : c.Answer → Except BadAnswer α}
    {o : Outcome α} (h : (do accept (f (← call a c)) : Op ε α).run.Course ts (.done o s)) :
    ∃ reply, Exchanges a.engine ts [⟨c, reply⟩] ∧ o = outcomeOfReply f reply := by
  generalize ht : Turns.done o s = t at h
  cases Op.parts h with
  | first => cases ht
  | failed hcall =>
    cases ht
    obtain ⟨reply, hasked, ho⟩ := call_course hcall
    refine ⟨reply, hasked, ?_⟩
    cases reply <;> cases ho
    rfl
  | @second pre post wait s s' s'' report _ hcall haccept =>
    subst ht
    obtain ⟨_, _, hts, heq⟩ := haccept.of_pure
    cases hts
    cases heq
    obtain ⟨reply, hasked, ho⟩ := call_course hcall
    refine ⟨reply, hasked, ?_⟩
    cases reply <;> cases ho
    rfl

theorem call_talks (a : Access) (c : Call) (config : Config) :
    (call a c : Op ε c.Answer).Talks config a.engine fun xs o =>
      ∃ reply, xs = [⟨c, reply⟩] ∧ o = reply.mapError Failure.ofEngine := by
  intro ts o s hc _
  obtain ⟨reply, hxs, ho⟩ := call_course hc
  exact ⟨_, hxs, reply, rfl, ho⟩

theorem accountBalance_talks (a : Access) (account confirmations : UInt32) (config : Config) :
    (accountBalance a account confirmations : Op ε Balance).Talks config a.engine fun xs o =>
      ∃ reply, xs = [⟨.balance account confirmations, reply⟩] ∧ o = balanceOfReply reply := by
  intro ts o s hc _
  obtain ⟨reply, hxs, ho⟩ :=
    acceptCall_course (c := .balance account confirmations) (f := ReportedBalance.toBalance) hc
  exact ⟨_, hxs, reply, rfl, ho⟩

theorem price_talks (w : WalletId) (a : Access) (info : AccountInfo) (config : Config) :
    (price w a info.lookAhead : Op ε Account).Talks config a.engine fun xs o =>
      ∃ reply, xs = [⟨.balance info.number config.effectiveConfirmations, reply⟩] ∧
        o = (balanceOfReply reply).map fun balance => { info.lookAhead with wallet := w, balance } := by
  unfold price
  refine .bind .read (fun xs e h => ?_) fun s xs h => ?_
  · obtain ⟨-, _, h, -⟩ := h
    cases h
  obtain ⟨rfl, _, heq, hconfig⟩ := h
  cases heq
  rw [hconfig]
  refine .bind (accountBalance_talks a _ _ config) (fun xs e h => ?_) fun b xs h => ?_
  · obtain ⟨reply, rfl, ho⟩ := h
    exact ⟨reply, rfl, by rw [← ho]; rfl⟩
  · obtain ⟨reply, rfl, ho⟩ := h
    exact .pure ⟨reply, rfl, by rw [← ho]; rfl⟩

/-- The loop over the accounts comes to what the answers about their balances make of it. -/
theorem prices_talk (w : WalletId) (a : Access) (config : Config) (infos : List AccountInfo) :
    ((infos.map AccountInfo.lookAhead).mapM (price w a) : Op ε (List Account)).Talks config a.engine
      fun xs o => Pricing w config.effectiveConfirmations infos xs o := by
  induction infos with
  | nil =>
    rw [List.map_nil, List.mapM_nil]
    exact .pure .done
  | cons info infos ih =>
    rw [List.map_cons, List.mapM_cons]
    refine .bind (price_talks w a info config) (fun xs e h => ?_) fun account xs h => ?_
    · obtain ⟨reply, rfl, ho⟩ := h
      cases hb : balanceOfReply reply with
      | ok b =>
        rw [hb] at ho
        cases ho
      | error f =>
        rw [hb] at ho
        cases ho
        exact .failed hb
    · obtain ⟨reply, rfl, ho⟩ := h
      cases hb : balanceOfReply reply with
      | error f =>
        rw [hb] at ho
        cases ho
      | ok b =>
        rw [hb] at ho
        cases ho
        have htaken := takenOver_lookAhead w info b
        refine .bind ih (fun ys e h => ?_) fun accounts ys h => ?_
        · exact .priced hb htaken h
        · exact .pure (by rw [List.append_nil]; exact .priced hb htaken h)

/-- A picture is what the answers make of it. -/
theorem survey_talks (w : WalletId) (a : Access) (config : Config) :
    (survey w a : Op ε Accounts).Talks config a.engine
      (Refreshing w a.scope config.effectiveConfirmations) := by
  unfold survey listAccounts
  rw [bind_assoc]
  refine .bind (call_talks a (.accounts a.scope) config) (fun xs e h => ?_) fun listing xs h => ?_
  · obtain ⟨reply, rfl, ho⟩ := h
    cases reply <;> cases ho
    exact .failed
  · obtain ⟨reply, rfl, ho⟩ := h
    cases reply <;> cases ho
    rw [pure_bind]
    refine .bind (prices_talk w a config listing.accounts) (fun ys e h => ?_) fun accounts ys h => ?_
    · exact .listed h
    · exact .pure (by rw [List.append_nil]; exact .listed h)

/-! ## A refresh from its turns -/

/-- The turns of a refresh that has the lock, up to its end. -/
inductive Settled (ticket key : Nat) (a : Access) (w : WalletId) (confirmations : UInt32) :
    List (Turn Wait (Registry ε)) → Outcome Accounts → Prop
  /-- An answer is a failure, and no picture has been touched. -/
  | failed {wait : Wait} {s s' : Registry ε} {asked : List (Turn Wait (Registry ε))}
      {xs : List Exchange} {f : Failure}
      (hasked : Exchanges a.engine (asked ++ [⟨wait, s, s'⟩]) xs)
      (h : Refreshing w a.scope confirmations xs (.error f)) :
      Settled ticket key a w confirmations (asked ++ [⟨wait, s, s'.leave ticket⟩]) (.error f)
  /-- After the last answer the picture is put up in one turn. -/
  | succeeded {s : Registry ε} {asked : List (Turn Wait (Registry ε))} {xs : List Exchange}
      {p : Accounts} (hasked : Exchanges a.engine asked xs)
      (h : Refreshing w a.scope confirmations xs (.ok p)) :
      Settled ticket key a w confirmations
        (asked ++ [⟨.look, s, (s.putUp key p).leave ticket⟩]) (.ok p)

/-- All turns of a refresh that has ended. -/
inductive Refreshed (ticket : Nat) (w : WalletId) (confirmations : UInt32) :
    List (Turn Wait (Registry ε)) → Outcome Accounts → Prop
  | missing {wait : Wait} {s₀ s : Registry ε} {f : Failure} (hfind : s.find w = .error f) :
      Refreshed ticket w confirmations [⟨wait, s₀, s₀⟩, ⟨.look, s, s⟩] (.error f)
  /-- It lines up for the registration that it has found, and asks once it has the lock. -/
  | settled {wait : Wait} {s₀ s₁ s₂ s₃ s₄ : Registry ε} {key : Nat} {r : Registration}
      {ts : List (Turn Wait (Registry ε))} {o : Outcome Accounts}
      (hfind : s₁.find w = .ok (key, r))
      (h : Settled ticket key r.access w confirmations
        (⟨.lock key ticket, s₃, s₄⟩ :: ts) o) :
      Refreshed ticket w confirmations
        (⟨wait, s₀, s₀⟩ :: ⟨.look, s₁, s₁⟩ :: ⟨.room, s₂, s₂.lineUp key ticket⟩ ::
          ⟨.lock key ticket, s₃, s₄⟩ :: ts) o

variable {ticket key : Nat} {w : WalletId} {a : Access} {config : Config} {o : Outcome Accounts}

/-- A rebuilding that has ended asked for a picture, and put it up if it got one. -/
theorem rebuild_course (h : (rebuild w key a).run.Course (pre ++ [⟨wait, s, s'⟩]) (.done o s'))
    (hconfig : ∀ τ ∈ pre ++ [⟨wait, s, s'⟩], τ.found.config = config) :
    ∃ xs, Refreshing w a.scope config.effectiveConfirmations xs o ∧
      ((∃ f, o = .error f) ∧ Exchanges a.engine (pre ++ [⟨wait, s, s'⟩]) xs ∨
        ∃ p, o = .ok p ∧ Exchanges a.engine pre xs ∧ wait = .look ∧ s' = s.putUp key p) := by
  rw [rebuild_eq] at h
  generalize hts : pre ++ [⟨wait, s, s'⟩] = ts at h
  generalize ht : Turns.done o s' = t at h
  rw [hts] at hconfig
  cases Op.parts h with
  | first => cases ht
  | failed hsurvey =>
    cases ht
    obtain ⟨xs, hxs, hr⟩ := survey_talks w a config _ _ _ hsurvey hconfig
    exact ⟨xs, hr, Or.inl ⟨⟨_, rfl⟩, hxs⟩⟩
  | @second asked post w₁ s₁ s₁' s₁'' p _ hsurvey hdisplay =>
    subst ht
    generalize ht : Turns.done o s' = t at hdisplay
    cases hdisplay.head with
    | only =>
      rw [display_run] at ht
      cases ht
    | more hrun hlast =>
      cases (display_run key p s₁').symm.trans hrun
      cases hlast.head with
      | more hdone => cases hdone
      | only =>
        cases ht
        obtain ⟨rfl, hτ⟩ := List.append_inj' (hts.trans (List.append_cons _ _ _)) rfl
        cases hτ
        rw [List.append_cons] at hconfig
        obtain ⟨xs, hxs, hr⟩ := survey_talks w a config _ _ _ hsurvey fun τ hτ =>
          hconfig τ (List.mem_append_left _ hτ)
        exact ⟨xs, hr, Or.inr ⟨p, rfl, hxs, rfl, rfl⟩⟩

theorem settled (h : (settle ticket w key a).Course ts (.done o s))
    (hconfig : ∀ τ ∈ ts, τ.found.config = config) :
    Settled ticket key a w config.effectiveConfirmations ts o := by
  generalize ht : Turns.done o s = t at h
  cases h.parts with
  | first => cases ht
  | @second pre post wait found s' s'' o' _ hrebuild hleave =>
    obtain ⟨_, _, hpost, heq⟩ := hleave.of_change
    cases hpost
    cases ht.trans heq
    -- the last turn has found what the rebuilding found in it
    have hconfig' : ∀ τ ∈ pre ++ [⟨wait, found, s'⟩], τ.found.config = config :=
      found_first (P := fun s => s.config = config) hconfig s'
    obtain ⟨xs, hr, hcases⟩ := rebuild_course hrebuild hconfig'
    rcases hcases with ⟨⟨f, rfl⟩, hxs⟩ | ⟨p, rfl, hxs, rfl, rfl⟩
    · exact .failed hxs hr
    · exact .succeeded hxs hr

/-- Whatever others do meanwhile, a refresh comes to what the answers to its own calls make of
it. -/
theorem refreshed (h : (refresh ticket w).run.Course ts (.done o s))
    (hconfig : ∀ τ ∈ ts, τ.found.config = config) :
    Refreshed ticket w config.effectiveConfirmations ts o := by
  generalize ht : Turns.done o s = t at h
  cases h.head with
  | only =>
    rw [refresh_run] at ht
    cases ht
  | @more _ _ _ _ s₁ _ _ _ _ hrun h₁ =>
    cases (refresh_run ticket w _).symm.trans hrun
    cases h₁.head with
    | only =>
      cases hfind : s₁.find w with
      | error f =>
        rw [hfind] at ht
        cases ht
        exact .missing hfind
      | ok kr =>
        rw [hfind] at ht
        cases ht
    | more hrun h₂ =>
      cases hfind : s₁.find w with
      | error f =>
        rw [hfind] at hrun
        cases hrun
      | ok kr =>
        obtain ⟨key, r⟩ := kr
        rw [hfind] at hrun
        cases hrun
        cases h₂.head with
        | only => cases ht
        | more hrun h₃ =>
          cases hrun
          subst ht
          refine .settled hfind (settled h₃ fun τ hτ => hconfig τ ?_)
          exact List.mem_append_right [_, _, _] hτ

/-- So it does where it is the first part of something else. -/
theorem refreshed_first (h : (refresh ticket w).run.Course (pre ++ [⟨wait, s, s'⟩]) (.done o s'))
    (hconfig : ∀ τ ∈ pre ++ ⟨wait, s, s''⟩ :: post, τ.found.config = config) :
    Refreshed ticket w config.effectiveConfirmations (pre ++ [⟨wait, s, s'⟩]) o :=
  refreshed h (found_first (P := fun s => s.config = config) hconfig s')

/-- A program that begins with a refresh has gone on with what the answers made of it. -/
inductive Given (ticket : Nat) (w : WalletId) (confirmations : UInt32)
    (k : Outcome Accounts → Flow Wait (Registry ε) α) : List (Turn Wait (Registry ε)) → α → Prop
  | intro {pre post : List (Turn Wait (Registry ε))} {wait : Wait} {s s' s'' s₁ : Registry ε}
      {o : Outcome Accounts} {a : α}
      (hrefresh : Refreshed ticket w confirmations (pre ++ [⟨wait, s, s'⟩]) o)
      (hrest : (k o).Course (⟨wait, s', s''⟩ :: post) (.done a s₁)) :
      Given ticket w confirmations k (pre ++ ⟨wait, s, s''⟩ :: post) a

theorem given {k : Outcome Accounts → Flow Wait (Registry ε) α} {a : α}
    (h : Flow.Course ((refresh ticket w).run >>= k) ts (.done a s))
    (hconfig : ∀ τ ∈ ts, τ.found.config = config) :
    Given ticket w config.effectiveConfirmations k ts a := by
  generalize ht : Turns.done a s = t at h
  cases h.parts with
  | first => cases ht
  | second hrefresh hrest =>
    subst ht
    exact .intro (refreshed_first hrefresh hconfig) hrest

end Purse.Registry
