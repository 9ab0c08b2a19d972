import Purse.Proofs.Registry.Untouched
import Purse.Proofs.Selection.Size
import Purse.Proofs.Selection.Totals

/-!
# What failures leave behind

An operation on a selection that fails leaves the selection as it was, whole. When it
fails and why can be read off the selection beforehand (`objection?`), but for a fetch,
which depends on a registry that others use as well.

A fetch may fail before anything happened, in its refresh, or after the refresh, while
the accounts' outputs are listed. `FetchFailed` tells these apart by the turns of the
fetch and says what they have done to the pictures in the registry: nothing, unless the
refresh has succeeded; then one turn has put the new picture up.

Main statement: `Runs.failures_leave_all`, for every run of a new selection.
-/

namespace Purse

namespace Selection

variable {ε : Type} [Engine ε] {s s' : Selection} {p : OutPoint}

/-! ## When and why operations fail -/

/-- What an operation has failed with, if it has. -/
def Event.failure? : Event → Option Failure
  | fetch (.error f) | toggle _ (.error f) | setSelected _ _ (.error f)
  | sortAccount _ _ (.error f) | submit (.error f) => some f
  | _ => none

theorem Event.failed_of_failure? {e : Event} {f : Failure} (h : e.failure? = some f) : e.Failed := by
  cases e with
  | fetch o | toggle _ o | setSelected _ _ o | sortAccount _ _ o | submit o =>
    cases o with
    | error _ => trivial
    | ok _ => cases h
  | sort | clear => cases h

/-- What stands against picking anything, or handing anything over. -/
def barrier? (s : Selection) : Option Failure :=
  match s.stage with
  | .empty => some (.invalidState .notLoaded)
  | .submitted => some (.invalidState .alreadySubmitted)
  | .loaded | .selecting => none

/-- What stands against an operation that is not a fetch, whatever its outcome. -/
def objection? (s : Selection) : Event → Option Failure
  | .toggle p _ | .setSelected p _ _ =>
    s.barrier? <|> if ∃ r ∈ s.rows, r.point = p then none else some (.notFound (.output p))
  | .sortAccount account _ _ =>
    if ∃ g ∈ s.groups, g.account = account then none
    else some (.notFound (.group account s.wallet))
  | .submit _ => s.barrier? <|> if s.stamps = [] then some (.invalidState .nothingSelected) else none
  | .fetch _ | .sort _ _ | .clear => none

/-- An outpoint is found if and only if a row has it. -/
theorem Indexed.found_eq_none (hi : s.Indexed) : s.found p = none ↔ ¬∃ r ∈ s.rows, r.point = p := by
  constructor
  · intro hnone hr
    obtain ⟨place, row, hfound⟩ := hi.found hr
    rw [hnone] at hfound
    cases hfound
  · intro hno
    cases hfound : s.found p with
    | none => rfl
    | some found =>
      have hrow : found.2 ∈ s.rows := mem_rows_iff.mpr ⟨found.1, (found_eq_some hfound).2⟩
      exact absurd ⟨found.2, hrow, hi.point_of_found hfound⟩ hno

/-- What is done with an outpoint fails only for what stands against it. -/
theorem Indexed.whenFound_failure {α : Type} (hi : s.Indexed) (p : OutPoint)
    (f : Place → Row → Outcome α × Selection) (hf : ∀ place row, ∃ a, (f place row).1 = .ok a) :
    (∃ a, (s.whenFound p f).1 = .ok a ∧ s.objection? (.toggle p (.ok true)) = none) ∨
    ∃ e, (s.whenFound p f).1 = .error e ∧ s.objection? (.toggle p (.ok true)) = some e := by
  unfold whenFound objection? barrier?
  cases s.stage with
  | empty => exact Or.inr ⟨_, rfl, rfl⟩
  | submitted => exact Or.inr ⟨_, rfl, rfl⟩
  | loaded | selecting =>
    cases hfound : s.found p with
    | none => exact Or.inr ⟨_, rfl, if_neg (hi.found_eq_none.mp hfound)⟩
    | some found =>
      have hrow : ∃ r ∈ s.rows, r.point = p := by
        by_contra hno
        rw [hi.found_eq_none.mpr hno] at hfound
        cases hfound
      obtain ⟨a, ha⟩ := hf found.1 found.2
      exact Or.inl ⟨a, ha, if_pos hrow⟩

theorem sortAccount_failure (s : Selection) (account : UInt32) (c : Column) :
    (∃ d, ((sortAccount account c).run s).1 = .ok d ∧ ∃ g ∈ s.groups, g.account = account) ∨
    ((sortAccount account c).run s).1 = .error (.notFound (.group account s.wallet)) ∧
      ¬∃ g ∈ s.groups, g.account = account := by
  rcases s.sortAccount_run account c with ⟨hr, hno⟩ | ⟨pre, g, post, hg, -, hacc, hr⟩
  · rw [hr]
    exact Or.inr ⟨rfl, fun ⟨g, hg, ha⟩ => hno g hg ha⟩
  · have hmem : g ∈ s.groups := by
      rw [hg]
      exact List.mem_append_right _ List.mem_cons_self
    rw [hr]
    exact Or.inl ⟨_, rfl, g, hmem, hacc⟩

theorem submit_failure (s : Selection) :
    (∃ sub, (submit.run s).1 = .ok sub ∧ s.objection? (.submit (.ok sub)) = none) ∨
    ∃ f, (submit.run s).1 = .error f ∧ s.objection? (.submit (.error f)) = some f := by
  unfold submit objection? barrier?
  rw [Step.run_bind, ensureEditable_run]
  cases s.stage with
  | empty => exact Or.inr ⟨_, rfl, rfl⟩
  | submitted => exact Or.inr ⟨_, rfl, rfl⟩
  | loaded | selecting =>
    cases hs : s.stamps with
    | nil =>
      refine Or.inr ⟨.invalidState .nothingSelected, ?_, rfl⟩
      show (ExceptT.run (if s.stamps.isEmpty then _ else _ : Step Submission) s).1 = _
      rw [hs]
      rfl
    | cons e rest =>
      refine Or.inl ⟨⟨s.wallet, s.selectedOutputs, s.amount, s.size⟩, ?_, rfl⟩
      show (ExceptT.run (if s.stamps.isEmpty then _ else _ : Step Submission) s).1 = _
      rw [hs]
      rfl

/-- An operation that is not a fetch fails if and only if something stands against it, and
with just that. -/
theorem Move.failure {e : Event} (h : Move ε s e s') (hi : s.Indexed) (he : ∀ o, e ≠ .fetch o) :
    e.failure? = s.objection? e := by
  cases h with
  | fetch => exact absurd rfl (he _)
  | toggle p =>
    rw [toggle_run]
    rcases hi.whenFound_failure p (fun place row =>
        (.ok (!row.selected), s.mark p (!row.selected) place row)) fun _ _ => ⟨_, rfl⟩ with
      ⟨a, ha, hnone⟩ | ⟨f, hf, hsome⟩
    · rw [ha]
      exact hnone.symm
    · rw [hf]
      exact hsome.symm
  | setSelected p selected =>
    rw [setSelected_run]
    rcases hi.whenFound_failure p (fun place row =>
        (.ok (), if row.selected = selected then s else s.mark p selected place row))
        fun _ _ => ⟨_, rfl⟩ with
      ⟨a, ha, hnone⟩ | ⟨f, hf, hsome⟩
    · rw [ha]
      exact hnone.symm
    · rw [hf]
      exact hsome.symm
  | sort | clear => rfl
  | sortAccount account c =>
    rcases s.sortAccount_failure account c with ⟨d, hd, hg⟩ | ⟨hf, hno⟩
    · rw [hd]
      exact (if_pos hg).symm
    · rw [hf]
      exact (if_neg hno).symm
  | submit =>
    rcases s.submit_failure with ⟨sub, hsub, hnone⟩ | ⟨f, hf, hsome⟩
    · rw [hsub]
      exact hnone.symm
    · rw [hf]
      exact hsome.symm

/-- A failure changes nothing. -/
theorem Move.failed {e : Event} (h : Move ε s e s') (he : e.Failed) : s' = s := by
  cases h.change with
  | failed => rfl
  | _ => exact he.elim

/-! ## How fetches fail -/

open Registry (EnginesOnly FoundAs Untouched untouched_of_within refresh_untouched)

section Fetch

variable {ticket : Nat} {w : WalletId} {ts : List (Turn Wait (Registry ε))}

/-- To list the outputs of an account changes nothing but engines. -/
theorem fetchGroup_within (w : WalletId) (a : Account) :
    (fetchGroup w a : Registry.Op ε Group).Within (fun _ => True) EnginesOnly := by
  have hcall : ∀ (access : Access) (c : Call),
      (Registry.call access c : Registry.Op ε c.Answer).Within (fun _ => True) EnginesOnly :=
    fun access c => Flow.Within.mono (Registry.call_within access c) (fun _ _ => trivial)
      fun _ _ h => h.enginesOnly
  unfold fetchGroup Registry.unspentOutputs Registry.access Registry.listUnspent Registry.accept
  refine .bind (.bind (.bind (Registry.entry_within trivial w) fun _ => .pure _) fun access => ?_)
    fun _ => .pure _
  exact .bind (hcall access _) fun _ => .bind (hcall access _) fun _ => .conclude _

/-- What is left of a fetch after its refresh changes nothing but engines. -/
theorem listing_within (w : WalletId) (a : Access) (p : Accounts) :
    (do
      let groups ← p.accounts.mapM (fetchGroup w)
      return (← Registry.sizing a, groups) : Registry.Op ε (Sizing × List Group)).Within
        (fun _ => True) EnginesOnly := by
  unfold Registry.sizing
  exact .bind (.mapM (fetchGroup_within w) _) fun _ => .bind (.bind .read fun _ => .pure _)
    fun _ => .pure _

/-- Where a fetch has failed, and what its turns have done to pictures. -/
inductive FetchFailed (ticket : Nat) (w : WalletId) (f : Failure) :
    List (Turn Wait (Registry ε)) → Prop
  | lookup {ts : List (Turn Wait (Registry ε))} {τ : Turn Wait (Registry ε)}
      (hτ : ts[1]? = some τ) (hfind : τ.found.find w = .error f) (hsame : Untouched ts) :
      FetchFailed ticket w f ts
  | refresh {first : Turn Wait (Registry ε)} {ts : List (Turn Wait (Registry ε))} {r : Registry ε}
      (hrefresh : (Registry.refresh ticket w).run.Course ts (.done (.error f) r))
      (hsame : Untouched (first :: ts)) : FetchFailed ticket w f (first :: ts)
  /-- The picture that the refresh has put up is the only one that has changed. -/
  | listing {first : Turn Wait (Registry ε)} {before after : List (Turn Wait (Registry ε))}
      {wait : Wait} {s s' s'' r : Registry ε} {p : Accounts} {key : Nat} {found : Registration}
      (hrefresh : (Registry.refresh ticket w).run.Course (before ++ [⟨wait, s, s'⟩])
        (.done (.ok p) s'))
      (hlisting : (p.accounts.mapM (fetchGroup w)).run.Course (⟨wait, s', s''⟩ :: after)
        (.done (.error f) r))
      (hbefore : Untouched (first :: before)) (hfound : FoundAs w key found before)
      (hput : ∀ k, s''.picture k = (s.putUp key p).picture k) (hafter : Untouched after) :
      FetchFailed ticket w f (first :: before ++ ⟨wait, s, s''⟩ :: after)

/-- What comes after the look-up fails in the refresh or in the listing. -/
theorem fetchThrough_failed {a : Access} {f : Failure} {r : Registry ε}
    {first : Turn Wait (Registry ε)} (hfirst : ∀ key, first.left.picture key = first.found.picture key)
    (h : (fetchThrough ticket w a).run.Course ts (.done (.error f) r)) :
    FetchFailed ticket w f (first :: ts) := by
  unfold fetchThrough at h
  generalize ht : Turns.done _ r = t at h
  cases Registry.Op.parts h with
  | first => cases ht
  | failed hrefresh =>
    cases ht
    refine .refresh hrefresh (.cons hfirst ?_)
    rcases Registry.refresh_pictures hrefresh with hsame | ⟨_, _, heq⟩
    · exact hsame
    · cases heq
  | @second pre post wait s s' s'' p _ hrefresh hrest =>
    subst ht
    have huntouched := untouched_of_within (listing_within w a p) hrest
    obtain ⟨hbefore, key, found, hfound, hput⟩ := refresh_untouched hrefresh
    generalize ht : Turns.done _ r = t at hrest
    generalize hts : (⟨wait, s', s''⟩ :: post : List (Turn Wait (Registry ε))) = turns at hrest
    have hafter : Untouched post := fun τ hτ => huntouched τ (List.mem_cons_of_mem _ hτ)
    -- the listing goes on in the turn in which the picture was put up
    have hmiddle : ∀ k, s''.picture k = (s.putUp key p).picture k := fun k =>
      (huntouched _ List.mem_cons_self k).trans (hput k)
    cases Registry.Op.parts hrest with
    | first => cases ht
    | failed hlisting =>
      cases ht
      subst hts
      exact .listing hrefresh hlisting (.cons hfirst hbefore) hfound hmiddle hafter
    | second _ hsizing =>
      -- how transactions are sized is known
      subst ht
      obtain ⟨_, _, -, heq⟩ := hsizing.of_change
        (f := fun s : Registry ε => (Except.ok (a.asset.sizing s.config.feeOutputs, _), s))
      cases heq

theorem fetchGroups_failed {f : Failure} {r : Registry ε}
    (h : (fetchGroups ticket w).run.Course ts (.done (.error f) r)) :
    FetchFailed ticket w f ts := by
  rw [fetchGroups_eq] at h
  generalize ht : Turns.done _ r = t at h
  cases Registry.Op.parts h with
  | first => cases ht
  | failed hentry =>
    cases ht
    obtain ⟨w₀, s₀, rfl, hfind⟩ := Registry.entry_course hentry
    refine .lookup rfl hfind (.cons (fun _ => rfl) (.cons (fun _ => rfl) ?_))
    exact fun _ hτ => absurd hτ List.not_mem_nil
  | second hentry hthrough =>
    subst ht
    obtain ⟨w₀, s₀, hts, -⟩ := Registry.entry_course hentry
    obtain ⟨rfl, hτ⟩ := eq_of_concat [_] hts
    cases hτ
    exact fetchThrough_failed (fun _ => rfl) hthrough

/-- Whatever others do meanwhile, a fetch fails in one of these ways. -/
theorem fetch_failed {f : Failure} {r : Registry ε}
    (h : (fetch ticket s).Course ts (.done (.error f, s') r)) :
    FetchFailed ticket s.wallet f ts := by
  unfold fetch at h
  generalize ht : Turns.done _ r = t at h
  cases h.parts with
  | first => cases ht
  | @second _ _ _ _ _ _ o _ hgroups hload =>
    subst ht
    cases o with
    | ok found =>
      obtain ⟨_, _, -, heq⟩ := Flow.Course.of_pure (a := (Except.ok (), s.load found.1 found.2)) hload
      cases heq
    | error e =>
      -- the failure is handed on in the same turn
      obtain ⟨_, _, hts, heq⟩ := Flow.Course.of_pure (a := (Except.error e, s)) hload
      cases hts
      cases heq
      exact fetchGroups_failed hgroups

theorem fetch_alone (ticket : Nat) (s : Selection) (registry : Registry ε) :
    (fetch ticket s).run registry = match (fetchGroups ticket s.wallet).exec registry with
      | (.ok found, r) => ((.ok (), s.load found.1 found.2), r)
      | (.error e, r) => ((.error e, s), r) := by
  unfold fetch
  rw [Flow.run_bind]
  unfold Registry.Op.exec
  rcases Flow.run (fetchGroups ticket s.wallet).run registry with ⟨o, r⟩
  cases o <;> rfl

/-- With nobody in between a fetch that fails with its refresh leaves all pictures, and
one that fails later leaves the picture that the refresh has put up. -/
theorem fetch_run_failed {f : Failure} {registry registry' : Registry ε}
    (h : (fetch ticket s).run registry = ((.error f, s'), registry')) :
    (∀ f', ((Registry.refresh ticket s.wallet).exec registry).1 = .error f' →
      f' = f ∧ ∀ w', registry'.snapshot? w' = registry.snapshot? w') ∧
    ∀ p, ((Registry.refresh ticket s.wallet).exec registry).1 = .ok p →
      registry'.snapshot? s.wallet = some p ∧ ∃ r xs, registry.registration? s.wallet = some r ∧
        Refreshing s.wallet r.access.scope registry.config.effectiveConfirmations xs (.ok p) := by
  have hgroups : (fetchGroups ticket s.wallet).exec registry = (.error f, registry') := by
    rw [fetch_alone] at h
    rcases hexec : (fetchGroups ticket s.wallet).exec registry with ⟨o, r⟩
    rw [hexec] at h
    cases o with
    | ok found => cases h
    | error e =>
      cases h
      rfl
  rw [fetchGroups_eq] at hgroups
  cases hr : registry.registration? s.wallet with
  | none =>
    have hentry := Registry.entry_exec_none hr
    have hrefresh : (Registry.refresh ticket s.wallet).exec registry = _ :=
      Registry.exec_bind_error hentry _
    rw [Registry.exec_bind_error hentry] at hgroups
    rw [hrefresh]
    cases hgroups
    refine ⟨fun f' hf' => ?_, fun p hp => by cases hp⟩
    cases hf'
    exact ⟨rfl, fun _ => rfl⟩
  | some r =>
    obtain ⟨key, hkey, -⟩ := Option.bind_eq_some_iff.mp hr
    rw [Registry.exec_bind_ok (Registry.entry_exec_some hkey hr)] at hgroups
    unfold fetchThrough at hgroups
    cases hrefresh : (Registry.refresh ticket s.wallet).exec registry with
    | mk o r₁ =>
      cases o with
      | error e =>
        rw [Registry.exec_bind_error hrefresh] at hgroups
        cases hgroups
        refine ⟨fun f' hf' => ?_, fun p hp => by cases hp⟩
        cases hf'
        exact ⟨rfl, Registry.refresh_exec_error hrefresh⟩
      | ok p =>
        rw [Registry.exec_bind_ok hrefresh] at hgroups
        have hlisting := (listing_within s.wallet r.access p).run r₁
        have hend : (Flow.run (ExceptT.run (p.accounts.mapM (fetchGroup s.wallet) >>= fun groups =>
            Registry.sizing r.access >>= fun sizing => pure (sizing, groups))) r₁).2 = registry' :=
          congrArg Prod.snd hgroups
        rw [hend] at hlisting
        refine ⟨fun f' hf' => (by cases hf'), fun p' hp' => ?_⟩
        cases hp'
        obtain ⟨r', xs, hr', hcomplete⟩ := Registry.refresh_exec_complete hrefresh
        cases hr.symm.trans hr'
        exact ⟨(hlisting.snapshot? _).trans (Registry.refresh_exec_ok hrefresh), r, xs, rfl, hcomplete⟩

end Fetch

/-! ## Every failure -/

/-- Whatever has happened to a selection, an operation that fails leaves all of it as it
was; an operation that is not a fetch fails if and only if something stands against it,
and with just that; and a fetch that fails has changed no picture in the registry but for
the one that its refresh has put up, whatever others do meanwhile. With nobody in between
the wallet's picture is therefore what it was if the look-up or the refresh has failed, and
otherwise it is the complete one that the refresh has returned. -/
theorem Runs.failures_leave_all {w : WalletId} {es : List Event}
    (h : Runs ε { wallet := w } es s) :
    (∀ e s' f, Move ε s e s' → e.failure? = some f → s' = s) ∧
    (∀ e s', Move ε s e s' → (∀ o, e ≠ .fetch o) → e.failure? = s.objection? e) ∧
    (∀ ticket ts f s' (registry : Registry ε),
      (fetch ticket s).Course ts (.done (.error f, s') registry) →
        FetchFailed ticket s.wallet f ts) ∧
    ∀ ticket f s' (registry registry' : Registry ε),
      (fetch ticket s).run registry = ((.error f, s'), registry') →
        (∀ f', ((Registry.refresh ticket s.wallet).exec registry).1 = .error f' →
          f' = f ∧ ∀ w', registry'.snapshot? w' = registry.snapshot? w') ∧
        ∀ p, ((Registry.refresh ticket s.wallet).exec registry).1 = .ok p →
          registry'.snapshot? s.wallet = some p ∧ ∃ r xs, registry.registration? s.wallet = some r ∧
            Refreshing s.wallet r.access.scope registry.config.effectiveConfirmations xs (.ok p) :=
  ⟨fun _ _ _ hm hf => hm.failed (Event.failed_of_failure? hf),
    fun _ _ hm he => hm.failure (h.indexed (indexed_new w)) he,
    fun _ _ _ _ _ hc => fetch_failed hc,
    fun _ _ _ _ _ hrun => fetch_run_failed hrun⟩

/-- The small wallet while no outputs can be listed. -/
def Sample.unlisted : Registry InMemoryEngine :=
  { registry "b" with engines := [{ engine "b" with failingUnspent := true }] }

/-- After a pick an unknown outpoint is refused, and a fetch that cannot list outputs fails
after its refresh. The pick is still there, and so is the new picture of both accounts. -/
theorem Runs.failures_leave_all_unlisted :
    let s := ((toggle Sample.point).run (Sample.loaded "b")).2
    let unknown : OutPoint := ⟨"bb", 0⟩
    s.amount = 500 ∧
    (toggle unknown).run s = (.error (.notFound (.output unknown)), s) ∧
    ((fetch 1 s).run Sample.unlisted).1 =
      (.error (.backend (.reported "unspent outputs unavailable")), s) ∧
    ∃ p, ((fetch 1 s).run Sample.unlisted).2.snapshot? 7 = some p ∧ p.accounts.length = 2 := by
  intro s unknown
  have hrun : Runs InMemoryEngine { wallet := 7 } _ s :=
    .step (Sample.runs_loaded "b" rfl) (.toggle _ Sample.point)
  obtain ⟨hleave, -, -, halone⟩ := hrun.failures_leave_all
  have hmove := Move.toggle (ε := InMemoryEngine) s unknown
  have htoggle : ((toggle unknown).run s).1 = .error (.notFound (.output unknown)) := by rfl
  have hwallet : s.wallet = 7 := by rfl
  generalize hfetch : (fetch 1 s).run Sample.unlisted = fetched
  have houtcome : fetched.1.1 = .error (.backend (.reported "unspent outputs unavailable")) := by
    rw [← hfetch, fetch_alone, hwallet]
    rfl
  obtain ⟨⟨o, s'⟩, registry⟩ := fetched
  cases houtcome
  have hends := Turns.ends_run (fetch 1 s Sample.unlisted)
  have hpair : (fetch 1 s Sample.unlisted).run = _ := hfetch
  rw [hpair] at hends
  obtain rfl := hleave _ _ _ (Move.fetch hends) rfl
  obtain ⟨-, hpicture⟩ := halone 1 _ _ _ _ hfetch
  rw [hwallet] at hpicture
  cases hrefresh : ((Registry.refresh 1 7).exec Sample.unlisted).1 with
  | error f => cases hrefresh
  | ok p =>
    obtain ⟨hshown, -⟩ := hpicture p hrefresh
    refine ⟨by rfl, Prod.ext htoggle ?_, rfl, p, hshown, ?_⟩
    · exact hleave _ _ _ hmove (by rw [htoggle]; rfl)
    · cases hrefresh
      rfl

end Selection

end Purse
