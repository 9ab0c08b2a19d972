import Purse.Proofs.Engine.Amounts
import Purse.Proofs.Engine.Outputs
import Purse.Proofs.Registry.Exchanges

/-!
# Outputs are listed all or not at all

What an engine lists is gone through row by row. If the calendar has the time of every row and
every amount is one (`ReportedOutput.Acceptable`), there is an output for each row, in the order
of the rows. Otherwise there are no outputs at all but one failure, that of the first row that is
not acceptable, and its time is looked at before its amount (`ReportedOutput.Refused`). Both
together are `Reviewed`, which is what becomes of a listing whatever others do meanwhile
(`listUnspent_reviewed`).
-/

namespace Purse

/-! ## Rows -/

namespace ReportedOutput

/-- The calendar has the time of the row. -/
def InCalendar (r : ReportedOutput) : Prop :=
  Instant.first ≤ r.received.toInt ∧ r.received.toInt ≤ Instant.last

/-- An output can be made of the row. -/
def Acceptable (r : ReportedOutput) : Prop :=
  r.InCalendar ∧ r.amount.Representable

/-- Why no output can be made of the row; its time comes first. -/
inductive Refused (r : ReportedOutput) : BadAnswer → Prop
  | time (h : ¬r.InCalendar) : Refused r (.invalidTime r.received r.toOutPoint)
  | amount {bad : BadAnswer} (h : r.InCalendar) (hamount : r.amount.Refused bad) : Refused r bad

variable {account : UInt32} {r : ReportedOutput}

theorem ofUnix?_of_inCalendar (h : r.InCalendar) :
    ∃ t, Instant.ofUnix? r.received.toInt 0 = some t :=
  ⟨_, dif_pos ⟨h, .inl (by decide)⟩⟩

theorem ofUnix?_of_not_inCalendar (h : ¬r.InCalendar) :
    Instant.ofUnix? r.received.toInt 0 = none :=
  dif_neg fun hin => h hin.1

/-- A row that is not taken over is refused for its time or else for its amount. -/
theorem refused_of_toOutput {bad : BadAnswer} (h : r.toOutput account = .error bad) :
    r.Refused bad := by
  unfold toOutput at h
  by_cases hcalendar : r.InCalendar
  · obtain ⟨t, ht⟩ := ofUnix?_of_inCalendar hcalendar
    rw [ht] at h
    cases hamount : r.amount.toAmount with
    | error bad' =>
      rw [hamount] at h
      cases h
      exact .amount hcalendar (ReportedAmount.toAmount_error_iff.mp hamount)
    | ok a =>
      rw [hamount] at h
      cases h
  · rw [ofUnix?_of_not_inCalendar hcalendar] at h
    cases h
    exact .time hcalendar

theorem acceptable_of_takenOver {o : UnspentOutput} (h : o.TakenOver account r) :
    r.Acceptable := by
  refine ⟨?_, ReportedAmount.representable_iff.mpr ⟨_, h.amount⟩⟩
  rw [InCalendar, ← h.received.1]
  exact o.received.inCalendar

theorem Refused.not_acceptable {bad : BadAnswer} (h : r.Refused bad) : ¬r.Acceptable := by
  rintro ⟨hcalendar, hamount⟩
  cases h with
  | time hnone => exact hnone hcalendar
  | amount _ hrefused =>
    obtain ⟨a, ha⟩ := ReportedAmount.representable_iff.mp hamount
    cases ha.symm.trans (ReportedAmount.toAmount_error_iff.mpr hrefused)

end ReportedOutput

open ReportedOutput

/-! ## Listings -/

/-- What becomes of a listing: all of its rows are taken over, or there is the failure of the
first row that is refused. -/
structure Reviewed (account : UInt32) (rows : List ReportedOutput)
    (o : Outcome (List UnspentOutput)) : Prop where
  accepted : (∃ outputs, o = .ok outputs) ↔ ∀ r ∈ rows, r.Acceptable
  /-- One output for each row, in the order of the rows. -/
  taken : ∀ outputs, o = .ok outputs → List.Forall₂
    (fun r u => u.TakenOver account r ∧ r.amount.CountsAs u.amount.toNat) rows outputs
  /-- The first row that is refused, and why. -/
  refused : ∀ f, o = .error f → ∃ before row after bad, rows = before ++ row :: after ∧
    (∀ r ∈ before, r.Acceptable) ∧ row.Refused bad ∧ f = .backend bad

variable {account : UInt32} {rows : List ReportedOutput}

/-- The loop stops at the first row that is refused. -/
theorem first_refused {bad : BadAnswer} (h : outputsOfReport account rows = .error bad) :
    ∃ before row after, rows = before ++ row :: after ∧ (∀ r ∈ before, r.Acceptable) ∧
      row.Refused bad := by
  unfold outputsOfReport at h
  induction rows with
  | nil => cases h
  | cons r rows ih =>
    rw [List.mapM_cons] at h
    cases hr : r.toOutput account with
    | error bad' =>
      rw [hr] at h
      cases h
      exact ⟨[], r, rows, rfl, List.forall_mem_nil _, refused_of_toOutput hr⟩
    | ok o =>
      cases hrows : rows.mapM (ReportedOutput.toOutput account) with
      | ok outputs =>
        rw [hr, hrows] at h
        cases h
      | error bad' =>
        rw [hr, hrows] at h
        cases h
        obtain ⟨before, row, after, rfl, hbefore, hrow⟩ := ih hrows
        exact ⟨r :: before, row, after, rfl,
          List.forall_mem_cons.mpr ⟨acceptable_of_takenOver (takenOver_of_toOutput hr), hbefore⟩, hrow⟩

theorem reviewed_outputsOfReport (account : UInt32) (rows : List ReportedOutput) :
    Reviewed account rows ((outputsOfReport account rows).mapError Failure.backend) := by
  cases h : outputsOfReport account rows with
  | error bad =>
    obtain ⟨before, row, after, hrows, hbefore, hrow⟩ := first_refused h
    refine ⟨⟨?_, fun hall => ?_⟩, ?_, fun f hf => ?_⟩
    · rintro ⟨outputs, ho⟩
      cases ho
    · refine absurd (hall row ?_) hrow.not_acceptable
      rw [hrows]
      exact List.mem_append_right _ List.mem_cons_self
    · intro outputs ho
      cases ho
    · cases hf
      exact ⟨before, row, after, bad, hrows, hbefore, hrow, rfl⟩
  | ok outputs =>
    have htaken := takenOver_of_report h
    have hacceptable := htaken.imp fun r u hu => And.intro (acceptable_of_takenOver hu) hu
    have hcounted := htaken.imp fun r u hu =>
      And.intro hu (ReportedAmount.toAmount_ok_iff.mp hu.amount)
    refine ⟨⟨fun _ => ?_, fun _ => ⟨outputs, rfl⟩⟩, fun outputs' ho => ?_, fun f hf => nomatch hf⟩
    · exact ((List.forall₂_and_left _ _).mp hacceptable).1
    · cases ho
      exact hcounted

namespace Registry

variable {ε : Type} [Engine ε]

/-- What an engine lists is reviewed, alone and with others about; what it refuses to list is its
own refusal. -/
theorem listUnspent_reviewed (a : Access) (account : UInt32) (name : String) :
    (∀ (s : Registry ε) (e : ε) (rows : List ReportedOutput), s.engines[a.engine]? = some e →
      (Engine.ask (.unspent a.depths name) e).1 = .ok rows →
        Reviewed account rows ((listUnspent a account name).exec s).1) ∧
    ∀ (ts : List (Turn Wait (Registry ε))) (o : Outcome (List UnspentOutput)) (s : Registry ε),
      (listUnspent a account name).run.Course ts (.done o s) →
        ∃ reply, Exchanges a.engine ts [⟨.unspent a.depths name, reply⟩] ∧
          (∀ rows, reply = .ok rows → Reviewed account rows o) ∧
          ∀ e, reply = .error e → o = .error (Failure.ofEngine e) := by
  refine ⟨fun s e rows he hrows => ?_, fun ts o s hc => ?_⟩
  · have hexec : (listUnspent a account name).exec s = _ :=
      acceptCall_exec a he (.unspent a.depths name) (outputsOfReport account)
    rw [hexec, hrows]
    exact reviewed_outputsOfReport account rows
  · obtain ⟨reply, hasked, rfl⟩ :=
      acceptCall_course (c := .unspent a.depths name) (f := outputsOfReport account) hc
    refine ⟨reply, hasked, fun rows hrows => ?_, fun e he => ?_⟩
    · rw [hrows]
      exact reviewed_outputsOfReport account rows
    · rw [he]
      rfl

namespace Sample

/-- A row of no worth. -/
def worthless : ReportedOutput where
  txid := "a"
  vout := 0
  address := ""
  script := ""
  received := 0
  details := .btc ⟨0⟩ none 6 true

/-- A row with neither a time nor an amount: a second too late, and not a number. -/
def spoilt : ReportedOutput :=
  { worthless with
    vout := 1
    received := 8210266876800
    details := .btc ⟨9221120237041090560⟩ none 6 true }

/-- A wallet with a spoilt row among others. -/
def spoiling : Registry InMemoryEngine where
  config := {}
  engines := [{
    asset := .btc
    accounts := [{
      number := 0, name := "default", balance := .units 0 0 0,
      unspent := [worthless, spoilt, worthless] }]
    blockHash := default
    blockHeight := 5 }]
  registrations := [{ access := ⟨0, .btc, .mainnet⟩ }]
  wallets := [(7, 0)]

end Sample

open Sample

/-- Of what is wrong with the second row its time is reported, and the first row is not listed
either. -/
theorem listUnspent_reviewed_spoilt :
    Reviewed 0 [worthless, spoilt, worthless]
      ((listUnspent ⟨0, .btc, .mainnet⟩ 0 "default").exec spoiling).1 ∧
    ((listUnspent ⟨0, .btc, .mainnet⟩ 0 "default").exec spoiling).1 =
      .error (.backend (.invalidTime 8210266876800 spoilt.toOutPoint)) ∧
    ∃ ts o s, (listUnspent ⟨0, .btc, .mainnet⟩ 0 "default").run.Course ts (.done o s) ∧
      ∃ reply, Exchanges (ε := InMemoryEngine) 0 ts 
          [⟨.unspent (some ⟨0, Int32.maxValue⟩) "default", reply⟩] ∧
        (∀ rows, reply = .ok rows → Reviewed 0 rows o) ∧
        ∀ e, reply = .error e → o = .error (Failure.ofEngine e) := by
  obtain ⟨hexec, hcourse⟩ := listUnspent_reviewed (ε := InMemoryEngine) ⟨0, .btc, .mainnet⟩ 0 "default"
  refine ⟨hexec spoiling _ _ rfl rfl, by decide +kernel, ?_⟩
  obtain ⟨ts, hc⟩ := Flow.Course.of_ends (.first .answer spoiling)
    (Turns.ends_run ((listUnspent ⟨0, .btc, .mainnet⟩ 0 "default").run spoiling))
  exact ⟨_, _, _, hc, hcourse _ _ _ hc⟩

end Registry

end Purse
