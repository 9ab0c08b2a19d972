import Purse.Proofs.Registry.Course
import Purse.Proofs.Selection.Submission

/-!
# The size estimate

A selection estimates the size of its transaction from a count and a sum that it carries
along, one output at a time; an output whose size is not known adds nothing to the sum.
`Sizing.transaction` goes through the outputs and gives up at the first one whose size
is not known. The two agree on what is picked, because an asset either sizes all
outputs or none (`Sizing.transaction_eq`).

`Sized` says that the estimate is always that of count and sum, in whatever way these
have changed. While flags and stamps are in step, the sum is that of the picked outputs
(`Faithful.sum_inputSize`).

Main statement: `Runs.size_exact`, for runs in which every fetch loads distinct
outpoints.
-/

namespace Purse

namespace Sizing

/-- The estimate from scratch is the estimate from count and sum, with nothing for an
output whose size is not known. -/
theorem transaction_eq (z : Sizing) (outputs : List UnspentOutput) :
    z.transaction outputs =
      z.estimate outputs.length (outputs.map fun o => (z.inputSize o).getD 0).sum := by
  cases z with
  | byScript n =>
    have hsizes : outputs.mapM (byScript n).inputSize =
        some (outputs.map fun o => scriptInputSize o.script) :=
      List.mapM_pure
    unfold transaction
    rw [hsizes]
    rfl
  | none =>
    -- whatever the outputs, no estimate exists
    show transaction none outputs = .unavailable
    unfold transaction
    cases outputs.mapM none.inputSize <;> rfl

end Sizing

namespace Selection

variable {ε : Type} [Engine ε] {s s' : Selection} {p : OutPoint} {place : Place} {r : Row}

/-! ## The estimate follows count and sum -/

/-- Once outputs are loaded, the estimate is that of the count and the sum of sizes. -/
def Sized (s : Selection) : Prop :=
  ∀ z, s.sizing = some z → s.size = z.estimate s.stamps.length s.inputsSize

/-- Everything but a fetch leaves the way of sizing. -/
theorem Change.sizing {e : Event} (h : Change s e s') (he : ∀ groups, e ≠ .fetch (.ok groups)) :
    s'.sizing = s.sizing := by
  cases h with
  | load => exact absurd rfl (he _)
  | set | toggle => rw [mark_eq]; rfl
  | clear => rw [clear_eq]
  | failed | keep | sort | sortAccount | submit => rfl

theorem sized_mark (s : Selection) (p : OutPoint) (selected : Bool) (place : Place) (r : Row) :
    (s.mark p selected place r).Sized := by
  intro z hz
  rw [mark_eq] at hz ⊢
  have hz : s.sizing = some z := hz
  dsimp only
  rw [hz]
  rfl

/-- Every change estimates anew, or leaves count and sum. -/
theorem Change.sized {e : Event} (h : Change s e s') (hs : s.Sized) : s'.Sized := by
  cases h with
  | failed | keep | sort | sortAccount | submit => exact hs
  | load =>
    intro z hz
    obtain rfl := Option.some.inj hz
    rfl
  | set | toggle => exact sized_mark _ _ _ _ _
  | clear =>
    intro z hz
    rw [clear_eq] at hz ⊢
    have hz : s.sizing = some z := hz
    dsimp only
    rw [hz]
    rfl

theorem Runs.sized {w : WalletId} {es : List Event} (h : Runs ε { wallet := w } es s) : s.Sized :=
  h.keeps (P := fun _ s => s.Sized) (fun _ hz => nomatch hz) fun _ _ _ _ hc hs => hc.sized hs

/-! ## The sum is that of the picked outputs -/

/-- While flags and stamps are in step, the carried sum is the sum over the picked
outputs. -/
theorem Faithful.sum_inputSize {picks : List OutPoint} (hf : s.Faithful) (ho : s.Ordered picks)
    (hb : s.Balanced) : s.inputsSize = (s.selectedOutputs.map s.inputSize).sum := by
  have hperm := (hf.selectedOutputs_perm ho).map s.inputSize
  rw [hb.inputsSize, hperm.sum_nat, List.map_map]
  rfl

/-- While flags and stamps are in step, the estimate is the one from scratch. -/
theorem Faithful.size_eq {picks : List OutPoint} {z : Sizing} (hf : s.Faithful)
    (ho : s.Ordered picks) (hb : s.Balanced) (hs : s.Sized) (hz : s.sizing = some z) :
    s.size = z.transaction s.selectedOutputs := by
  have hcount : s.stamps.length = s.selectedOutputs.length := by
    rw [ho.length_stamps, (hf.forall₂_selectedOutputs ho).length_eq]
  have hsize : s.inputSize = fun o => (z.inputSize o).getD 0 := by
    funext o
    unfold inputSize
    rw [hz]
    rfl
  rw [hs z hz, Sizing.transaction_eq, hcount, hf.sum_inputSize ho hb, hsize]

/-! ## What the outputs were loaded through -/

/-- The rest of a fetch, once the wallet was looked up. -/
def fetchThrough (ticket : Nat) (w : WalletId) (a : Access) :
    Registry.Op ε (Sizing × List Group) := do
  let snapshot ← Registry.refresh ticket w
  let groups ← snapshot.accounts.mapM (fetchGroup w)
  return (← Registry.sizing a, groups)

theorem fetchGroups_eq (ticket : Nat) (w : WalletId) :
    (fetchGroups ticket w : Registry.Op ε (Sizing × List Group)) =
      Registry.entry w >>= fun kr => fetchThrough ticket w kr.2.access := by
  unfold fetchGroups Registry.access fetchThrough
  simp only [bind_assoc, pure_bind]

/-- Transactions are sized by the asset of the wallet that was looked up. -/
theorem fetchThrough_sizing {ticket : Nat} {w : WalletId} {a : Access}
    {registry registry' : Registry ε} {found : Sizing × List Group}
    (h : ((fetchThrough ticket w a).run registry).Ends (.ok found) registry') :
    found.1 = a.asset.sizing registry'.config.feeOutputs := by
  obtain ⟨snapshot, registry₁, -, h⟩ := Registry.Op.bind_ends h
  obtain ⟨groups, registry₂, -, h⟩ := Registry.Op.bind_ends h
  cases h
  rfl

theorem fetch_run (ticket : Nat) (s : Selection) (registry : Registry ε) :
    fetch ticket s registry = .pause .look registry fun seen =>
      Turns.bind (match seen.find s.wallet with
        | .ok kr => (fetchThrough ticket s.wallet kr.2.access).run seen
        | .error e => .done (.error e) seen) fun found =>
          (match found with
            | .ok (sizing, groups) => pure (.ok (), s.load sizing groups)
            | .error e => pure (.error e, s) : Flow Wait (Registry ε) (Outcome Unit × Selection)) := by
  have hrun := Registry.entry_bind_run s.wallet
    (fun kr => fetchThrough ticket s.wallet kr.2.access) registry
  rw [← fetchGroups_eq] at hrun
  have hfetch : fetch ticket s registry = ((fetchGroups ticket s.wallet).run registry).bind _ := rfl
  rw [hfetch, hrun]
  rfl

/-- A fetch that loads outputs has found the wallet in its second turn. -/
theorem fetch_sizing {ticket : Nat} {ts : List (Turn Wait (Registry ε))} {registry : Registry ε}
    (h : (fetch ticket s).Course ts (.done (.ok (), s') registry)) :
    ∃ τ r, ts[1]? = some τ ∧ τ.found.registration? s.wallet = some r ∧
      s'.sizing = some (r.access.asset.sizing registry.config.feeOutputs) := by
  generalize ht : Turns.done (Except.ok (), s') registry = t at h
  cases h.head with
  | only w₀ s₀ =>
    rw [fetch_run] at ht
    cases ht
  | @more _ _ _ _ seen _ _ _ _ hrun hrest =>
    cases (fetch_run ticket s _).symm.trans hrun
    subst ht
    obtain ⟨_, hhead, hends⟩ := hrest.ends (.done _ _)
    cases hhead
    obtain ⟨found, registry₁, hfound, hload⟩ := Turns.ends_bind hends
    cases found with
    | error e => cases hload
    | ok found =>
      cases hload
      cases hfind : seen.find s.wallet with
      | error e =>
        rw [hfind] at hfound
        cases hfound
      | ok kr =>
        rw [hfind] at hfound
        obtain ⟨hkey, hr⟩ := Registry.find_ok hfind
        refine ⟨_, kr.2, rfl, ?_, congrArg some (fetchThrough_sizing hfound)⟩
        unfold Registry.registration?
        rw [hkey]
        exact hr

/-- A run with how its last successful fetch reached the wallet, and the number of
outputs that transactions were sized with. -/
inductive LoadedThrough (ε : Type) [Engine ε] (s₀ : Selection) :
    List Event → Selection → Access → Nat → Prop
  | fetch {es : List Event} {s s' : Selection} {ticket : Nat} {ts : List (Turn Wait (Registry ε))}
      {τ : Turn Wait (Registry ε)} {registry : Registry ε} {r : Registration} (h : Runs ε s₀ es s)
      (hc : (Selection.fetch ticket s).Course ts (.done (.ok (), s') registry))
      (hτ : ts[1]? = some τ) (hr : τ.found.registration? s.wallet = some r) :
      LoadedThrough ε s₀ (es ++ [.fetch (.ok s'.groups)]) s' r.access registry.config.feeOutputs
  | step {es : List Event} {s s' : Selection} {e : Event} {a : Access} {n : Nat}
      (h : LoadedThrough ε s₀ es s a n) (hm : Move ε s e s')
      (he : ∀ groups, e ≠ .fetch (.ok groups)) : LoadedThrough ε s₀ (es ++ [e]) s' a n

variable {s₀ : Selection} {es : List Event} {a : Access} {n : Nat}

/-- Once a fetch has succeeded, the wallet was reached somehow. -/
theorem Runs.loadedThrough (h : Runs ε s₀ es s) (hf : ∃ groups, Event.fetch (.ok groups) ∈ es) :
    ∃ a n, LoadedThrough ε s₀ es s a n := by
  induction h with
  | start =>
    obtain ⟨groups, hmem⟩ := hf
    exact absurd hmem List.not_mem_nil
  | @step es e s s' h hm ih =>
    by_cases he : ∃ groups, e = .fetch (.ok groups)
    · obtain ⟨groups, rfl⟩ := he
      generalize hev : Event.fetch (.ok groups) = e at hm
      cases hm with
      | @fetch _ ticket registry _ o hends =>
        cases o with
        | error f => cases hev
        | ok =>
          cases hev
          obtain ⟨ts, hc⟩ := Flow.Course.of_ends (.first .answer registry) hends
          obtain ⟨τ, r, hτ, hr, -⟩ := fetch_sizing hc
          exact ⟨_, _, .fetch h hc hτ hr⟩
      | _ => cases hev
    · -- the fetch came before
      have hne : ∀ groups, e ≠ .fetch (.ok groups) := fun groups heq => he ⟨groups, heq⟩
      obtain ⟨groups, hmem⟩ := hf
      rcases List.mem_append.mp hmem with hmem | hmem
      · obtain ⟨a, n, hl⟩ := ih ⟨groups, hmem⟩
        exact ⟨a, n, .step hl hm hne⟩
      · exact absurd (List.mem_singleton.mp hmem).symm (hne groups)

theorem LoadedThrough.sizing (h : LoadedThrough ε s₀ es s a n) :
    s.sizing = some (a.asset.sizing n) := by
  induction h with
  | fetch _ hc hτ hr =>
    obtain ⟨τ, r, hτ', hr', hsizing⟩ := fetch_sizing hc
    cases hτ.symm.trans hτ'
    cases hr.symm.trans hr'
    exact hsizing
  | step _ hm he ih => rw [hm.change.sizing he, ih]

/-- Once a fetch has succeeded, the size that is carried along is the one that the
wallet's asset gives the picked outputs from scratch, in any run in which every fetch
loads distinct outpoints. -/
theorem Runs.size_exact {w : WalletId} (h : Runs ε { wallet := w } es s)
    (hd : ∀ groups, .fetch (.ok groups) ∈ es → Distinct groups)
    (hf : ∃ groups, Event.fetch (.ok groups) ∈ es) :
    (∃ a n, LoadedThrough ε { wallet := w } es s a n) ∧
    ∀ a n, LoadedThrough ε { wallet := w } es s a n →
      s.size = (a.asset.sizing n).transaction s.selectedOutputs ∧
      (a.asset = .btc → s.selectedOutputs = [] → s.size = .bytes 0) ∧
      (a.asset = .dcr → s.size = .unavailable) := by
  refine ⟨h.loadedThrough hf, fun a n hl => ?_⟩
  obtain ⟨hfaithful, hordered⟩ := h.in_step (faithful_new w) (ordered_nil rfl)
    fun groups hmem => steady_of_distinct (hd groups hmem)
  have hsize := hfaithful.size_eq hordered (h.balanced (balanced_new w)) h.sized hl.sizing
  refine ⟨hsize, fun hbtc hnil => ?_, fun hdcr => ?_⟩
  · rw [hsize, hbtc, hnil]
    rfl
  · rw [hsize, hdcr, Sizing.transaction_eq]
    rfl

/-! ## A Bitcoin wallet -/

namespace Sample

/-- An output of half a coin. -/
def coin (txid script : String) : ReportedOutput where
  txid
  vout := 0
  address := "bc1"
  script
  received := 1700000006
  details := .btc ⟨0x3FE0000000000000⟩ none 6 true

/-- A wallet with two outputs, one of them to a witness key hash. -/
def bitcoin : Registry InMemoryEngine where
  config := {}
  engines := [{
    asset := .btc
    accounts := [{
      number := 0
      name := "a"
      balance := .units 100000000 100000000 0
      unspent := [coin "aa" "0014000102030405060708090a0b0c0d0e0f10111213", coin "bb" "76a9"] }]
    blockHash := default
    blockHeight := 5 }]
  registrations := [{ access := ⟨0, .btc, .mainnet⟩ }]
  wallets := [(7, 0)]

/-- What a fetch loads with nobody in between. -/
def bitcoinLoaded : Selection :=
  ((fetch 0 { wallet := 7 }).run bitcoin).1.2

theorem runs_bitcoinLoaded :
    Runs InMemoryEngine { wallet := 7 } [.fetch (.ok bitcoinLoaded.groups)] bitcoinLoaded := by
  have hok : ((fetch 0 { wallet := 7 }).run bitcoin).1 = (.ok (), bitcoinLoaded) := by rfl
  exact .of_run hok

end Sample

/-- Both outputs picked: 68 bytes for the one to a witness key hash, 148 for the other. -/
theorem Runs.size_exact_bitcoin :
    let s := ((toggle ⟨"bb", 0⟩).run ((toggle ⟨"aa", 0⟩).run Sample.bitcoinLoaded).2).2
    s.size = .bytes (10 + 34 * 2 + 68 + 148) ∧
      s.size = (Sizing.byScript 2).transaction s.selectedOutputs := by
  have hrun := Runs.step (.step Sample.runs_bitcoinLoaded (.toggle _ ⟨"aa", 0⟩))
    (.toggle _ ⟨"bb", 0⟩)
  have hpoints : (Sample.bitcoinLoaded.groups.flatMap (·.rows)).map (·.point) =
      [⟨"aa", 0⟩, ⟨"bb", 0⟩] := by rfl
  have hdistinct : Distinct Sample.bitcoinLoaded.groups := by
    rw [Distinct, hpoints]
    decide
  obtain ⟨⟨a, n, hl⟩, hexact⟩ := hrun.size_exact (fun groups hmem => by
    obtain rfl : groups = Sample.bitcoinLoaded.groups := by simpa using hmem
    exact hdistinct) ⟨Sample.bitcoinLoaded.groups, by simp⟩
  have hsizing : a.asset.sizing n = .byScript 2 := (Option.some.inj hl.sizing).symm
  refine ⟨by rfl, ?_⟩
  rw [← hsizing]
  exact (hexact a n hl).1

end Selection

end Purse
