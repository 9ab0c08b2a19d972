import Purse.Engine.InMemory
import Purse.Proofs.Interference
import Purse.Selection.Fetch

/-!
# Runs of a selection

A run is what can happen to a selection: fetches, which may fail and during which
others change the registry, picks, sorts, clearings and hand-overs in any order.
It is written down as a list of events, each an operation with its outcome.

`Move` says with the operations themselves what the next event can be. `Change`
says the same without them: what an event does to the fields, under which
circumstances. `Move.change` leads from the first to the second, and it is the one
place where the operations are opened. What every change keeps, every run keeps
(`Runs.keeps`).
-/

namespace Purse

/-- The group with its rows sorted. -/
def Group.sorted (c : Column) (d : Direction) (g : Group) : Group :=
  { g with rows := sortRows c d g.rows }

theorem Group.sorted_rows_perm (c : Column) (d : Direction) (g : Group) :
    (g.sorted c d).rows.Perm g.rows :=
  List.mergeSort_perm _ _

/-- No row of the group is picked. -/
def Group.Unpicked (g : Group) : Prop :=
  ∀ r ∈ g.rows, r.selected = false

namespace Selection

variable {ε : Type} [Engine ε] {α β : Type}

/-! ## Operations, opened once -/

theorem Step.run_bind (x : Step α) (f : α → Step β) (s : Selection) :
    (x >>= f).run s = match x.run s with
      | (.ok a, s') => (f a).run s'
      | (.error e, s') => (.error e, s') := by
  show (ExceptT.bindCont f (x.run s).1) (x.run s).2 = _
  rcases x.run s with ⟨o, s'⟩
  cases o <;> rfl

/-- What is done with a selection that has just been read starts from it. -/
theorem Step.run_read (f : Selection → Step α) (s : Selection) : (get >>= f).run s = (f s).run s :=
  rfl

/-- The place and the row that an outpoint is found at. -/
def found (s : Selection) (p : OutPoint) : Option (Place × Row) :=
  (s.positions.lookup p).bind fun place => (s.row? place).map fun row => (place, row)

/-- The selection after the row found for an outpoint got a new flag. -/
def mark (s : Selection) (p : OutPoint) (selected : Bool) (place : Place) (row : Row) : Selection :=
  let s := s.modifyRow place fun r => { r with selected }
  let s := if selected then s.pick p row.output else s.unpick p row.output
  s.updateSize.updateStage

/-- Picks can be made. -/
def Editable (s : Selection) : Prop :=
  s.stage = .loaded ∨ s.stage = .selecting

/-- What an operation on an outpoint comes to that answers `f` of the place and the
row, where there is one and picks can be made. -/
def whenFound (s : Selection) (p : OutPoint) (f : Place → Row → Outcome α × Selection) :
    Outcome α × Selection :=
  match s.stage with
  | .empty => (.error (.invalidState .notLoaded), s)
  | .submitted => (.error (.invalidState .alreadySubmitted), s)
  | .loaded | .selecting =>
    match s.found p with
    | none => (.error (.notFound (.output p)), s)
    | some (place, row) => f place row

theorem whenFound_cases (s : Selection) (p : OutPoint) (f : Place → Row → Outcome α × Selection) :
    (∃ e, s.whenFound p f = (.error e, s)) ∨
    ∃ place row, s.Editable ∧ s.found p = some (place, row) ∧ s.whenFound p f = f place row := by
  unfold whenFound Editable
  cases s.stage with
  | empty => exact Or.inl ⟨_, rfl⟩
  | submitted => exact Or.inl ⟨_, rfl⟩
  | loaded | selecting =>
    cases s.found p with
    | none => exact Or.inl ⟨_, rfl⟩
    | some r => exact Or.inr ⟨r.1, r.2, by simp, rfl, rfl⟩

theorem whenFound_of_found {s : Selection} {p : OutPoint} {place : Place} {row : Row}
    (hs : s.Editable) (h : s.found p = some (place, row)) (f : Place → Row → Outcome α × Selection) :
    s.whenFound p f = f place row := by
  unfold whenFound
  rcases hs with hs | hs <;> rw [hs, h]

theorem ensureEditable_run (s : Selection) : ensureEditable.run s =
    match s.stage with
    | .empty => (.error (.invalidState .notLoaded), s)
    | .submitted => (.error (.invalidState .alreadySubmitted), s)
    | .loaded | .selecting => (.ok (), s) := by
  unfold ensureEditable
  rw [Step.run_read]
  cases s.stage <;> rfl

theorem find_run (s : Selection) (p : OutPoint) : (find p).run s =
    match s.found p with
    | none => (.error (.notFound (.output p)), s)
    | some r => (.ok r, s) := by
  unfold find found
  rw [Step.run_read]
  cases s.positions.lookup p with
  | none => rfl
  | some place =>
    dsimp only
    cases h : s.row? place with
    | none => rw [Option.bind_some, h]; rfl
    | some row => rw [Option.bind_some, h]; rfl

theorem setSelected_run (s : Selection) (p : OutPoint) (selected : Bool) :
    (setSelected p selected).run s = s.whenFound p fun place row =>
      (.ok (), if row.selected = selected then s else s.mark p selected place row) := by
  unfold setSelected whenFound
  rw [Step.run_bind, ensureEditable_run]
  cases s.stage with
  | empty => rfl
  | submitted => rfl
  | loaded | selecting =>
    dsimp only
    rw [Step.run_bind, find_run]
    cases s.found p with
    | none => rfl
    | some r =>
      by_cases h : r.2.selected = selected
      · simp only [h, ne_eq, not_true_eq_false, if_false, if_true]; rfl
      · simp only [h, ne_eq, not_false_eq_true, if_false, if_true]; rfl

theorem toggle_run (s : Selection) (p : OutPoint) :
    (toggle p).run s = s.whenFound p fun place row =>
      (.ok (!row.selected), s.mark p (!row.selected) place row) := by
  unfold toggle
  rw [Step.run_bind, ensureEditable_run]
  unfold whenFound
  cases hs : s.stage with
  | empty => rfl
  | submitted => rfl
  | loaded | selecting =>
    dsimp only
    rw [Step.run_bind, find_run]
    cases hf : s.found p with
    | none => rfl
    | some r =>
      obtain ⟨place, row⟩ := r
      dsimp only
      rw [Step.run_bind, setSelected_run, whenFound, hs, hf]
      dsimp only
      rw [if_neg (by cases row.selected <;> decide)]
      rfl

/-- What sorting an account does to the selection if its first group stands between
`pre` and `post`. -/
def sortGroup (s : Selection) (c : Column) (pre : List Group) (g : Group) (post : List Group) :
    Selection :=
  let tracker := s.tracker.click c
  { s with
    tracker
    groups := pre ++ g.sorted c tracker.direction :: post
    positions := indexRows pre.length (g.sorted c tracker.direction).rows s.positions }

theorem modify_append_cons (pre : List α) (a : α) (post : List α) (f : α → α) :
    (pre ++ a :: post).modify pre.length f = pre ++ f a :: post := by
  induction pre with
  | nil => rfl
  | cons b pre ih =>
    rw [List.cons_append, List.length_cons, List.modify_succ_cons, ih, List.cons_append]

theorem sortAccount_run (s : Selection) (account : UInt32) (c : Column) :
    ((sortAccount account c).run s = (.error (.notFound (.group account s.wallet)), s) ∧
      ∀ g ∈ s.groups, g.account ≠ account) ∨
    ∃ pre g post, s.groups = pre ++ g :: post ∧ (∀ h ∈ pre, h.account ≠ account) ∧
      g.account = account ∧
      (sortAccount account c).run s =
        (.ok (s.tracker.click c).direction, s.sortGroup c pre g post) := by
  unfold sortAccount
  rw [Step.run_read]
  cases hi : s.groups.findIdx? (·.account = account) with
  | none =>
    refine Or.inl ⟨rfl, fun g hg => ?_⟩
    have hno := List.findIdx?_eq_none_iff.mp hi g hg
    exact of_decide_eq_false hno
  | some i =>
    obtain ⟨hlt, hacc, hfirst⟩ := List.findIdx?_eq_some_iff_getElem.mp hi
    have hsplit : s.groups = s.groups.take i ++ s.groups[i] :: s.groups.drop (i + 1) := by
      rw [← List.drop_eq_getElem_cons hlt, List.take_append_drop]
    -- `i` is the number of groups before the first one of the account
    have hlen : (s.groups.take i).length = i := by
      rw [List.length_take]; omega
    refine Or.inr ⟨s.groups.take i, s.groups[i], s.groups.drop (i + 1), hsplit, ?_,
      of_decide_eq_true hacc, ?_⟩
    · intro h hh
      obtain ⟨j, hj, rfl⟩ := List.getElem_of_mem hh
      rw [List.getElem_take]
      have hno := hfirst j (by omega)
      simpa using hno
    · have hrows : (s.groups[i]?.map (·.rows)).getD [] = s.groups[i].rows := by
        rw [List.getElem?_eq_getElem hlt]; rfl
      have hmod := modify_append_cons (s.groups.take i) s.groups[i] (s.groups.drop (i + 1))
        fun g => { g with rows := (s.groups[i].sorted c (s.tracker.click c).direction).rows }
      rw [hlen, ← hsplit] at hmod
      unfold sortGroup
      dsimp only
      rw [hlen]
      show (_, ({ s with tracker := _, groups := _, positions := _ } : Selection)) = _
      rw [hrows]
      exact congrArg
        (fun groups => (_, ({ s with tracker := _, groups, positions := _ } : Selection))) hmod

theorem submit_run (s : Selection) :
    (∃ e, submit.run s = (.error e, s)) ∧ ¬(s.Editable ∧ s.stamps ≠ []) ∨
    (s.Editable ∧ s.stamps ≠ []) ∧ submit.run s =
      (.ok ⟨s.wallet, s.selectedOutputs, s.amount, s.size⟩, { s with stage := .submitted }) := by
  unfold submit
  rw [Step.run_bind, ensureEditable_run]
  unfold Editable
  cases s.stage with
  | empty => exact Or.inl ⟨⟨_, rfl⟩, by simp⟩
  | submitted => exact Or.inl ⟨⟨_, rfl⟩, by simp⟩
  | loaded | selecting =>
    cases hs : s.stamps with
    | nil =>
      refine Or.inl ⟨⟨.invalidState .nothingSelected, ?_⟩, by simp⟩
      show ExceptT.run (if s.stamps.isEmpty then _ else _ : Step Submission) s = _
      rw [hs]; rfl
    | cons e rest =>
      refine Or.inr ⟨by simp, ?_⟩
      show ExceptT.run (if s.stamps.isEmpty then _ else _ : Step Submission) s = _
      rw [hs]; rfl

/-! ## Loading -/

theorem fetchGroup_gives (w : WalletId) (a : Account) :
    (fetchGroup w a : Registry.Op ε Group).Gives Group.Unpicked := by
  unfold fetchGroup
  refine .bind (.trivial _) fun outputs _ => .pure fun r hr => ?_
  obtain ⟨output, -, rfl⟩ := List.mem_map.mp hr
  rfl

theorem fetchGroups_gives (ticket : Nat) (w : WalletId) :
    (fetchGroups ticket w : Registry.Op ε (Sizing × List Group)).Gives
      fun found => ∀ g ∈ found.2, g.Unpicked := by
  unfold fetchGroups
  refine .bind (.trivial _) fun access _ => .bind (.trivial _) fun snapshot _ => ?_
  refine .bind (.mapM (fetchGroup_gives w) snapshot.accounts) fun groups hgroups => ?_
  exact .bind (.trivial _) fun sizing _ => .pure hgroups

/-- Whatever others do meanwhile, a fetch that ends has either left the selection
alone or loaded groups in which nothing is picked. -/
theorem fetch_ends {ticket : Nat} {s s' : Selection} {registry registry' : Registry ε}
    {o : Outcome Unit} (h : (fetch ticket s registry).Ends (o, s') registry') :
    (∃ e, o = .error e ∧ s' = s) ∨
    ∃ sizing groups, o = .ok () ∧ s' = s.load sizing groups ∧ ∀ g ∈ groups, g.Unpicked := by
  obtain ⟨found, registry₁, hfound, h⟩ := Turns.ends_bind h
  cases found with
  | error e =>
    have hdone : (Turns.done (Except.error e, s) registry₁ :
        Turns Wait _ (Outcome Unit × Selection)).Ends (o, s') registry' := h
    cases hdone
    exact Or.inl ⟨e, rfl, rfl⟩
  | ok found =>
    have hdone : (Turns.done (Except.ok (), s.load found.1 found.2) registry₁ :
        Turns Wait _ (Outcome Unit × Selection)).Ends (o, s') registry' := h
    cases hdone
    exact Or.inr ⟨found.1, found.2, rfl, rfl, fetchGroups_gives ticket s.wallet _ _ _ hfound⟩

/-! ## Events -/

/-- An operation on a selection with its outcome. -/
inductive Event where
  /-- A fetch with the groups it has loaded. -/
  | fetch (outcome : Outcome (List Group))
  | toggle (p : OutPoint) (outcome : Outcome Bool)
  | setSelected (p : OutPoint) (selected : Bool) (outcome : Outcome Unit)
  | sort (c : Column) (d : Direction)
  | sortAccount (account : UInt32) (c : Column) (outcome : Outcome Direction)
  | clear
  | submit (outcome : Outcome Submission)

/-- The operation has failed. -/
def Event.Failed : Event → Prop
  | fetch (.error _) | toggle _ (.error _) | setSelected _ _ (.error _)
  | sortAccount _ _ (.error _) | submit (.error _) => True
  | _ => False

/-- What can happen next. A fetch works on a registry that others change between its
turns. -/
inductive Move (ε : Type) [Engine ε] : Selection → Event → Selection → Prop
  | fetch {s s' : Selection} {ticket : Nat} {registry registry' : Registry ε} {o : Outcome Unit}
      (h : (fetch ticket s registry).Ends (o, s') registry') :
      Move ε s (.fetch (o.map fun _ => s'.groups)) s'
  | toggle (s : Selection) (p : OutPoint) :
      Move ε s (.toggle p ((toggle p).run s).1) ((toggle p).run s).2
  | setSelected (s : Selection) (p : OutPoint) (selected : Bool) :
      Move ε s (.setSelected p selected ((setSelected p selected).run s).1)
        ((setSelected p selected).run s).2
  | sort (s : Selection) (c : Column) : Move ε s (.sort c (s.sort c).1) (s.sort c).2
  | sortAccount (s : Selection) (account : UInt32) (c : Column) :
      Move ε s (.sortAccount account c ((sortAccount account c).run s).1)
        ((sortAccount account c).run s).2
  | clear (s : Selection) : Move ε s .clear s.clear
  | submit (s : Selection) : Move ε s (.submit (submit.run s).1) (submit.run s).2

/-- A selection and what has happened to it since it was `s₀`. -/
inductive Runs (ε : Type) [Engine ε] (s₀ : Selection) : List Event → Selection → Prop
  | start : Runs ε s₀ [] s₀
  | step {es : List Event} {e : Event} {s s' : Selection}
      (h : Runs ε s₀ es s) (hm : Move ε s e s') : Runs ε s₀ (es ++ [e]) s'

/-- What an event does to the fields of a selection. -/
inductive Change : Selection → Event → Selection → Prop
  /-- A failure leaves everything as it was. -/
  | failed {s : Selection} {e : Event} (he : e.Failed) : Change s e s
  | load {s : Selection} {sizing : Sizing} {groups : List Group}
      (hg : ∀ g ∈ groups, g.Unpicked) : Change s (.fetch (.ok groups)) (s.load sizing groups)
  /-- The flag is what it is to be. -/
  | keep {s : Selection} {p : OutPoint} {place : Place} {row : Row}
      (hs : s.Editable) (hf : s.found p = some (place, row)) :
      Change s (.setSelected p row.selected (.ok ())) s
  | set {s : Selection} {p : OutPoint} {place : Place} {row : Row}
      (hs : s.Editable) (hf : s.found p = some (place, row)) :
      Change s (.setSelected p (!row.selected) (.ok ())) (s.mark p (!row.selected) place row)
  | toggle {s : Selection} {p : OutPoint} {place : Place} {row : Row}
      (hs : s.Editable) (hf : s.found p = some (place, row)) :
      Change s (.toggle p (.ok (!row.selected))) (s.mark p (!row.selected) place row)
  | sort {s : Selection} {c : Column} : Change s (.sort c (s.sort c).1) (s.sort c).2
  | sortAccount {s : Selection} {account : UInt32} {c : Column} {pre : List Group} {g : Group}
      {post : List Group} (hg : s.groups = pre ++ g :: post)
      (hpre : ∀ h ∈ pre, h.account ≠ account) (ha : g.account = account) :
      Change s (.sortAccount account c (.ok (s.tracker.click c).direction))
        (s.sortGroup c pre g post)
  | clear {s : Selection} : Change s .clear s.clear
  | submit {s : Selection} (hs : s.Editable) (hp : s.stamps ≠ []) :
      Change s (.submit (.ok ⟨s.wallet, s.selectedOutputs, s.amount, s.size⟩))
        { s with stage := .submitted }

/-- Every move is one of the changes. -/
theorem Move.change {s s' : Selection} {e : Event} (h : Move ε s e s') : Change s e s' := by
  cases h with
  | fetch h =>
    rcases fetch_ends h with ⟨f, rfl, rfl⟩ | ⟨sizing, groups, rfl, rfl, hg⟩
    · exact .failed trivial
    · exact .load hg
  | toggle p =>
    rw [toggle_run]
    rcases s.whenFound_cases p fun place row =>
        (.ok (!row.selected), s.mark p (!row.selected) place row) with
      ⟨f, hw⟩ | ⟨place, row, hs, hf, hw⟩
    · rw [hw]; exact .failed trivial
    · rw [hw]; exact .toggle hs hf
  | setSelected p selected =>
    rw [setSelected_run]
    rcases s.whenFound_cases p fun place row =>
        (.ok (), if row.selected = selected then s else s.mark p selected place row) with
      ⟨f, hw⟩ | ⟨place, row, hs, hf, hw⟩
    · rw [hw]; exact .failed trivial
    · rw [hw]
      by_cases hsel : row.selected = selected
      · subst hsel
        rw [if_pos rfl]
        exact .keep hs hf
      · rw [if_neg hsel]
        -- there are only two flags
        obtain rfl : selected = !row.selected := by
          cases hr : row.selected <;> cases selected <;> simp_all
        exact .set hs hf
  | sort c => exact .sort
  | sortAccount account c =>
    rcases s.sortAccount_run account c with ⟨hr, -⟩ | ⟨pre, g, post, hg, hpre, ha, hr⟩
    · rw [hr]; exact .failed trivial
    · rw [hr]; exact .sortAccount hg hpre ha
  | clear => exact .clear
  | submit =>
    rcases s.submit_run with ⟨⟨f, hr⟩, -⟩ | ⟨⟨hs, hp⟩, hr⟩
    · rw [hr]; exact .failed trivial
    · rw [hr]; exact .submit hs hp

/-- A fetch that loads something with nobody in between is one of the moves. -/
theorem Move.of_run {ticket : Nat} {s s' : Selection} {registry : Registry ε}
    (h : ((Selection.fetch ticket s).run registry).1 = (.ok (), s')) :
    Move ε s (.fetch (.ok s'.groups)) s' := by
  have hends := Turns.ends_run (Selection.fetch ticket s registry)
  rw [show (Selection.fetch ticket s registry).run.1 = _ from h] at hends
  exact .fetch hends

theorem Runs.of_run {ticket : Nat} {s s' : Selection} {registry : Registry ε}
    (h : ((fetch ticket s).run registry).1 = (.ok (), s')) :
    Runs ε s [.fetch (.ok s'.groups)] s' :=
  .step .start (.of_run h)

/-- What holds at the start and is kept by every change holds at the end of every run. -/
theorem Runs.keeps {s₀ s : Selection} {es : List Event} {P : List Event → Selection → Prop}
    (h : Runs ε s₀ es s) (h₀ : P [] s₀)
    (hP : ∀ es s e s', Change s e s' → P es s → P (es ++ [e]) s') : P es s := by
  induction h with
  | start => exact h₀
  | step _ hm ih => exact hP _ _ _ _ hm.change ih

/-- A run that is not at its start has a last event. -/
theorem Runs.last {s₀ s : Selection} {es : List Event} {e : Event} (h : Runs ε s₀ (es ++ [e]) s) :
    ∃ s', Runs ε s₀ es s' ∧ Move ε s' e s := by
  generalize hl : es ++ [e] = l at h
  cases h with
  | start => simp at hl
  | step h hm =>
    obtain ⟨rfl, he⟩ := List.append_inj' hl rfl
    obtain rfl := List.singleton_inj.mp he
    exact ⟨_, h, hm⟩

/-! ## Small wallets

The first has one output, which is listed under both accounts if they have the same name:
the engine lists by name. The second has several under either account, and some of them tie. -/

namespace Sample

def engine (second : String) : InMemoryEngine where
  asset := .dcr
  accounts := [
    { number := 0
      name := "a"
      balance := .signed 500 500 0 0 0 0 0
      unspent := [
        { txid := "aa"
          vout := 0
          address := "Ds"
          script := "76a9"
          received := 1700000006
          details := .dcr 500 6 }] },
    { number := 1, name := second, balance := .signed 0 0 0 0 0 0 0 }]
  blockHash := default
  blockHeight := 5

def registry (second : String) : Registry InMemoryEngine where
  config := {}
  engines := [engine second]
  registrations := [{ access := ⟨0, .dcr, .mainnet⟩ }]
  wallets := [(7, 0)]

def point : OutPoint := ⟨"aa", 0⟩

/-- A fetch with nobody in between. -/
def fetched (second : String) : Outcome Unit × Selection :=
  ((fetch 0 { wallet := 7 }).run (registry second)).1

/-- What there is after it. -/
def loaded (second : String) : Selection :=
  (fetched second).2

/-- The row that an account gets for the output. -/
def row (account : UInt32) : Row where
  output :=
    { txid := "aa"
      vout := 0
      address := "Ds"
      script := "76a9"
      redeemScript := none
      amount := ⟨500⟩
      confirmations := 6
      received := ⟨1700000006, 0, by decide, by decide⟩
      spendable := true
      account }
  selected := false

theorem runs_loaded (second : String) (h : (fetched second).1 = .ok ()) :
    Runs InMemoryEngine { wallet := 7 } [.fetch (.ok (loaded second).groups)] (loaded second) := by
  have hok : fetched second = (.ok (), loaded second) := by
    rw [← h, loaded]
  exact .of_run hok

/-- An output that is worth so much and lies so deep. -/
def listed (txid : String) (units : Int64) (confirmations : Int32) : ReportedOutput where
  txid
  vout := 0
  address := "Ds"
  script := "76a9"
  received := 1700000006
  details := .dcr units confirmations

def ties : Registry InMemoryEngine where
  config := {}
  engines := [{
    asset := .dcr
    accounts := [
      { number := 0
        name := "a"
        balance := .signed 1800 1800 0 0 0 0 0
        unspent := [listed "aa" 500 6, listed "ab" 300 2, listed "ac" 500 2, listed "ad" 500 6] },
      { number := 1
        name := "b"
        balance := .signed 500 500 0 0 0 0 0
        unspent := [listed "ba" 200 3, listed "bb" 100 3, listed "bc" 200 3] }]
    blockHash := default
    blockHeight := 5 }]
  registrations := [{ access := ⟨0, .dcr, .mainnet⟩ }]
  wallets := [(7, 0)]

/-- What a fetch loads of it. -/
def tied : Selection :=
  ((fetch 0 { wallet := 7 }).run ties).1.2

theorem fetch_tied : ((fetch 0 { wallet := 7 }).run ties).1 = (.ok (), tied) := by
  rfl

/-- The output that an account gets for one of those. -/
def output (account : UInt32) (txid : String) (units : UInt64) (confirmations : Int64) :
    UnspentOutput :=
  { (row account).output with txid, amount := ⟨units⟩, confirmations }

theorem groups_tied : tied.groups = [
    ⟨0, "a", [⟨output 0 "aa" 500 6, false⟩, ⟨output 0 "ab" 300 2, false⟩,
      ⟨output 0 "ac" 500 2, false⟩, ⟨output 0 "ad" 500 6, false⟩]⟩,
    ⟨1, "b", [⟨output 1 "ba" 200 3, false⟩, ⟨output 1 "bb" 100 3, false⟩,
      ⟨output 1 "bc" 200 3, false⟩]⟩] := by
  rfl

end Sample

end Selection

end Purse
