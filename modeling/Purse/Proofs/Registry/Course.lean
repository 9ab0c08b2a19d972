import Purse.Proofs.Course
import Purse.Registry.Accounts

/-!
# The course of a refresh

A refresh looks its wallet up once. Then it lines up for the lock of the registration
that it has found, and once it has the lock it asks the engine; on success it puts a new
picture up in its last turn, and in any case it leaves the line. `Deed` says so of each
turn, what it does to the registry and what the refresh waits for after it, and
`refresh_turn` that there are no other turns, whatever others do in between.

Asking changes the wallet's engine only (`EngineOnly`), and the height of a picture is
one that the engine told in a turn after the lock was taken.
-/

namespace Purse

/-- A wait on the way through a call to an engine. -/
def Wait.OfCall (n : Nat) : Wait → Prop
  | admission m _ => m = n
  | lock _ _ | room => False
  | answer | look | turn => True

namespace Registry

variable {ε : Type} {α : Type} {s s' : Registry ε} {w : WalletId} {key ticket : Nat}

/-! ## Changes -/

/-- A ticket at the end of a registration's line. -/
def lineUp (s : Registry ε) (key ticket : Nat) : Registry ε :=
  s.modifyRegistration key fun r => { r with line := r.line ++ [ticket] }

/-- A new picture of a registration's accounts. -/
def putUp (s : Registry ε) (key : Nat) (snapshot : Accounts) : Registry ε :=
  s.modifyRegistration key fun r => { r with snapshot := some snapshot }

/-- How the wallet of a registration is reached. -/
def access? (s : Registry ε) (key : Nat) : Option Access :=
  s.registrations[key]?.map (·.access)

/-- The line for a registration's lock. -/
def line (s : Registry ε) (key : Nat) : List Nat :=
  (s.registrations[key]?.map (·.line)).getD []

/-- The last picture of a registration's accounts. -/
def picture (s : Registry ε) (key : Nat) : Option Accounts :=
  (s.registrations[key]?.map (·.snapshot)).join

theorem snapshot?_eq_picture (s : Registry ε) (w : WalletId) :
    s.snapshot? w = (s.key? w).bind s.picture := by
  unfold snapshot? registration? picture
  cases s.key? w with
  | none => rfl
  | some key =>
    show s.registrations[key]?.bind _ = (s.registrations[key]?.map _).join
    cases s.registrations[key]? with
    | none => rfl
    | some r => rfl

theorem getElem?_modifyRegistration (s : Registry ε) (key : Nat) (f : Registration → Registration)
    (k : Nat) : (s.modifyRegistration key f).registrations[k]? =
      s.registrations[k]?.map fun r => if key = k then f r else r := by
  show (s.registrations.modify key f)[k]? = _
  rw [List.getElem?_modify]
  by_cases hk : key = k <;> simp [hk]

theorem getElem?_leave (s : Registry ε) (ticket k : Nat) : (s.leave ticket).registrations[k]? =
    s.registrations[k]?.map fun r => { r with line := r.line.filter (· ≠ ticket) } :=
  List.getElem?_map

/-- What a change of a registration leaves alone. -/
theorem map_modifyRegistration (g : Registration → α) {f : Registration → Registration} (k : Nat)
    (h : ∀ r, g (f r) = g r) :
    (s.modifyRegistration key f).registrations[k]?.map g = s.registrations[k]?.map g := by
  rw [getElem?_modifyRegistration, Option.map_map]
  congr 1
  funext r
  by_cases hk : key = k <;> simp [hk, h]

theorem access?_lineUp (k : Nat) : (s.lineUp key ticket).access? k = s.access? k := by
  unfold lineUp access?
  exact map_modifyRegistration (·.access) k fun _ => rfl

theorem access?_putUp (p : Accounts) (k : Nat) : (s.putUp key p).access? k = s.access? k := by
  unfold putUp access?
  exact map_modifyRegistration (·.access) k fun _ => rfl

theorem access?_leave (k : Nat) : (s.leave ticket).access? k = s.access? k := by
  unfold access?
  rw [getElem?_leave, Option.map_map]
  rfl

theorem line_lineUp {a : Access} (h : s.access? key = some a) (k : Nat) :
    (s.lineUp key ticket).line k = if k = key then s.line key ++ [ticket] else s.line k := by
  unfold line lineUp
  rw [getElem?_modifyRegistration]
  by_cases hk : k = key
  · subst hk
    obtain ⟨r, hr, -⟩ := Option.map_eq_some_iff.mp h
    simp [hr]
  · rw [if_neg hk]
    simp [Ne.symm hk]

theorem line_putUp (p : Accounts) (k : Nat) : (s.putUp key p).line k = s.line k := by
  unfold putUp line
  have hline : (s.modifyRegistration key fun r => { r with snapshot := some p }).registrations[k]?.map
      (·.line) = _ := map_modifyRegistration _ k fun _ => rfl
  rw [hline]

theorem line_leave (k : Nat) : (s.leave ticket).line k = (s.line k).filter (· ≠ ticket) := by
  unfold line
  rw [getElem?_leave]
  cases s.registrations[k]? <;> rfl

theorem picture_lineUp (k : Nat) : (s.lineUp key ticket).picture k = s.picture k := by
  unfold lineUp picture
  exact congrArg Option.join (map_modifyRegistration _ k fun _ => by rfl)

theorem picture_putUp {a : Access} (h : s.access? key = some a) (p : Accounts) (k : Nat) :
    (s.putUp key p).picture k = if k = key then some p else s.picture k := by
  unfold picture putUp
  rw [getElem?_modifyRegistration]
  by_cases hk : k = key
  · subst hk
    obtain ⟨r, hr, -⟩ := Option.map_eq_some_iff.mp h
    simp [hr]
  · rw [if_neg hk]
    simp [Ne.symm hk]

theorem picture_leave (k : Nat) : (s.leave ticket).picture k = s.picture k := by
  unfold picture
  rw [getElem?_leave, Option.map_map]
  rfl

/-- A registration that is added has nothing yet. -/
theorem getElem?_add (s : Registry ε) (w : WalletId) (access : Access) (k : Nat) :
    (s.add w access).registrations[k]? =
      if k = s.registrations.length then some { access } else s.registrations[k]? := by
  show (s.registrations ++ [_])[k]? = _
  rw [List.getElem?_append]
  by_cases hlt : k < s.registrations.length
  · rw [if_pos hlt, if_neg (Nat.ne_of_lt hlt)]
  · rw [if_neg hlt]
    by_cases hk : k = s.registrations.length
    · rw [if_pos hk, hk, Nat.sub_self]
      rfl
    · rw [if_neg hk, List.getElem?_eq_none (by rw [List.length_singleton]; omega),
        List.getElem?_eq_none (by omega)]

theorem access?_add {w : WalletId} {access a : Access} {k : Nat} (h : s.access? k = some a) :
    (s.add w access).access? k = some a := by
  unfold access? at h ⊢
  obtain ⟨r, hr, -⟩ := Option.map_eq_some_iff.mp h
  obtain ⟨hlt, -⟩ := List.getElem?_eq_some_iff.mp hr
  rw [getElem?_add, if_neg (Nat.ne_of_lt hlt)]
  exact h

theorem line_add (w : WalletId) (access : Access) (k : Nat) :
    (s.add w access).line k = s.line k := by
  unfold line
  rw [getElem?_add]
  by_cases hk : k = s.registrations.length
  · rw [if_pos hk, hk, List.getElem?_eq_none (Nat.le_refl _)]
    rfl
  · rw [if_neg hk]

theorem picture_add (w : WalletId) (access : Access) (k : Nat) :
    (s.add w access).picture k = s.picture k := by
  unfold picture
  rw [getElem?_add]
  by_cases hk : k = s.registrations.length
  · rw [if_pos hk, hk, List.getElem?_eq_none (Nat.le_refl _)]
    rfl
  · rw [if_neg hk]

/-- Nothing but one engine has changed. -/
structure EngineOnly (n : Nat) (s s' : Registry ε) : Prop where
  config : s'.config = s.config
  registrations : s'.registrations = s.registrations
  wallets : s'.wallets = s.wallets
  engines : ∀ m, m ≠ n → s'.engines[m]? = s.engines[m]?

instance (n : Nat) : Std.Refl (EngineOnly (ε := ε) n) :=
  ⟨fun _ => ⟨rfl, rfl, rfl, fun _ _ => rfl⟩⟩

instance (n : Nat) : Trans (EngineOnly (ε := ε) n) (EngineOnly n) (EngineOnly n) where
  trans h₁ h₂ :=
    ⟨h₂.config.trans h₁.config, h₂.registrations.trans h₁.registrations,
      h₂.wallets.trans h₁.wallets, fun m hm => (h₂.engines m hm).trans (h₁.engines m hm)⟩

namespace EngineOnly

variable {n : Nat}

theorem access? (h : EngineOnly n s s') (k : Nat) : s'.access? k = s.access? k := by
  unfold Registry.access?
  rw [h.registrations]

theorem line (h : EngineOnly n s s') (k : Nat) : s'.line k = s.line k := by
  unfold Registry.line
  rw [h.registrations]

theorem picture (h : EngineOnly n s s') (k : Nat) : s'.picture k = s.picture k := by
  unfold Registry.picture
  rw [h.registrations]

end EngineOnly

/-! ## Looking up -/

/-- What looking a wallet up comes to. -/
def find (s : Registry ε) (w : WalletId) : Outcome (Nat × Registration) :=
  match s.key? w, s.registration? w with
  | some key, some r => .ok (key, r)
  | _, _ => .error (.notFound (.wallet w))

theorem find_ok {r : Registration} (h : s.find w = .ok (key, r)) :
    s.key? w = some key ∧ s.registrations[key]? = some r := by
  unfold find at h
  cases hk : s.key? w with
  | none =>
    rw [hk] at h
    cases h
  | some k =>
    cases hr : s.registration? w with
    | none =>
      rw [hk, hr] at h
      cases h
    | some r' =>
      rw [hk, hr] at h
      cases h
      unfold registration? at hr
      rw [hk] at hr
      exact ⟨rfl, hr⟩

/-- Whoever looks a wallet up goes on with what he finds after one pause. -/
theorem entry_bind_run (w : WalletId) (f : Nat × Registration → Op ε α) (s : Registry ε) :
    (entry w >>= f : Op ε α).run s = .pause .look s fun s' =>
      match s'.find w with
      | .ok kr => (f kr).run s'
      | .error e => .done (.error e) s' := by
  show Turns.pause Wait.look s _ = _
  congr 1
  funext s'
  unfold find
  show Turns.bind ((ExceptT.run (match s'.key? w, s'.registration? w with
    | some key, some r => _
    | _, _ => _) : Flow Wait (Registry ε) _) s') _ = _
  cases s'.key? w with
  | none => rfl
  | some key =>
    cases s'.registration? w with
    | none => rfl
    | some r => rfl

theorem entry_run (w : WalletId) (s : Registry ε) :
    (entry w : Op ε (Nat × Registration)).run s =
      .pause .look s fun s' => .done (s'.find w) s' := by
  have hrun := entry_bind_run w pure s
  rw [bind_pure] at hrun
  rw [hrun]
  congr 1
  funext s'
  cases s'.find w <;> rfl

theorem entry_within {P : Wait → Prop} {R : Registry ε → Registry ε → Prop} [Std.Refl R]
    [Trans R R R] (hP : P .look) (w : WalletId) :
    (entry w : Op ε (Nat × Registration)).Within P R := by
  unfold entry
  refine .bind (.pauseFor hP) fun _ => .bind .read fun s => ?_
  split
  · exact .pure _
  · exact .conclude (.error _)

/-- A wallet that is looked up is what it was in the second turn. -/
theorem entry_course {w : WalletId} {ts : List (Turn Wait (Registry ε))}
    {o : Outcome (Nat × Registration)}
    (h : (entry w : Op ε (Nat × Registration)).run.Course ts (.done o s)) :
    ∃ w₀ s₀, ts = [⟨w₀, s₀, s₀⟩, ⟨.look, s, s⟩] ∧ s.find w = o := by
  generalize ht : Turns.done o s = t at h
  cases h.head with
  | only w₀ s₀ =>
    rw [entry_run] at ht
    cases ht
  | more hrun h =>
    cases (entry_run w _).symm.trans hrun
    cases h.head with
    | only =>
      obtain ⟨hfind, rfl⟩ := Turns.done.inj ht
      exact ⟨_, _, rfl, hfind.symm⟩
    | more hdone => cases hdone

/-! ## Asking -/

theorem onEngine_within {P : Wait → Prop} (n : Nat) (missing : α) (f : ε → α × ε) :
    (onEngine n missing f : Flow Wait (Registry ε) α).Within P (EngineOnly n) := by
  refine .change fun s => ?_
  dsimp only
  split
  · exact Std.Refl.refl s
  · exact ⟨rfl, rfl, rfl, fun m hm => List.getElem?_set_ne hm.symm⟩

variable [Engine ε]

theorem ask_within (n : Nat) (c : Call) :
    (ask n c : Flow Wait (Registry ε) (Except EngineError c.Answer)).Within (Wait.OfCall n)
      (EngineOnly n) := by
  unfold ask
  refine .bind (onEngine_within n _ _) fun refusal => .bind (.pause rfl) fun _ => ?_
  cases refusal with
  | some refusal => exact .pure _
  | none =>
    refine .bind (onEngine_within n _ _) fun passage => ?_
    have hrest : (Flow.pause (if passage.looks then .look else .answer) >>= fun _ =>
        onEngine n (.error noEngine) (Engine.answer c) :
          Flow Wait (Registry ε) (Except EngineError c.Answer)).Within (Wait.OfCall n)
            (EngineOnly n) := by
      refine .bind (.pause ?_) fun _ => onEngine_within n _ _
      cases passage.looks <;> trivial
    cases passage.givesWay with
    | true => exact .bind (.pause trivial) fun _ => hrest
    | false => exact hrest

/-- The engine has given the answer in the state in which it was found. -/
def Told (n : Nat) (c : Call) (a : c.Answer) (s : Registry ε) : Prop :=
  ∃ e, s.engines[n]? = some e ∧ (Engine.answer c e).1 = .ok a

/-- An answer is the engine's own at the last turn. -/
theorem ask_learns (n : Nat) (c : Call) :
    (ask n c : Flow Wait (Registry ε) (Except EngineError c.Answer)).Learns (·.isOk)
      fun reply s => ∃ a, reply = .ok a ∧ Told n c a s := by
  unfold ask
  refine .after _ fun refusal => .after _ fun _ => ?_
  cases refusal with
  | some refusal => exact .pure Bool.false_ne_true
  | none =>
    refine .after _ fun passage => ?_
    have hrest : (Flow.pause (if passage.looks then .look else .answer) >>= fun _ =>
        onEngine n (.error noEngine) (Engine.answer c) :
          Flow Wait (Registry ε) (Except EngineError c.Answer)).Learns (·.isOk)
            fun reply s => ∃ a, reply = .ok a ∧ Told n c a s := by
      refine .pause _ fun s hok => ?_
      dsimp only at hok ⊢
      unfold Told
      cases he : s.engines[n]? with
      | none =>
        rw [he] at hok
        exact absurd hok Bool.false_ne_true
      | some e =>
        rw [he] at hok
        dsimp only at hok ⊢
        cases ha : (Engine.answer c e).1 with
        | error f =>
          rw [ha] at hok
          exact absurd hok Bool.false_ne_true
        | ok a => exact ⟨a, rfl, e, rfl, ha⟩
    cases passage.givesWay with
    | true => exact .after _ fun _ => hrest
    | false => exact hrest

theorem call_within (a : Access) (c : Call) :
    (call a c : Op ε c.Answer).Within (Wait.OfCall a.engine) (EngineOnly a.engine) :=
  Flow.Within.bind (ask_within a.engine c) fun _ => .pure _

theorem call_learns (a : Access) (c : Call) :
    (call a c : Op ε c.Answer).Learns (Told a.engine c) := by
  intro ts answer s h
  cases Flow.Course.parts (x := ask a.engine c) h with
  | @second pre post w s₁ s' s'' reply _ hask hf =>
    obtain ⟨w', s₂, hts, heq⟩ := hf.of_pure
    cases hts
    cases reply with
    | error f => cases heq
    | ok answer' =>
      cases heq
      obtain ⟨τ, hτ, a', ha', htold⟩ := ask_learns a.engine c _ _ _ hask rfl
      cases ha'
      exact ⟨τ, hτ, htold⟩

/-! ## Taking a picture -/

theorem price_within (w : WalletId) (a : Access) (info : AccountInfo) :
    (price w a info : Op ε Account).Within (Wait.OfCall a.engine) (EngineOnly a.engine) := by
  unfold price accountBalance accept
  refine .bind .read fun s => .bind (.bind (call_within a _) fun _ => .conclude _) fun _ => .pure _

/-- The picture that a refresh takes before it puts it up. -/
def survey (w : WalletId) (a : Access) : Op ε Accounts := do
  let listing ← listAccounts a
  let accounts ← listing.accounts.mapM (price w a)
  return ⟨accounts, listing.blockHash, listing.blockHeight⟩

theorem survey_within (w : WalletId) (a : Access) :
    (survey w a : Op ε Accounts).Within (Wait.OfCall a.engine) (EngineOnly a.engine) := by
  unfold survey listAccounts
  refine .bind (.bind (call_within a _) fun _ => .pure _) fun listing => ?_
  exact .bind (.mapM (price_within w a) _) fun accounts => .pure _

/-- The height of a picture is that of a listing which the engine gave. -/
def ToldHeight (a : Access) (height : Int32) (s : Registry ε) : Prop :=
  ∃ listing, Told a.engine (.accounts a.scope) listing s ∧ height = listing.blockHeight

/-- Adding the look-ahead leaves the height. -/
theorem listAccounts_learns (a : Access) :
    (listAccounts a : Op ε AccountListing).Learns fun l s => ToldHeight a l.blockHeight s :=
  .bind (call_learns a (.accounts a.scope)) fun listing => .pure fun _ h => ⟨listing, h, rfl⟩

theorem survey_learns (w : WalletId) (a : Access) :
    (survey w a : Op ε Accounts).Learns fun p s => ToldHeight a p.blockHeight s :=
  .bind (listAccounts_learns a) fun _ => .bind (.trivial _) fun _ _ => .pure fun _ h => h

/-- The end of a rebuilding that knows all balances. -/
def display (key : Nat) (snapshot : Accounts) : Op ε Accounts := do
  pauseFor .look
  modify (·.putUp key snapshot)
  return snapshot

omit [Engine ε] in
theorem display_run (key : Nat) (snapshot : Accounts) (s : Registry ε) :
    (display key snapshot).run s =
      .pause .look s fun s' => .done (.ok snapshot) (s'.putUp key snapshot) :=
  rfl

theorem rebuild_eq (w : WalletId) (key : Nat) (a : Access) :
    (rebuild w key a : Op ε Accounts) = survey w a >>= display key := by
  unfold rebuild survey
  simp only [bind_assoc, pure_bind]
  rfl

/-- What a turn of a rebuilding does. -/
inductive Rebuilding (key : Nat) (a : Access) (ts : List (Turn Wait (Registry ε)))
    (τ : Turn Wait (Registry ε)) : Turns Wait (Registry ε) (Outcome Accounts) → Prop
  | asks {wait : Wait} {s : Registry ε}
      {resume : Registry ε → Turns Wait (Registry ε) (Outcome Accounts)}
      (h : EngineOnly a.engine τ.found τ.left) (hwait : wait.OfCall a.engine) :
      Rebuilding key a ts τ (.pause wait s resume)
  | fails {f : Failure} {s : Registry ε} (h : EngineOnly a.engine τ.found τ.left) :
      Rebuilding key a ts τ (.done (.error f) s)
  | putsUp {p : Accounts} {s : Registry ε} (h : τ.left = τ.found.putUp key p)
      (htold : ∃ τ' ∈ ts.tail, ToldHeight a p.blockHeight τ'.found) :
      Rebuilding key a ts τ (.done (.ok p) s)

/-- Only the last turn of a success changes anything but engines. -/
theorem rebuild_turn {key : Nat} {a : Access} {ts : List (Turn Wait (Registry ε))}
    {τ : Turn Wait (Registry ε)} {t : Turns Wait (Registry ε) (Outcome Accounts)}
    (h : (rebuild w key a).run.Course (ts ++ [τ]) t) : Rebuilding key a ts τ t := by
  rw [rebuild_eq] at h
  generalize hts : ts ++ [τ] = turns at h
  have hlast : τ ∈ turns := hts ▸ List.mem_append_right _ (List.mem_singleton_self _)
  cases Op.parts h with
  | first hs =>
    obtain ⟨hturns, hwait⟩ := survey_within w a _ _ hs
    exact .asks (hturns τ hlast) (hwait _ _ _ rfl)
  | failed hs =>
    obtain ⟨hturns, -⟩ := survey_within w a _ _ hs
    exact .fails (hturns τ hlast)
  | @second pre post w₁ s s' s'' p _ hs hf =>
    obtain ⟨hturns, -⟩ := survey_within w a _ _ hs
    obtain ⟨τ', hτ', htold⟩ := survey_learns w a _ _ _ hs
    cases hf.head with
    | only =>
      -- the picture is there and has yet to be put up
      obtain ⟨rfl, hτ⟩ := List.append_inj' hts rfl
      cases hτ
      exact .asks (hturns _ (List.mem_append_right _ (List.mem_singleton_self _))) trivial
    | more hdisplay hf =>
      cases (display_run key p s').symm.trans hdisplay
      cases hf.head with
      | more hdone => cases hdone
      | only _ found =>
        obtain ⟨rfl, hτ⟩ := List.append_inj' (hts.trans (List.append_cons _ _ _)) rfl
        cases hτ
        exact .putsUp rfl ⟨τ', hτ', htold⟩

/-! ## A refresh as a whole -/

/-- A refresh that has the lock, up to its place in line. -/
def settle (ticket : Nat) (w : WalletId) (key : Nat) (a : Access) :
    Flow Wait (Registry ε) (Outcome Accounts) := do
  let outcome ← (rebuild w key a).run
  modifyGet fun s => (outcome, s.leave ticket)

theorem refresh_run (ticket : Nat) (w : WalletId) (s : Registry ε) :
    (refresh ticket w).run s = .pause .look s fun s' =>
      match s'.find w with
      | .ok (key, r) => .pause .room s' fun s'' =>
          .pause (.lock key ticket) (s''.lineUp key ticket) (settle ticket w key r.access)
      | .error e => .done (.error e) s' := by
  unfold refresh
  rw [entry_bind_run]
  congr 1
  funext s'
  cases s'.find w with
  | error e => rfl
  | ok kr =>
    show Turns.pause Wait.room s' _ = _
    congr 1
    funext s''
    show Turns.pause (Wait.lock kr.1 ticket) _ _ = _
    congr 1
    funext locked
    exact Turns.bind_assoc ((rebuild w kr.1 kr.2.access).run locked) _ _

/-- The second turn has found the wallet registered like this. -/
def FoundAs (w : WalletId) (key : Nat) (r : Registration) (ts : List (Turn Wait (Registry ε))) :
    Prop :=
  ∃ τ, ts[1]? = some τ ∧ τ.found.find w = .ok (key, r)

omit [Engine ε] in
theorem FoundAs.append {key : Nat} {r : Registration} {ts : List (Turn Wait (Registry ε))}
    (h : FoundAs w key r ts) (ts' : List (Turn Wait (Registry ε))) : FoundAs w key r (ts ++ ts') := by
  obtain ⟨τ, hτ, hfind⟩ := h
  obtain ⟨hlt, -⟩ := List.getElem?_eq_some_iff.mp hτ
  exact ⟨τ, by rwa [List.getElem?_append_left hlt], hfind⟩

omit [Engine ε] in
theorem foundAs_unique {key key' : Nat} {r r' : Registration} {ts : List (Turn Wait (Registry ε))}
    (h : FoundAs w key r ts) (h' : FoundAs w key' r' ts) : key = key' ∧ r = r' := by
  obtain ⟨τ, hτ, hfind⟩ := h
  obtain ⟨τ', hτ', hfind'⟩ := h'
  cases hτ.symm.trans hτ'
  cases hfind.symm.trans hfind'
  exact ⟨rfl, rfl⟩

omit [Engine ε] in
/-- The second turn is the one that finds. -/
theorem foundAs_concat {key : Nat} {r : Registration} {ts : List (Turn Wait (Registry ε))}
    {τ : Turn Wait (Registry ε)} : FoundAs w key r (ts ++ [τ]) ↔
    FoundAs w key r ts ∨ ts.length = 1 ∧ τ.found.find w = .ok (key, r) := by
  constructor
  · rintro ⟨τ', hτ', hfind⟩
    rw [List.getElem?_append] at hτ'
    by_cases hlt : 1 < ts.length
    · rw [if_pos hlt] at hτ'
      exact Or.inl ⟨τ', hτ', hfind⟩
    · rw [if_neg hlt] at hτ'
      obtain ⟨hle, -⟩ := List.getElem?_eq_some_iff.mp hτ'
      rw [List.length_singleton] at hle
      have hone : ts.length = 1 := by omega
      rw [hone] at hτ'
      cases hτ'
      exact Or.inr ⟨hone, hfind⟩
  · rintro (h | ⟨hone, hfind⟩)
    · exact h.append _
    · refine ⟨τ, ?_, hfind⟩
      rw [List.getElem?_append_right (by omega), hone]
      rfl

/-- What a turn of a refresh does after the turns that it has had, and what is left of
the refresh. From the fourth turn on it has the lock. -/
inductive Deed (ticket : Nat) (w : WalletId) (ts : List (Turn Wait (Registry ε)))
    (τ : Turn Wait (Registry ε)) : Turns Wait (Registry ε) (Outcome Accounts) → Prop
  | begins {resume : Registry ε → Turns Wait (Registry ε) (Outcome Accounts)}
      (h : ts.length = 0) (hleft : τ.left = τ.found) : Deed ticket w ts τ (.pause .look τ.left resume)
  | misses {f : Failure} (h : ts.length = 1) (hleft : τ.left = τ.found)
      (hfind : τ.found.find w = .error f) : Deed ticket w ts τ (.done (.error f) τ.left)
  | finds {key : Nat} {r : Registration}
      {resume : Registry ε → Turns Wait (Registry ε) (Outcome Accounts)}
      (h : ts.length = 1) (hleft : τ.left = τ.found) (hfind : τ.found.find w = .ok (key, r)) :
      Deed ticket w ts τ (.pause .room τ.left resume)
  | linesUp {key : Nat} {r : Registration}
      {resume : Registry ε → Turns Wait (Registry ε) (Outcome Accounts)}
      (h : ts.length = 2) (hfound : FoundAs w key r ts)
      (hleft : τ.left = τ.found.lineUp key ticket) :
      Deed ticket w ts τ (.pause (.lock key ticket) τ.left resume)
  | asks {key : Nat} {r : Registration} {wait : Wait}
      {resume : Registry ε → Turns Wait (Registry ε) (Outcome Accounts)}
      (h : 3 ≤ ts.length) (hfound : FoundAs w key r ts)
      (he : EngineOnly r.access.engine τ.found τ.left)
      (hwait : wait.OfCall r.access.engine) : Deed ticket w ts τ (.pause wait τ.left resume)
  | fails {key : Nat} {r : Registration} {s : Registry ε} {f : Failure}
      (h : 3 ≤ ts.length) (hfound : FoundAs w key r ts) (he : EngineOnly r.access.engine τ.found s)
      (hleft : τ.left = s.leave ticket) : Deed ticket w ts τ (.done (.error f) τ.left)
  | succeeds {key : Nat} {r : Registration} {p : Accounts}
      (h : 3 ≤ ts.length) (hfound : FoundAs w key r ts)
      (hleft : τ.left = (τ.found.putUp key p).leave ticket)
      (htold : ∃ τ' ∈ ts.drop 4, ToldHeight r.access p.blockHeight τ'.found) :
      Deed ticket w ts τ (.done (.ok p) τ.left)

/-- Turns leave the wallets and the ways in which they are reached. -/
theorem Deed.frame {ts : List (Turn Wait (Registry ε))} {τ : Turn Wait (Registry ε)}
    {t : Turns Wait (Registry ε) (Outcome Accounts)} (h : Deed ticket w ts τ t) :
    τ.left.wallets = τ.found.wallets ∧ ∀ k, τ.left.access? k = τ.found.access? k := by
  cases h with
  | begins _ hleft | misses _ hleft | finds _ hleft =>
    rw [hleft]
    exact ⟨rfl, fun _ => rfl⟩
  | linesUp _ _ hleft =>
    rw [hleft]
    exact ⟨rfl, fun k => access?_lineUp k⟩
  | asks _ _ he => exact ⟨he.wallets, he.access?⟩
  | fails _ _ he hleft =>
    rw [hleft]
    exact ⟨he.wallets, fun k => (access?_leave k).trans (he.access? k)⟩
  | succeeds _ _ hleft =>
    rw [hleft]
    exact ⟨rfl, fun k => (access?_leave k).trans (access?_putUp _ k)⟩

/-- After its lock is free a refresh asks until it fails or succeeds. -/
theorem settle_turn {pre ts : List (Turn Wait (Registry ε))} {τ : Turn Wait (Registry ε)}
    {r : Registration} {t : Turns Wait (Registry ε) (Outcome Accounts)}
    (hpre : pre.length = 3) (hfound : FoundAs w key r (pre ++ ts))
    (h : (settle ticket w key r.access).Course (ts ++ [τ]) t) : Deed ticket w (pre ++ ts) τ t := by
  have hlength : 3 ≤ (pre ++ ts).length := by
    rw [List.length_append]
    omega
  have hleft := h.left
  generalize hts : ts ++ [τ] = turns at h
  cases h.parts with
  | @first _ wait s' resume hr =>
    have hs' : s' = τ.left := hleft.symm
    subst hs'
    rw [← hts] at hr
    cases rebuild_turn hr with
    | asks he hwait => exact .asks hlength hfound he hwait
  | @second pre' post wait found s₁ s₂ o _ hr hf =>
    obtain ⟨w', s', hpost, rfl⟩ := hf.of_change
    cases hpost
    obtain ⟨rfl, hτ⟩ := List.append_inj' hts rfl
    cases hτ
    cases rebuild_turn hr with
    | fails he => exact .fails hlength hfound he rfl
    | putsUp hput htold =>
      dsimp only at hput
      subst hput
      obtain ⟨τ', hτ', htold⟩ := htold
      refine .succeeds hlength hfound rfl ⟨τ', ?_, htold⟩
      -- the fourth turn is the first of the rebuilding
      rw [List.drop_append, hpre, List.drop_of_length_le (by omega), List.nil_append]
      rwa [List.drop_one]

omit [Engine ε] in
theorem eq_append_of_last {ts post : List α} {τ d : α} (pre : List α)
    (h : ts ++ [τ] = pre ++ d :: post) :
    ∃ ts', ts = pre ++ ts' ∧ ts' ++ [τ] = d :: post := by
  rcases List.append_eq_append_iff.mp h with ⟨ts', rfl, hlast⟩ | ⟨ts', rfl, hlast⟩
  · cases ts' with
    | nil => exact ⟨[], by simp, hlast⟩
    | cons _ _ => simp at hlast
  · exact ⟨ts', rfl, hlast.symm⟩

/-- Whatever others do meanwhile, a turn of a refresh is one of these. -/
theorem refresh_turn {ts : List (Turn Wait (Registry ε))} {τ : Turn Wait (Registry ε)}
    {t : Turns Wait (Registry ε) (Outcome Accounts)}
    (h : (refresh ticket w).run.Course (ts ++ [τ]) t) : Deed ticket w ts τ t := by
  generalize hts : ts ++ [τ] = turns at h
  cases h.head with
  | only w₀ s =>
    obtain ⟨rfl, hτ⟩ := eq_of_concat [] hts
    cases hτ
    exact .begins rfl rfl
  | @more _ _ _ _ s _ _ _ _ hrun h =>
    cases (refresh_run ticket w _).symm.trans hrun
    cases h.head with
    | only =>
      obtain ⟨rfl, hτ⟩ := eq_of_concat [_] hts
      cases hτ
      cases hfind : s.find w with
      | error f => exact .misses rfl rfl hfind
      | ok kr => exact .finds rfl rfl hfind
    | more hrun h =>
      cases hfind : s.find w with
      | error f =>
        rw [hfind] at hrun
        cases hrun
      | ok kr =>
        rw [hfind] at hrun
        cases hrun
        cases h.head with
        | only _ s' =>
          obtain ⟨rfl, hτ⟩ := eq_of_concat [_, _] hts
          cases hτ
          exact .linesUp rfl ⟨_, rfl, hfind⟩ rfl
        | more hrun h =>
          cases hrun
          -- the turns up to here are the first three
          obtain ⟨ts, rfl, hlast⟩ := eq_append_of_last [_, _, _] hts
          rw [← hlast] at h
          exact settle_turn rfl ⟨_, rfl, hfind⟩ h

/-- What a refresh waits for after so many turns. -/
inductive Awaits (ticket : Nat) (w : WalletId) (ts : List (Turn Wait (Registry ε))) : Wait → Prop
  | start (h : ts.length = 0) : Awaits ticket w ts .answer
  | look (h : ts.length = 1) : Awaits ticket w ts .look
  | room (h : ts.length = 2) : Awaits ticket w ts .room
  | lock {key : Nat} {r : Registration} (h : ts.length = 3) (hfound : FoundAs w key r ts) :
      Awaits ticket w ts (.lock key ticket)
  | call {key : Nat} {r : Registration} {wait : Wait} (h : 4 ≤ ts.length)
      (hfound : FoundAs w key r ts) (hcall : wait.OfCall r.access.engine) : Awaits ticket w ts wait

theorem refresh_awaits {ts : List (Turn Wait (Registry ε))} {wait : Wait}
    {resume : Registry ε → Turns Wait (Registry ε) (Outcome Accounts)}
    (h : (refresh ticket w).run.Waits .answer ts wait resume) : Awaits ticket w ts wait := by
  cases h with
  | begun => exact .start rfl
  | pauses h =>
    rcases List.eq_nil_or_concat ts with rfl | ⟨ts, τ, rfl⟩
    · exact absurd rfl h.ne_nil
    · rw [List.concat_eq_append] at h ⊢
      have hlength : (ts ++ [τ]).length = ts.length + 1 := List.length_append
      cases refresh_turn h with
      | begins h => exact .look (by omega)
      | finds h => exact .room (by omega)
      | linesUp h hfound => exact .lock (by omega) (hfound.append _)
      | asks h hfound _ hwait => exact .call (by omega) (hfound.append _) hwait

end Registry

end Purse
