import Purse.Proofs.Registry.Creating

/-!
# New accounts made at the same time

`Creations` are calls for new accounts of one wallet that take turns in any order. Nobody
waits for anybody else, so the one who is done first locks the wallet under all who have just
unlocked it.

The log keeps the turns that matter to others (`Mark`), and an engine in memory is as locked
as the last of them has left it. So a call is refused exactly if the last turn before its own
last one that mattered was another's last one (`creations_overlapping`). What holds after any
turns (`Keeps`) is kept by each (`Keeps.perform`): it says of every call how far it is
(`Stage`), and whatever others do leaves that alone (`Stage.frame`).
-/

namespace Purse

variable {ε : Type}

/-- How far a call for a new account has come. -/
inductive Creation (ε : Type) where
  | waits (wait : Wait) (resume : Flow Wait (Registry ε) (Outcome UInt32))
  | ended (outcome : Outcome UInt32)

namespace Creation

/-- What is left of a call after a turn. -/
def after : Turns Wait (Registry ε) (Outcome UInt32) → Creation ε
  | .done outcome _ => ended outcome
  | .pause wait _ resume => waits wait resume

def outcome? : Creation ε → Option (Outcome UInt32)
  | waits _ _ => none
  | ended outcome => some outcome

end Creation

/-- A turn that matters to the other calls: the caller has unlocked the wallet and asks for
the account, or leaves. -/
structure Mark where
  caller : Nat
  leaves : Bool
  deriving DecidableEq, Repr

/-- What a turn means to the other calls. -/
def Mark.of? (i : Nat) : Turns Wait (Registry ε) (Outcome UInt32) → Option Mark
  | .done _ _ => some ⟨i, true⟩
  | .pause (.admission _ (.nextAccount _ _)) _ _ => some ⟨i, false⟩
  | .pause _ _ _ => none

theorem Mark.caller_of {i : Nat} {t : Turns Wait (Registry ε) (Outcome UInt32)} {m : Mark}
    (h : Mark.of? i t = some m) : m.caller = i := by
  unfold Mark.of? at h
  split at h <;> cases h <;> rfl

namespace Creations

/-- The call has left right after another one. -/
def Relocked (log : List Mark) (i : Nat) : Prop :=
  ∃ k j, log[k]? = some ⟨j, true⟩ ∧ log[k + 1]? = some ⟨i, true⟩

theorem relocked_append {log marks : List Mark} {i : Nat} (h : ∀ m ∈ marks, m.caller ≠ i) :
    Relocked (log ++ marks) i ↔ Relocked log i := by
  constructor
  · rintro ⟨k, j, hj, hi⟩
    have hlt : k + 1 < log.length := by
      by_contra hge
      rw [List.getElem?_append_right (by omega)] at hi
      exact h _ (List.mem_of_getElem? hi) rfl
    rw [List.getElem?_append_left hlt] at hi
    rw [List.getElem?_append_left (by omega)] at hj
    exact ⟨k, j, hj, hi⟩
  · rintro ⟨k, j, hj, hi⟩
    obtain ⟨hk, -⟩ := List.getElem?_eq_some_iff.mp hi
    refine ⟨k, j, ?_, ?_⟩
    · rwa [List.getElem?_append_left (by omega)]
    · rwa [List.getElem?_append_left hk]

/-- A call that leaves for the first time leaves right after the last mark. -/
theorem relocked_leave {log : List Mark} {i : Nat} (h : ⟨i, true⟩ ∉ log) :
    Relocked (log ++ [⟨i, true⟩]) i ↔ ∃ j, log.getLast? = some ⟨j, true⟩ := by
  constructor
  · rintro ⟨k, j, hj, hi⟩
    have hge : ¬k + 1 < log.length := fun hlt => by
      rw [List.getElem?_append_left hlt] at hi
      exact h (List.mem_of_getElem? hi)
    obtain ⟨hk, -⟩ := List.getElem?_eq_some_iff.mp hi
    have hlength : k + 1 = log.length := by
      simp only [List.length_append, List.length_singleton] at hk
      omega
    rw [List.getElem?_append_left (by omega)] at hj
    exact ⟨j, by rwa [List.getLast?_eq_getElem?, ← hlength, Nat.add_sub_cancel]⟩
  · rintro ⟨j, hj⟩
    rw [List.getLast?_eq_getElem?] at hj
    obtain ⟨hlt, -⟩ := List.getElem?_eq_some_iff.mp hj
    refine ⟨log.length - 1, j, ?_, ?_⟩
    · rwa [List.getElem?_append_left hlt]
    · rw [Nat.sub_add_cancel (by omega), List.getElem?_concat_length]

end Creations

/-- A registry with calls for new accounts of one wallet, and the turns that mattered. -/
structure Creations (ε : Type) where
  registry : Registry ε
  calls : List (Creation ε)
  log : List Mark := []

variable [Engine ε]

theorem Mark.of?_idle {w : Wait} (h : Registry.Idle ε w) (i : Nat) (s : Registry ε)
    (resume : Flow Wait (Registry ε) (Outcome UInt32)) :
    Mark.of? i (.pause w s resume) = none := by
  unfold Mark.of?
  split
  · next heq => cases heq
  · next heq =>
    cases heq
    exact absurd rfl (h.2 _ _ _)
  · rfl

namespace Creations

/-- A call for each of the names, before its first turn. -/
def begin (s : Registry ε) (w : WalletId) (passphrase : String) (names : List String) :
    Creations ε where
  registry := s
  calls := names.map fun name => .waits .answer (Registry.createAccount w name passphrase).run

/-- The turn that a call would have now. -/
def turn? (c : Creations ε) (i : Nat) : Option (Turns Wait (Registry ε) (Outcome UInt32)) :=
  match c.calls[i]? with
  | some (.waits wait resume) =>
    if c.registry.isOver wait then some (resume c.registry) else none
  | _ => none

/-- A call has a turn, if it need not wait. -/
def perform (c : Creations ε) (i : Nat) : Creations ε :=
  match c.turn? i with
  | some t =>
    { registry := t.state
      calls := c.calls.set i (.after t)
      log := c.log ++ (Mark.of? i t).toList }
  | none => c

/-- The calls have turns in this order. -/
def after (c : Creations ε) (schedule : List Nat) : Creations ε :=
  schedule.foldl perform c

/-! ## What is true of every call -/

variable {inner : ε → InMemoryEngine} {s : Registry ε} {n : Nat} {passphrase : String}
  {names : List String} {log marks : List Mark} {accounts made : List StoredAccount} {i : Nat}
  {name : String} {taken : Nat} {x : Creation ε}

/-- How far a call can be that has had so many turns. -/
inductive Stage (inner : ε → InMemoryEngine) (s : Registry ε) (n : Nat) (passphrase : String)
    (log : List Mark) (accounts : List StoredAccount) (i : Nat) (name : String) (taken : Nat) :
    Creation ε → Prop
  | begun {wait : Wait} {resume : Flow Wait (Registry ε) (Outcome UInt32)} {k : Nat}
      (hwait : ∀ s : Registry ε, s.isOver wait = true)
      (h : Registry.Approaches inner s n (Registry.Unlocks inner s n passphrase name) k resume)
      (hk : k + 4 + taken ≤ 8) (hlog : ⟨i, true⟩ ∉ log) (hname : ∀ a ∈ accounts, a.name ≠ name) :
      Stage inner s n passphrase log accounts i name taken (.waits wait resume)
  | unlocked {wait : Wait} {resume : Flow Wait (Registry ε) (Outcome UInt32)} {k : Nat}
      (hwait : ∀ s : Registry ε, s.isOver wait = true)
      (h : Registry.Approaches inner s n (Registry.Leaves inner s n name) k resume)
      (hk : k + 1 + taken ≤ 8) (hlog : ⟨i, true⟩ ∉ log) (hmark : ⟨i, false⟩ ∈ log)
      (hname : ∀ a ∈ accounts, a.name ≠ name) :
      Stage inner s n passphrase log accounts i name taken (.waits wait resume)
  | refused (h : Relocked log i) (hname : ∀ a ∈ accounts, a.name ≠ name) :
      Stage inner s n passphrase log accounts i name taken (.ended (.error .walletLocked))
  | made {a : StoredAccount} (h : ¬Relocked log i) (hlog : ⟨i, true⟩ ∈ log) (ha : a ∈ accounts)
      (hname : a.name = name) :
      Stage inner s n passphrase log accounts i name taken (.ended (.ok a.number))

/-- What others do does not change how far a call is. -/
theorem Stage.frame (h : Stage inner s n passphrase log accounts i name taken x)
    (hmarks : ∀ m ∈ marks, m.caller ≠ i) (hmade : ∀ a ∈ made, a.name ≠ name) :
    Stage inner s n passphrase (log ++ marks) (accounts ++ made) i name taken x := by
  have hlog (hl : (⟨i, true⟩ : Mark) ∉ log) : ⟨i, true⟩ ∉ log ++ marks := fun hm =>
    (List.mem_append.mp hm).elim hl fun hm => hmarks _ hm rfl
  have hname (hn : ∀ a ∈ accounts, a.name ≠ name) : ∀ a ∈ accounts ++ made, a.name ≠ name :=
    fun a ha => (List.mem_append.mp ha).elim (hn a) (hmade a)
  cases h with
  | begun hwait h hk hl hn => exact .begun hwait h hk (hlog hl) (hname hn)
  | unlocked hwait h hk hl hmark hn =>
    exact .unlocked hwait h hk (hlog hl) (List.mem_append_left _ hmark) (hname hn)
  | refused h hn => exact .refused ((relocked_append hmarks).mpr h) (hname hn)
  | made h hl ha hn =>
    exact .made (mt (relocked_append hmarks).mp h) (List.mem_append_left _ hl)
      (List.mem_append_left _ ha) hn

/-- Who is done has no more turns, whoever else has. -/
theorem Stage.idle {o : Outcome UInt32}
    (h : Stage inner s n passphrase log accounts i name taken (.ended o)) (taken' : Nat) :
    Stage inner s n passphrase log accounts i name taken' (.ended o) := by
  cases h with
  | refused h hn => exact .refused h hn
  | made h hl ha hn => exact .made h hl ha hn

/-- What a turn does to the engine as far as others are concerned. -/
structure Changes (name : String) (mark : Option Mark) (made : Option StoredAccount)
    (e e' : InMemoryEngine) : Prop where
  right : e'.passphrase = e.passphrase
  locked : e'.locked = (mark.map (·.leaves)).getD e.locked
  accounts : e'.accounts = e.accounts ++ made.toList
  named : ∀ a ∈ made, a.name = name

/-- To be counted changes nothing for others. -/
theorem Changes.counted {e e' : InMemoryEngine} (name : String) (h : e.Counted e') :
    Changes name none none e e' := by
  obtain ⟨counts, rfl⟩ := h
  exact ⟨rfl, rfl, (List.append_nil _).symm, nofun⟩

/-- What holds of calls that have had turns in some order: of the registry, of the engine
that it holds now, and of each call. -/
structure Keeps (inner : ε → InMemoryEngine) (s : Registry ε) (n : Nat) (passphrase : String)
    (names : List String) (before : InMemoryEngine) (schedule : List Nat) (c : Creations ε)
    (e : ε) : Prop where
  registry : c.registry = s.withEngine n e
  right : (inner e).passphrase = passphrase
  /-- The wallet is as locked as the last turn that mattered has left it. -/
  locked : (inner e).locked = (c.log.getLast?.map (·.leaves)).getD before.locked
  length : c.calls.length = names.length
  stage : ∀ i name, names[i]? = some name → ∃ x, c.calls[i]? = some x ∧
    Stage inner s n passphrase c.log (inner e).accounts i name (schedule.count i) x
  accounts : ∃ made, (inner e).accounts = before.accounts ++ made ∧ (made.map (·.name)).Nodup ∧
    ∀ a ∈ made, a.name ∈ names
  /-- Who was the last to unlock the wallet is still there. -/
  held : ∀ j, c.log.getLast? = some ⟨j, false⟩ →
    ∃ wait resume, c.calls[j]? = some (.waits wait resume)

namespace Keeps

variable {before : InMemoryEngine} {schedule : List Nat} {c : Creations ε} {e e' : ε}

/-- Nobody has a turn who is not under way. -/
theorem idle (h : Keeps inner s n passphrase names before schedule c e) {i : Nat}
    (hi : ∀ wait resume, c.calls[i]? ≠ some (.waits wait resume)) :
    Keeps inner s n passphrase names before (schedule ++ [i]) (c.perform i) e := by
  have hturn : c.turn? i = none := by
    unfold turn?
    cases hx : c.calls[i]? with
    | none => rfl
    | some x =>
      cases x with
      | waits wait resume => exact absurd hx (hi wait resume)
      | ended o => rfl
  have hsame : c.perform i = c := by
    unfold perform
    rw [hturn]
  rw [hsame]
  refine { h with stage := fun j name hj => ?_ }
  obtain ⟨x, hx, hstage⟩ := h.stage j name hj
  refine ⟨x, hx, ?_⟩
  cases x with
  | waits wait resume =>
    have hne : i ≠ j := by
      rintro rfl
      exact hi wait resume hx
    rw [List.count_append, List.count_singleton, beq_false_of_ne hne]
    exact hstage
  | ended o => exact hstage.idle _

/-- A turn of a call that is under way keeps what holds of all of them, if it does of what
it touches. -/
theorem turn (h : Keeps inner s n passphrase names before schedule c e) (hnames : names.Nodup)
    {i : Nat} (hi : names[i]? = some name) (hname : ∀ a ∈ (inner e).accounts, a.name ≠ name)
    {wait : Wait} {resume : Flow Wait (Registry ε) (Outcome UInt32)}
    (hx : c.calls[i]? = some (.waits wait resume)) (hwait : ∀ s : Registry ε, s.isOver wait = true)
    {t : Turns Wait (Registry ε) (Outcome UInt32)} (ht : resume (s.withEngine n e) = t)
    (hstate : t.state = s.withEngine n e') {made : Option StoredAccount}
    (hchange : Changes name (Mark.of? i t) made (inner e) (inner e'))
    (hstage : Stage inner s n passphrase (c.log ++ (Mark.of? i t).toList) (inner e').accounts i name
      (schedule.count i + 1) (.after t)) :
    Keeps inner s n passphrase names before (schedule ++ [i]) (c.perform i) e' := by
  have hturn : c.turn? i = some t := by
    unfold turn?
    rw [hx]
    dsimp only
    rw [if_pos (hwait _), h.registry, ht]
  have hperform : c.perform i = ⟨t.state, c.calls.set i (.after t), c.log ++ (Mark.of? i t).toList⟩ := by
    unfold perform
    rw [hturn]
  rw [hperform]
  have hlast : (c.log ++ (Mark.of? i t).toList).getLast? = (Mark.of? i t).or c.log.getLast? := by
    cases Mark.of? i t with
    | none => simp
    | some m => simp
  have hlt : i < c.calls.length := (List.getElem?_eq_some_iff.mp hx).1
  refine ⟨hstate, hchange.right.trans h.right, ?_, ?_, ?_, ?_, ?_⟩
  · rw [hchange.locked, h.locked]
    dsimp only
    rw [hlast]
    cases Mark.of? i t <;> rfl
  · rw [List.length_set]
    exact h.length
  · intro j name' hj
    by_cases hij : i = j
    · subst hij
      cases hi.symm.trans hj
      refine ⟨_, List.getElem?_set_self hlt, ?_⟩
      rw [List.count_append, List.count_singleton_self]
      exact hstage
    · obtain ⟨y, hy, hstage'⟩ := h.stage j name' hj
      refine ⟨y, ?_, ?_⟩
      · rwa [List.getElem?_set_ne hij]
      · rw [List.count_append, List.count_singleton, beq_false_of_ne hij, hchange.accounts]
        refine hstage'.frame ?_ ?_
        · intro m hm
          rw [Mark.caller_of (Option.mem_toList.mp hm)]
          exact hij
        · intro a ha heq
          rw [hchange.named a (Option.mem_toList.mp ha)] at heq
          subst heq
          -- no two calls have the same name
          obtain ⟨hlt', -⟩ := List.getElem?_eq_some_iff.mp hi
          exact hij ((List.getElem?_inj hlt' hnames).mp (hi.trans hj.symm))
  · obtain ⟨others, hothers, hnodup, hmem⟩ := h.accounts
    refine ⟨others ++ made.toList, ?_, ?_, ?_⟩
    · rw [hchange.accounts, hothers, List.append_assoc]
    · cases made with
      | none => simpa using hnodup
      | some a =>
        have hnew : a.name ∉ others.map (·.name) := by
          rw [hchange.named a rfl]
          intro hmem
          obtain ⟨b, hb, heq⟩ := List.mem_map.mp hmem
          refine hname b ?_ heq
          rw [hothers]
          exact List.mem_append_right _ hb
        rw [Option.toList_some, List.map_append, List.map_singleton]
        refine List.nodup_append.mpr ⟨hnodup, List.pairwise_singleton _ _, fun b hb a' ha' => ?_⟩
        rw [List.mem_singleton.mp ha']
        exact fun heq => hnew (heq ▸ hb)
    · intro a ha
      rcases List.mem_append.mp ha with ha | ha
      · exact hmem a ha
      · rw [hchange.named a (Option.mem_toList.mp ha)]
        exact List.mem_of_getElem? hi
  · intro j hj
    dsimp only at hj ⊢
    rw [hlast] at hj
    by_cases hij : i = j
    · subst hij
      rw [List.getElem?_set_self hlt]
      cases t with
      | done o s' => cases hj
      | pause wait s' resume => exact ⟨wait, resume, rfl⟩
    · rw [List.getElem?_set_ne hij]
      refine h.held j ?_
      cases hm : Mark.of? i t with
      | none => simpa [hm] using hj
      | some m =>
        rw [hm] at hj
        cases hj
        exact absurd (Mark.caller_of hm).symm hij

/-- If anything has happened that mattered, the last of it shows in the lock. -/
theorem last (h : Keeps inner s n passphrase names before schedule c e) {m : Mark}
    (hm : m ∈ c.log) : ∃ j, c.log.getLast? = some ⟨j, (inner e).locked⟩ := by
  have hlast := List.getLast?_eq_some_getLast (List.ne_nil_of_mem hm)
  have hlocked := h.locked
  rw [hlast] at hlocked
  exact ⟨_, by rw [hlast, hlocked]; rfl⟩

/-- A call leaves. -/
theorem leave (h : Keeps inner s n passphrase names before schedule c e) (hnames : names.Nodup)
    {i : Nat} (hi : names[i]? = some name) {wait : Wait}
    {resume : Flow Wait (Registry ε) (Outcome UInt32)}
    (hx : c.calls[i]? = some (.waits wait resume)) (hwait : ∀ s : Registry ε, s.isOver wait = true)
    (hleaves : Registry.Leaves inner s n name resume) (hlog : ⟨i, true⟩ ∉ c.log)
    (hmark : ⟨i, false⟩ ∈ c.log) (hname : ∀ a ∈ (inner e).accounts, a.name ≠ name) :
    ∃ e', Keeps inner s n passphrase names before (schedule ++ [i]) (c.perform i) e' := by
  obtain ⟨e', ht, hleft⟩ := hleaves e
  obtain ⟨j, hlast⟩ := h.last hmark
  have hrelocked := relocked_leave hlog
  cases hlocked : (inner e).locked with
  | true =>
    rw [InMemoryEngine.newAccount_locked hlocked] at ht hleft
    have hchange : Changes name (some ⟨i, true⟩) none (inner e) (inner e') := by
      rw [hleft]
      exact ⟨rfl, rfl, (List.append_nil _).symm, nofun⟩
    refine ⟨e', h.turn hnames hi hname hx hwait ht rfl hchange (.refused ?_ ?_)⟩
    · rw [hlocked] at hlast
      exact hrelocked.mpr ⟨j, hlast⟩
    · rw [hleft]
      exact hname
  | false =>
    obtain ⟨a, ha, hmade⟩ := InMemoryEngine.newAccount_unlocked hlocked hname
    rw [hmade] at ht hleft
    have hchange : Changes name (some ⟨i, true⟩) (some a) (inner e) (inner e') := by
      rw [hleft]
      exact ⟨rfl, rfl, rfl, fun b hb => by cases hb; exact ha⟩
    refine ⟨e', h.turn hnames hi hname hx hwait ht rfl hchange (.made ?_ ?_ ?_ ha)⟩
    · intro hrel
      obtain ⟨j', hj'⟩ := hrelocked.mp hrel
      rw [hlast, hlocked] at hj'
      cases hj'
    · exact List.mem_append_right _ (List.mem_singleton_self _)
    · rw [hleft]
      exact List.mem_append_right _ (List.mem_singleton_self a)

/-- A call that is under way has a turn. -/
theorem go (h : Keeps inner s n passphrase names before schedule c e) (hnames : names.Nodup)
    (hinner : Unhindered inner) {i : Nat} (hi : names[i]? = some name) {wait : Wait}
    {resume : Flow Wait (Registry ε) (Outcome UInt32)}
    (hx : c.calls[i]? = some (.waits wait resume)) :
    ∃ e', Keeps inner s n passphrase names before (schedule ++ [i]) (c.perform i) e' := by
  obtain ⟨x, hx', hstage⟩ := h.stage i name hi
  cases hx'.symm.trans hx
  cases hstage with
  | begun hwait happroaches hk hlog hname =>
    cases happroaches with
    | now hunlocks =>
      obtain ⟨scope, e', resume', ht, hleft, hrest⟩ := hunlocks e h.right
      have hchange : Changes name (some ⟨i, false⟩) none (inner e) (inner e') := by
        rw [hleft]
        exact ⟨rfl, rfl, (List.append_nil _).symm, nofun⟩
      refine ⟨e', h.turn hnames hi hname hx hwait ht rfl hchange ?_⟩
      refine .unlocked (fun s => hinner.isOver_admission s _ _) hrest (by omega) ?_ ?_ ?_
      · simpa [Mark.of?] using hlog
      · exact List.mem_append_right _ (List.mem_singleton_self _)
      · rw [hleft]
        exact hname
    | turn wait' left resume' hx' hwait' hleft hrest =>
      have hmark := Mark.of?_idle (hwait' e) i (s.withEngine n (left e)) (resume' e)
      have hchange := Changes.counted name (hleft e)
      refine ⟨left e, h.turn hnames hi hname hx hwait (hx' e) rfl (hmark ▸ hchange) ?_⟩
      rw [hmark, hchange.accounts]
      simp only [Option.toList_none, List.append_nil]
      exact .begun (hwait' e).1 (hrest e) (by omega) hlog hname
  | unlocked hwait happroaches hk hlog hunlocked hname =>
    cases happroaches with
    | now hleaves => exact h.leave hnames hi hx hwait hleaves hlog hunlocked hname
    | turn wait' left resume' hx' hwait' hleft hrest =>
      have hmark := Mark.of?_idle (hwait' e) i (s.withEngine n (left e)) (resume' e)
      have hchange := Changes.counted name (hleft e)
      refine ⟨left e, h.turn hnames hi hname hx hwait (hx' e) rfl (hmark ▸ hchange) ?_⟩
      rw [hmark, hchange.accounts]
      simp only [Option.toList_none, List.append_nil]
      exact .unlocked (hwait' e).1 (hrest e) (by omega) hlog hunlocked hname

theorem perform (h : Keeps inner s n passphrase names before schedule c e)
    (hnames : names.Nodup) (hinner : Unhindered inner) (i : Nat) :
    ∃ e', Keeps inner s n passphrase names before (schedule ++ [i]) (c.perform i) e' := by
  by_cases hi : ∃ wait resume, c.calls[i]? = some (.waits wait resume)
  · obtain ⟨wait, resume, hx⟩ := hi
    have hlt : i < names.length := by
      rw [← h.length]
      exact (List.getElem?_eq_some_iff.mp hx).1
    exact h.go hnames hinner (List.getElem?_eq_getElem hlt) hx
  · exact ⟨e, h.idle fun wait resume hx => hi ⟨wait, resume, hx⟩⟩

theorem after (h : Keeps inner s n passphrase names before schedule c e) (hnames : names.Nodup)
    (hinner : Unhindered inner) (schedule' : List Nat) :
    ∃ e', Keeps inner s n passphrase names before (schedule ++ schedule') (c.after schedule') e' := by
  induction schedule' generalizing schedule c e with
  | nil => exact ⟨e, by rwa [List.append_nil]⟩
  | cons i schedule' ih =>
    obtain ⟨e₁, h₁⟩ := h.perform hnames hinner i
    obtain ⟨e', h'⟩ := ih h₁
    rw [List.append_assoc] at h'
    exact ⟨e', h'⟩

end Keeps

/-- Before their first turns. -/
theorem keeps_begin {w : WalletId} {r : Registration} {e : ε} (hr : s.registration? w = some r)
    (he : s.engines[r.access.engine]? = some e) (hinner : Unhindered inner)
    (hp : (inner e).passphrase = passphrase)
    (hfresh : ∀ a ∈ (inner e).accounts, a.name ∉ names) :
    Keeps inner s r.access.engine passphrase names (inner e) [] (begin s w passphrase names) e where
  registry := (Registry.withEngine_self he).symm
  right := hp
  locked := rfl
  length := List.length_map _
  stage := by
    intro i name hi
    have hwait (s : Registry ε) : s.isOver .answer = true := rfl
    refine ⟨_, ?_, .begun hwait (Registry.approaches_unlock hr ?_ hinner passphrase name)
      (Nat.le_refl 8) List.not_mem_nil ?_⟩
    · show (names.map _)[i]? = _
      rw [List.getElem?_map, hi]
      rfl
    · exact Option.isSome_iff_exists.mpr ⟨e, he⟩
    · rintro a ha rfl
      exact hfresh a ha (List.mem_of_getElem? hi)
  accounts := ⟨[], (List.append_nil _).symm, List.nodup_nil, by simp⟩
  held := fun j hj => nomatch hj

/-- What has become of calls for new accounts that overlap. -/
structure Overlapped (names : List String) (before : InMemoryEngine) (c : Creations ε)
    (after : InMemoryEngine) : Prop where
  /-- A call that is done was refused, and there is no such account, exactly if it left right
  after another one. -/
  outcome : ∀ i name o, names[i]? = some name → c.calls[i]? = some (.ended o) →
    (Relocked c.log i ∧ o = .error .walletLocked ∧ ∀ a ∈ after.accounts, a.name ≠ name) ∨
    ¬Relocked c.log i ∧ ∃ a ∈ after.accounts, a.name = name ∧ o = .ok a.number
  /-- The accounts that there were are kept. Of those that came, each was made for one call,
  which has answered with its number. -/
  accounts : ∃ made, after.accounts = before.accounts ++ made ∧ (made.map (·.name)).Nodup ∧
    ∀ a ∈ made, ∃ i : Nat, names[i]? = some a.name ∧ c.calls[i]? = some (.ended (.ok a.number))
  /-- The wallet is as locked as the last turn that mattered has left it. -/
  locked : after.locked = (c.log.getLast?.map (·.leaves)).getD before.locked
  /-- When all are done, the wallet is locked. -/
  relocked : names ≠ [] → (∀ x ∈ c.calls, ∃ o, x = .ended o) → after.locked = true

theorem Keeps.overlapped {before : InMemoryEngine} {schedule : List Nat} {c : Creations ε} {e : ε}
    (h : Keeps inner s n passphrase names before schedule c e)
    (hfresh : ∀ a ∈ before.accounts, a.name ∉ names) : Overlapped names before c (inner e) := by
  obtain ⟨made, hmade, hnodup, hmem⟩ := h.accounts
  refine ⟨?_, ⟨made, hmade, hnodup, ?_⟩, h.locked, ?_⟩
  · intro i name o hi hx
    obtain ⟨x, hx', hstage⟩ := h.stage i name hi
    cases hx'.symm.trans hx
    cases hstage with
    | refused hrel hname => exact Or.inl ⟨hrel, rfl, hname⟩
    | made hrel hlog ha hname => exact Or.inr ⟨hrel, _, ha, hname, rfl⟩
  · intro a ha
    have hin : a ∈ (inner e).accounts := by
      rw [hmade]
      exact List.mem_append_right _ ha
    obtain ⟨i, hi⟩ := List.mem_iff_getElem?.mp (hmem a ha)
    obtain ⟨x, hx, hstage⟩ := h.stage i a.name hi
    cases hstage with
    | begun _ _ _ _ hname => exact absurd rfl (hname a hin)
    | unlocked _ _ _ _ _ hname => exact absurd rfl (hname a hin)
    | refused _ hname => exact absurd rfl (hname a hin)
    | @made b _ _ hb hname =>
      -- no other account bears the name
      rw [hmade] at hb
      rcases List.mem_append.mp hb with hb | hb
      · exact absurd (hname ▸ hmem a ha) (hfresh b hb)
      · have hsame : b = a := List.inj_on_of_nodup_map hnodup hb ha hname
        exact ⟨i, hi, hsame ▸ hx⟩
  · intro hne hall
    have hpos : 0 < names.length := List.length_pos_iff.mpr hne
    obtain ⟨x, hx, hstage⟩ := h.stage 0 _ (List.getElem?_eq_getElem hpos)
    obtain ⟨o, rfl⟩ := hall x (List.mem_of_getElem? hx)
    obtain ⟨m, hm⟩ : ∃ m, m ∈ c.log := by
      cases hstage with
      | refused hrel =>
        obtain ⟨k, j, hj, -⟩ := hrel
        exact ⟨_, List.mem_of_getElem? hj⟩
      | made _ hlog => exact ⟨_, hlog⟩
    obtain ⟨j, hlast⟩ := h.last hm
    cases hlocked : (inner e).locked with
    | true => rfl
    | false =>
      -- who unlocked the wallet last would still be there
      rw [hlocked] at hlast
      obtain ⟨wait, resume, hj⟩ := h.held j hlast
      obtain ⟨o', heq⟩ := hall _ (List.mem_of_getElem? hj)
      cases heq

/-- Calls for new accounts of a wallet overlap in any way, with the right passphrase and under
names of their own. Each is refused exactly if it leaves right after another one, and else has
made its account; whoever has had eight turns is done, and when all are, the wallet is
locked. -/
theorem creations_overlapping {w : WalletId} {r : Registration} {e : ε}
    (hr : s.registration? w = some r) (he : s.engines[r.access.engine]? = some e)
    (hinner : Unhindered inner) (hnames : names.Nodup)
    (hfresh : ∀ a ∈ (inner e).accounts, a.name ∉ names) (schedule : List Nat) :
    ∃ e', ((begin s w (inner e).passphrase names).after schedule).registry =
        s.withEngine r.access.engine e' ∧
      Overlapped names (inner e) ((begin s w (inner e).passphrase names).after schedule)
        (inner e') ∧
      ∀ i < names.length, 8 ≤ schedule.count i →
        ∃ o, ((begin s w (inner e).passphrase names).after schedule).calls[i]? = some (.ended o) := by
  obtain ⟨e', hkeeps⟩ := (keeps_begin hr he hinner rfl hfresh).after hnames hinner schedule
  refine ⟨e', hkeeps.registry, hkeeps.overlapped hfresh, fun i hi hcount => ?_⟩
  obtain ⟨x, hx, hstage⟩ := hkeeps.stage i _ (List.getElem?_eq_getElem hi)
  rw [List.nil_append] at hstage
  cases hstage with
  | begun => omega
  | unlocked => omega
  | refused => exact ⟨_, hx⟩
  | made => exact ⟨_, hx⟩

/-- A wallet with one account. -/
def crowded : Registry InMemoryEngine where
  config := {}
  engines := [{
    asset := .btc
    accounts := [{ number := 0, name := "default", balance := .units 5 5 0 }]
    blockHash := default
    blockHeight := 5 }]
  registrations := [{ access := ⟨0, .btc, .mainnet⟩ }]
  wallets := [(7, 0)]

/-- Two calls of which both unlock the wallet before either leaves it. -/
theorem creations_overlapping_crowded :
    crowded.registration? 7 = some { access := ⟨0, .btc, .mainnet⟩ } ∧
    Unhindered (id : InMemoryEngine → InMemoryEngine) ∧ ["a", "b"].Nodup ∧
    ∃ e e', crowded.engines[0]? = some e ∧ (∀ a ∈ e.accounts, a.name ∉ ["a", "b"]) ∧
      Overlapped ["a", "b"] e
        ((begin crowded 7 e.passphrase ["a", "b"]).after [0, 0, 0, 0, 1, 1, 1, 1, 0, 0, 1, 1])
        e' := by
  have hfresh : ∀ a ∈ [(⟨0, "default", .units 5 5 0, []⟩ : StoredAccount)],
      a.name ∉ ["a", "b"] := by decide
  obtain ⟨e', -, hoverlapped, -⟩ := creations_overlapping (s := crowded) (w := 7) rfl rfl
    unhindered_self (by decide : ["a", "b"].Nodup) hfresh [0, 0, 0, 0, 1, 1, 1, 1, 0, 0, 1, 1]
  exact ⟨rfl, unhindered_self, by decide, _, e', rfl, hfresh, hoverlapped⟩

/-- The second call has unlocked the wallet with the right passphrase and asks for a name that
nobody bears. It is refused because the first one has left in between. -/
theorem overlapping_creation_refused :
    crowded.engines.map (·.passphrase) = ["passphrase"] ∧
    (crowded.engines.flatMap (·.accounts)).map (·.name) = ["default"] ∧
    ((begin crowded 7 "passphrase" ["a", "b"]).after
      [0, 0, 0, 0, 1, 1, 1, 1, 0, 0, 1, 1]).calls.map Creation.outcome? =
        [some (.ok 1), some (.error .walletLocked)] :=
  ⟨rfl, rfl, by decide +kernel⟩

end Creations

end Purse
