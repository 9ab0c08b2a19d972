import Mathlib.Data.List.Basic
import Mathlib.Data.Nat.Init
import Purse.Proofs.Registry.Workers

/-!
# Everybody returns

A run of workers is fair if everybody who is at work has his turn some time, and again
later if he is still at work, at a moment when no engine keeps him waiting (`Run`). Nothing
is asked about locks. Whoever waits for a lock gets it all the same: those ahead of him in
the line become fewer, since the one in front goes on until he leaves (`Run.nearer`), and
whoever lines up later goes to the end.

Main statement: `Run.returns`, by induction on what a program has left.
-/

namespace Purse

variable {ε ι : Type}

/-! ## Those ahead in a line -/

/-- Those ahead of a ticket in a line. -/
def ahead (line : List Nat) (ticket : Nat) : List Nat :=
  line.takeWhile (· ≠ ticket)

variable {line line' : List Nat} {ticket other : Nat}

theorem ahead_append (h : ticket ∈ line) (rest : List Nat) :
    ahead (line ++ rest) ticket = ahead line ticket := by
  unfold ahead
  induction line with
  | nil => cases h
  | cons t line ih =>
    rw [List.cons_append]
    by_cases ht : t = ticket
    · rw [List.takeWhile_cons_of_neg (by simpa using ht), List.takeWhile_cons_of_neg (by simpa using ht)]
    · have hmem : ticket ∈ line := (List.mem_cons.mp h).resolve_left (Ne.symm ht)
      rw [List.takeWhile_cons_of_pos (by simpa using ht), List.takeWhile_cons_of_pos (by simpa using ht),
        ih hmem]

theorem ahead_filter (hne : other ≠ ticket) :
    ahead (line.filter (· ≠ other)) ticket = (ahead line ticket).filter (· ≠ other) := by
  unfold ahead
  induction line with
  | nil => rfl
  | cons t line ih =>
    by_cases ht : t = ticket
    · subst ht
      rw [List.filter_cons_of_pos (by simpa using Ne.symm hne), List.takeWhile_cons_of_neg (by simp),
        List.takeWhile_cons_of_neg (by simp)]
      rfl
    · rw [List.takeWhile_cons_of_pos (by simpa using ht)]
      by_cases ho : t = other
      · rw [List.filter_cons_of_neg (by simpa using ho), List.filter_cons_of_neg (by simpa using ho), ih]
      · rw [List.filter_cons_of_pos (by simpa using ho), List.filter_cons_of_pos (by simpa using ho),
          List.takeWhile_cons_of_pos (by simpa using ht), ih]

/-- Whoever is first has nobody ahead of him. -/
theorem head?_of_ahead (h : ticket ∈ line) (hnone : ahead line ticket = []) :
    line.head? = some ticket := by
  cases line with
  | nil => cases h
  | cons t line =>
    by_cases ht : t = ticket
    · exact congrArg some ht
    · unfold ahead at hnone
      rw [List.takeWhile_cons_of_pos (by simpa using ht)] at hnone
      cases hnone

theorem ahead_of_head? (h : line.head? = some ticket) : ahead line ticket = [] := by
  cases line with
  | nil => cases h
  | cons t line =>
    cases h
    exact List.takeWhile_cons_of_neg (by simp)

/-- Whoever is first is ahead of everybody else. -/
theorem mem_ahead (h : line.head? = some other) (hne : other ≠ ticket) :
    other ∈ ahead line ticket := by
  cases line with
  | nil => cases h
  | cons t line =>
    cases h
    unfold ahead
    rw [List.takeWhile_cons_of_pos (by simpa using hne)]
    exact List.mem_cons_self

namespace Registry.Moves

/-- Whoever moves in a line leaves all others in it, and gets ahead of nobody. -/
theorem ahead (h : Moves other line line') (hne : other ≠ ticket) (hmem : ticket ∈ line) :
    ticket ∈ line' ∧ (Purse.ahead line' ticket).Sublist (Purse.ahead line ticket) := by
  cases h with
  | stays k =>
    rw [ahead_append hmem]
    exact ⟨List.mem_append_left _ hmem, List.Sublist.refl _⟩
  | leaves k =>
    have hstill : ticket ∈ line.filter (· ≠ other) :=
      List.mem_filter.mpr ⟨hmem, by simpa using Ne.symm hne⟩
    rw [ahead_append hstill, ahead_filter hne]
    exact ⟨List.mem_append_left _ hstill, List.filter_sublist⟩

/-- If the first in line moves, he stays the first or is ahead of nobody any more. -/
theorem first (h : Moves other line line') (hne : other ≠ ticket) (hmem : ticket ∈ line)
    (hfirst : line.head? = some other) :
    line'.head? = some other ∨
      (Purse.ahead line' ticket).length < (Purse.ahead line ticket).length := by
  cases h with
  | stays k =>
    apply Or.inl
    rw [List.head?_append, hfirst]
    rfl
  | leaves k =>
    have hstill : ticket ∈ line.filter (· ≠ other) :=
      List.mem_filter.mpr ⟨hmem, by simpa using Ne.symm hne⟩
    apply Or.inr
    rw [ahead_append hstill, ahead_filter hne]
    exact List.length_filter_lt_length_iff_exists.mpr ⟨other, mem_ahead hfirst hne, by simp⟩

end Registry.Moves

/-! ## Runs -/

namespace Workers

variable [Engine ε]

/-- Somebody waits for a lock that another one has. -/
def Blocked (v : Workers ι ε) (work : Work ε) : Prop :=
  ∃ key ticket, work.wait = .lock key ticket ∧ (v.registry.line key).head? ≠ some ticket

/-- A run in which everybody has his turns, and no engine keeps anybody waiting for ever. -/
structure Run (v : Nat → Workers ι ε) : Prop where
  step : ∀ t, Step (v t) (v (t + 1))
  orderly : ∀ t, Orderly (v t)
  fair : ∀ x t, ∃ t', t ≤ t' ∧ ∀ work, (v t').work? x = some work →
    Goes (v t') x (v (t' + 1)) ∨ Blocked (v t') work

variable {v v' : Workers ι ε} {x y : ι} {work work' : Work ε} {key : Nat}

/-- Whoever does not go on is left alone. -/
theorem Step.goes_or (h : Step v v') (hx : v.work? x = some work) :
    Goes v x v' ∨ v'.work? x = some work := by
  cases h.moves with
  | @goes y h =>
    by_cases hyx : y = x
    · exact Or.inl (hyx ▸ h)
    · apply Or.inr
      cases h with
      | turn _ _ _ _ hothers | quit _ _ _ hothers => exact (hothers x (Ne.symm hyx)).trans hx
  | @join y _ hy _ _ _ _ _ _ hothers =>
    refine Or.inr ((hothers x ?_).trans hx)
    intro heq
    subst heq
    cases hx.symm.trans hy
  | engines _ _ hwork => exact Or.inr ((hwork x).trans hx)

/-- Nobody gets ahead of one who does not go on. -/
theorem Step.ahead (h : Step v v') (ho : v.Orderly) (hx : v.work? x = some work)
    (hgoes : ¬Goes v x v') (hmem : work.ticket ∈ v.registry.line key) :
    work.ticket ∈ v'.registry.line key ∧
      (Purse.ahead (v'.registry.line key) work.ticket).Sublist
        (Purse.ahead (v.registry.line key) work.ticket) := by
  cases h.moves with
  | @goes y h =>
    have hyx : y ≠ x := fun heq => hgoes (heq ▸ h)
    obtain ⟨work', hy⟩ : ∃ work', v.work? y = some work' := by
      cases h with
      | turn hy | quit hy => exact ⟨_, hy⟩
    have hne : work'.ticket ≠ work.ticket := fun heq => hyx (ho.apart y x work' work hy hx heq)
    exact ((h.onward ho hy).lines key).ahead hne hmem
  | join _ _ _ _ _ hregistry | engines _ hregistry =>
    rw [hregistry]
    exact ⟨hmem, List.Sublist.refl _⟩

/-- Whoever is in a line after a turn is still at work. -/
theorem Goes.still (h : Goes v y v') (ho : v.Orderly) (ho' : v'.Orderly)
    (hy : v.work? y = some work) (hmem : work.ticket ∈ v'.registry.line key) :
    ∃ work', v'.work? y = some work' := by
  obtain ⟨z, work', hz, hticket⟩ := ho'.atWork key work.ticket hmem
  by_cases hzy : z = y
  · exact ⟨work', hzy ▸ hz⟩
  · -- nobody else has had the ticket
    have hz : v.work? z = some work' := by
      cases h with
      | turn _ _ _ _ hothers | quit _ _ _ hothers => exact (hothers z hzy).symm.trans hz
    exact absurd (ho.apart z y work' work hz hy hticket) hzy

/-! ## Going on -/

section

variable {v : Nat → Workers ι ε} {t t' : Nat}

/-- Somebody does not go on for a time. -/
def Idle (v : Nat → Workers ι ε) (x : ι) (t t' : Nat) : Prop :=
  ∀ s, t ≤ s → s < t' → ¬Goes (v s) x (v (s + 1))

theorem Idle.refl (v : Nat → Workers ι ε) (x : ι) (t : Nat) : Idle v x t t :=
  fun _ hle hlt => absurd hlt (Nat.not_lt_of_le hle)

theorem Idle.succ (h : Idle v x t t') (hgoes : ¬Goes (v t') x (v (t' + 1))) :
    Idle v x t (t' + 1) := by
  intro s hle hlt
  rcases Nat.lt_or_eq_of_le (Nat.le_of_lt_succ hlt) with hlt | rfl
  · exact h s hle hlt
  · exact hgoes

theorem Idle.trans {t'' : Nat} (h : Idle v x t t') (h' : Idle v x t' t'') : Idle v x t t'' := by
  intro s hle hlt
  rcases Nat.lt_or_ge s t' with hs | hs
  · exact h s hle hs
  · exact h' s hs hlt

theorem Idle.mono {t'' : Nat} (h : Idle v x t t'') (hle : t' ≤ t'') : Idle v x t t' :=
  fun s hs hlt => h s hs (Nat.lt_of_lt_of_le hlt hle)

/-- Within a time somebody goes on for the first time, or not at all. -/
theorem idle_or (v : Nat → Workers ι ε) (x : ι) (hle : t ≤ t') :
    Idle v x t t' ∨ ∃ t₁, t ≤ t₁ ∧ t₁ < t' ∧ Idle v x t t₁ ∧ Goes (v t₁) x (v (t₁ + 1)) := by
  induction t', hle using Nat.le_induction with
  | base => exact Or.inl (.refl v x t)
  | succ s hle ih =>
    rcases ih with hidle | ⟨t₁, hle₁, hlt, hfirst⟩
    · by_cases hgoes : Goes (v s) x (v (s + 1))
      · exact Or.inr ⟨s, hle, Nat.lt_succ_self s, hidle, hgoes⟩
      · exact Or.inl (hidle.succ hgoes)
    · exact Or.inr ⟨t₁, hle₁, Nat.lt_succ_of_lt hlt, hfirst⟩

/-- Whoever does not go on has left what he had left. -/
theorem Run.work? (h : Run v) (hx : (v t).work? x = some work) (hle : t ≤ t')
    (hidle : Idle v x t t') : (v t').work? x = some work := by
  induction t', hle using Nat.le_induction with
  | base => exact hx
  | succ s hle ih =>
    have hx := ih (hidle.mono (Nat.le_succ s))
    exact ((h.step s).goes_or hx).resolve_left (hidle s hle (Nat.lt_succ_self s))

/-- As long as he does not go on nobody gets ahead of him. -/
theorem Run.ahead (h : Run v) (hx : (v t).work? x = some work) (hle : t ≤ t')
    (hidle : Idle v x t t') (hmem : work.ticket ∈ (v t).registry.line key) :
    work.ticket ∈ (v t').registry.line key ∧
      (Purse.ahead ((v t').registry.line key) work.ticket).Sublist
        (Purse.ahead ((v t).registry.line key) work.ticket) := by
  induction t', hle using Nat.le_induction with
  | base => exact ⟨hmem, List.Sublist.refl _⟩
  | succ s hle ih =>
    have hidle' := hidle.mono (Nat.le_succ s)
    obtain ⟨hmem, hahead⟩ := ih hidle'
    have hgoes := hidle s hle (Nat.lt_succ_self s)
    obtain ⟨hmem', hahead'⟩ := (h.step s).ahead (h.orderly s) (h.work? hx hle hidle') hgoes hmem
    exact ⟨hmem', hahead'.trans hahead⟩

/-- Whoever is never kept waiting for a lock goes on. -/
theorem Run.goesOn (h : Run v) (hx : (v t).work? x = some work)
    (hfree : ∀ t', t ≤ t' → Idle v x t t' → ¬Blocked (v t') work) :
    ∃ t₁, t ≤ t₁ ∧ Idle v x t t₁ ∧ Goes (v t₁) x (v (t₁ + 1)) := by
  obtain ⟨t', hle, hfair⟩ := h.fair x t
  rcases idle_or v x hle with hidle | ⟨t₁, hle₁, -, hidle, hgoes⟩
  · rcases hfair work (h.work? hx hle hidle) with hgoes | hblocked
    · exact ⟨t', hle, hidle, hgoes⟩
    · exact absurd hblocked (hfree t' hle hidle)
  · exact ⟨t₁, hle₁, hidle, hgoes⟩

/-- Whoever is first in a line stays the first until he goes on. -/
theorem Run.first (h : Run v) (hx : (v t).work? x = some work) (hle : t ≤ t')
    (hidle : Idle v x t t') (hfirst : ((v t).registry.line key).head? = some work.ticket) :
    ((v t').registry.line key).head? = some work.ticket := by
  obtain ⟨hmem, hahead⟩ := h.ahead hx hle hidle (List.mem_of_head? hfirst)
  rw [ahead_of_head? hfirst] at hahead
  exact head?_of_ahead hmem (List.sublist_nil.mp hahead)

/-- Whoever is first in a line is not kept waiting for a lock. -/
theorem Run.not_blocked (h : Run v) (hx : (v t).work? x = some work) (hle : t ≤ t')
    (hidle : Idle v x t t') (hfirst : ((v t).registry.line key).head? = some work.ticket) :
    ¬Blocked (v t') work := by
  intro hblocked
  obtain ⟨key', ticket, hwait, hhead⟩ := hblocked
  have hfirst' := h.first hx hle hidle hfirst
  obtain ⟨rfl, hmem⟩ := (h.orderly t').lock x work key' ticket (h.work? hx hle hidle) hwait
  -- the line he is first in is the one in which he waits
  obtain rfl := (h.orderly t').once key key' _ (List.mem_of_head? hfirst') hmem
  exact hhead hfirst'

/-- While somebody waits in a line, the first one goes on until the other has fewer ahead of
him. -/
theorem Run.nearer (h : Run v) (left : Turns Wait (Registry ε) Unit) {first : Work ε}
    (hy : (v t).work? y = first.after left) (hthere : ∃ w, (v t).work? y = some w)
    (hx : (v t).work? x = some work) (hne : first.ticket ≠ work.ticket)
    (hfirst : ((v t).registry.line key).head? = some first.ticket)
    (hmem : work.ticket ∈ (v t).registry.line key) :
    ∃ t', t ≤ t' ∧ Idle v x t t' ∧ (Goes (v t') x (v (t' + 1)) ∨
      (Purse.ahead ((v t').registry.line key) work.ticket).length <
        (Purse.ahead ((v t).registry.line key) work.ticket).length) := by
  induction left generalizing t first with
  | done =>
    obtain ⟨w, hthere⟩ := hthere
    cases hy.symm.trans hthere
  | pause wait s rest ih =>
    have hy : (v t).work? y = some { first with wait, rest } := hy
    obtain ⟨t₁, hle, hidle, hgoes⟩ := h.goesOn hy fun t' hle hidle => h.not_blocked hy hle hidle hfirst
    rcases idle_or v x (Nat.le_succ_of_le hle) with hidle' | ⟨t₂, hle₂, -, hidle₂, hgoes₂⟩
    · have hy₁ := h.work? hy hle hidle
      have hfirst₁ := h.first hy hle hidle hfirst
      obtain ⟨hmem₁, hahead₁⟩ := h.ahead hx hle (hidle'.mono (Nat.le_succ t₁)) hmem
      have hmoves := (hgoes.onward (h.orderly t₁) hy₁).lines key
      rcases hmoves.first hne hmem₁ hfirst₁ with hfirst₂ | hfewer
      · -- he is still the first, with less left to do
        obtain ⟨hmem₂, hahead₂⟩ := hmoves.ahead hne hmem₁
        have hthere₂ := hgoes.still (h.orderly t₁) (h.orderly _) hy₁ (List.mem_of_head? hfirst₂)
        have hy₂ : (v (t₁ + 1)).work? y = first.after (rest (v t₁).registry) := by
          cases hgoes with
          | turn hw _ _ hself =>
            cases hy₁.symm.trans hw
            exact hself
          | quit _ _ hself =>
            obtain ⟨w, hthere₂⟩ := hthere₂
            cases hself.symm.trans hthere₂
        have hx₂ := h.work? hx (Nat.le_succ_of_le hle) hidle'
        obtain ⟨t', hle', hidle₂, hcases⟩ := ih _ hy₂ hthere₂ hx₂ hne hfirst₂ hmem₂
        refine ⟨t', by omega, hidle'.trans hidle₂, hcases.imp_right fun hlt => ?_⟩
        have hle₁ := hahead₁.length_le
        have hle₂ := hahead₂.length_le
        omega
      · exact ⟨t₁ + 1, by omega, hidle', Or.inr (Nat.lt_of_lt_of_le hfewer hahead₁.length_le)⟩
    · exact ⟨t₂, hle₂, hidle₂, Or.inl hgoes₂⟩

/-- Whoever is in a line goes on some time. -/
theorem Run.locks (h : Run v) (n : Nat) (hx : (v t).work? x = some work)
    (hmem : work.ticket ∈ (v t).registry.line key)
    (hn : (Purse.ahead ((v t).registry.line key) work.ticket).length = n) :
    ∃ t₁, t ≤ t₁ ∧ Idle v x t t₁ ∧ Goes (v t₁) x (v (t₁ + 1)) := by
  -- by induction on the number of those ahead
  induction n using Nat.strongRecOn generalizing t with
  | ind n ih =>
    obtain ⟨first, hfirst⟩ : ∃ first, ((v t).registry.line key).head? = some first := by
      cases hline : (v t).registry.line key with
      | nil =>
        rw [hline] at hmem
        cases hmem
      | cons first rest => exact ⟨first, rfl⟩
    by_cases heq : first = work.ticket
    · subst heq
      exact h.goesOn hx fun t' hle hidle => h.not_blocked hx hle hidle hfirst
    · obtain ⟨y, work', hy, rfl⟩ := (h.orderly t).atWork key first (List.mem_of_head? hfirst)
      obtain ⟨t', hle, hidle, hcases⟩ := h.nearer (.pause work'.wait (v t).registry work'.rest)
        hy ⟨_, hy⟩ hx heq hfirst hmem
      rcases hcases with hgoes | hlt
      · exact ⟨t', hle, hidle, hgoes⟩
      · obtain ⟨hmem', -⟩ := h.ahead hx hle hidle hmem
        obtain ⟨t₁, hle₁, hidle₁, hgoes⟩ := ih _ (hn ▸ hlt) (h.work? hx hle hidle) hmem' rfl
        exact ⟨t₁, Nat.le_trans hle hle₁, hidle.trans hidle₁, hgoes⟩

/-- Whoever is at work goes on some time. -/
theorem Run.goes (h : Run v) (hx : (v t).work? x = some work) :
    ∃ t₁, t ≤ t₁ ∧ Idle v x t t₁ ∧ Goes (v t₁) x (v (t₁ + 1)) := by
  by_cases hlock : ∃ key ticket, work.wait = .lock key ticket
  · obtain ⟨key, ticket, hwait⟩ := hlock
    obtain ⟨rfl, hmem⟩ := (h.orderly t).lock x work key ticket hx hwait
    exact h.locks _ hx hmem rfl
  · apply h.goesOn hx
    intro t' hle hidle hblocked
    apply hlock
    obtain ⟨key, ticket, hwait, -⟩ := hblocked
    exact ⟨key, ticket, hwait⟩

/-- Whoever is at work comes to his end some time. -/
theorem Run.ends (h : Run v) (left : Turns Wait (Registry ε) Unit)
    (hx : (v t).work? x = work.after left) : ∃ t', t ≤ t' ∧ (v t').work? x = none := by
  induction left generalizing t with
  | done => exact ⟨t, Nat.le_refl t, hx⟩
  | pause wait s rest ih =>
    have hx : (v t).work? x = some { work with wait, rest } := hx
    obtain ⟨t₁, hle, hidle, hgoes⟩ := h.goes hx
    have hx₁ := h.work? hx hle hidle
    cases hgoes with
    | turn hw _ _ hself =>
      cases hx₁.symm.trans hw
      obtain ⟨t', hle', hends⟩ := ih _ hself
      exact ⟨t', by omega, hends⟩
    | quit _ _ hself => exact ⟨t₁ + 1, by omega, hself⟩

/-- In a fair run everybody comes to his end. -/
theorem Run.returns (h : Run v) (x : ι) (t : Nat) : ∃ t', t ≤ t' ∧ (v t').work? x = none := by
  cases hx : (v t).work? x with
  | none => exact ⟨t, Nat.le_refl t, hx⟩
  | some work => exact h.ends (.pause work.wait (v t).registry work.rest) hx

end

end Workers

end Purse
