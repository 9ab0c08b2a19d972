import Purse.Registry

/-!
# Programs among others

`Flow.run` is a program with nobody in between. Here others may come in: at every
pause the state that the program finds again is an arbitrary one. `Turns.Ends` says
what a program can end with in such company, and `ends_bind` takes a composed
program apart.

A program that cannot end with anything but `P` whatever others do gives a result
that needs no assumption on them (`Op.Gives`). That is how what a fetch brings is
described, since wallets may be removed, refreshed and renamed under way.

A program abides by an invariant and a relation if each of its turns leaves the
invariant in place and changes the state within the relation, as long as the same is
true of what others do at its pauses (`Turns.Abides`). If all programs abide, the
invariant holds throughout, in whatever order turns are taken.
-/

namespace Purse

variable {ω σ α β : Type}

namespace Turns

/-- The program can end with the value in the state, for some doings of others at its
pauses. -/
inductive Ends : Turns ω σ α → α → σ → Prop
  | done (a : α) (s : σ) : Ends (done a s) a s
  | pause {w : ω} {s s' s'' : σ} {resume : σ → Turns ω σ α} {a : α}
      (h : Ends (resume s') a s'') : Ends (pause w s resume) a s''

/-- A composed program ends as its second part does from where the first ended. -/
theorem ends_bind {t : Turns ω σ α} {f : α → σ → Turns ω σ β} {b : β} {s : σ}
    (h : (t.bind f).Ends b s) : ∃ a s', t.Ends a s' ∧ (f a s').Ends b s := by
  -- by induction on the first part, with whatever state is found after each of its pauses
  induction t with
  | done a s' => exact ⟨a, s', .done a s', h⟩
  | pause w s' resume ih =>
    cases h with
    | pause h =>
      obtain ⟨a, s'', ha, hf⟩ := ih _ h
      exact ⟨a, s'', .pause ha, hf⟩

/-- To have nobody in between is one of the possibilities. -/
theorem ends_run (t : Turns ω σ α) : t.Ends t.run.1 t.run.2 := by
  induction t with
  | done a s => exact .done a s
  | pause w s resume ih => exact .pause (ih s)

/-- From the state on, each turn keeps the invariant and stays within the relation, if
others do at the pauses. -/
inductive Abides (P : σ → Prop) (R : σ → σ → Prop) : σ → Turns ω σ α → Prop
  | done {s s' : σ} {a : α} (hP : P s') (hR : R s s') : Abides P R s (done a s')
  | pause {w : ω} {s s' : σ} {resume : σ → Turns ω σ α} (hP : P s') (hR : R s s')
      (hr : ∀ s'', P s'' → R s' s'' → Abides P R s'' (resume s'')) :
      Abides P R s (pause w s' resume)

theorem Abides.head {P : σ → Prop} {R : σ → σ → Prop} [htrans : Trans R R R] {t : Turns ω σ α}
    {s s' : σ} (h : R s s') (ht : t.Abides P R s') : t.Abides P R s := by
  cases ht with
  | done hP hR => exact .done hP (htrans.trans h hR)
  | pause hP hR hr => exact .pause hP (htrans.trans h hR) hr

/-- The second part of a composed program starts where the first can end. -/
theorem Abides.bind {P : σ → Prop} {R : σ → σ → Prop} [Trans R R R] {t : Turns ω σ α}
    {f : α → σ → Turns ω σ β} {s : σ} (ht : t.Abides P R s)
    (hf : ∀ a s', P s' → t.Ends a s' → (f a s').Abides P R s') : (t.bind f).Abides P R s := by
  induction ht with
  | done hP hR => exact (hf _ _ hP (.done _ _)).head hR
  | pause hP hR hr ih =>
    exact .pause hP hR fun s'' hs'' h => ih s'' hs'' h fun a s' hs' h => hf a s' hs' (.pause h)

end Turns

/-- The program abides from wherever the invariant holds. -/
def Flow.Abides (P : σ → Prop) (R : σ → σ → Prop) (x : Flow ω σ α) : Prop :=
  ∀ s, P s → (x s).Abides P R s

namespace Flow.Abides

variable {P : σ → Prop} {R : σ → σ → Prop}

theorem bind [Trans R R R] {x : Flow ω σ α} {f : α → Flow ω σ β} (hx : Abides P R x)
    (hf : ∀ a, Abides P R (f a)) : Abides P R (x >>= f) :=
  fun s hs => (hx s hs).bind fun a s' hs' _ => hf a s' hs'

theorem pure [Std.Refl R] (a : α) : Abides P R (Pure.pure a : Flow ω σ α) :=
  fun s hs => .done hs (Std.Refl.refl s)

theorem pause [Std.Refl R] (w : ω) : Abides P R (pause w) :=
  fun s hs => .pause hs (Std.Refl.refl s) fun s' hs' _ => .done hs' (Std.Refl.refl s')

end Flow.Abides

namespace Registry

variable {ε : Type}

/-- An operation that succeeds has succeeded in both of its parts. -/
theorem Op.bind_ends {x : Op ε α} {f : α → Op ε β} {s s' : Registry ε} {b : β}
    (h : ((x >>= f : Op ε β).run s).Ends (.ok b) s') :
    ∃ a s₁, (x.run s).Ends (.ok a) s₁ ∧ ((f a).run s₁).Ends (.ok b) s' := by
  obtain ⟨o, s₁, hx, hf⟩ := Turns.ends_bind h
  cases o with
  | error e =>
    have hdone : (Turns.done (Except.error e : Outcome β) s₁ : Turns Wait _ _).Ends (.ok b) s' := hf
    cases hdone
  | ok a => exact ⟨a, s₁, hx, hf⟩

/-- Whatever others do, a success of the operation has the property. -/
def Op.Gives (x : Op ε α) (P : α → Prop) : Prop :=
  ∀ s a s', (x.run s).Ends (.ok a) s' → P a

namespace Op.Gives

/-- The first part of an operation that succeeds has succeeded, and so has the second. -/
theorem bind {x : Op ε α} {f : α → Op ε β} {P : α → Prop} {Q : β → Prop}
    (hx : Gives x P) (hf : ∀ a, P a → Gives (f a) Q) : Gives (x >>= f) Q := by
  intro s b s' h
  obtain ⟨a, s₁, hx', h⟩ := bind_ends h
  exact hf a (hx s a s₁ hx') s₁ b s' h

theorem pure {a : α} {P : α → Prop} (h : P a) : Gives (Pure.pure a : Op ε α) P := by
  intro s b s' hb
  have hdone : (Turns.done (Except.ok a : Outcome α) s : Turns Wait _ _).Ends (.ok b) s' := hb
  cases hdone
  exact h

theorem conclude {o : Outcome α} {P : α → Prop} (h : ∀ a, o = .ok a → P a) :
    Gives (Registry.conclude o : Op ε α) P := by
  intro s a s' ha
  have hdone : (Turns.done o s : Turns Wait _ _).Ends (.ok a) s' := ha
  cases hdone
  exact h a rfl

theorem trivial (x : Op ε α) : Gives x fun _ => True :=
  fun _ _ _ _ => True.intro

/-- What every step over a list gives holds of everything gathered. -/
theorem mapM {f : α → Op ε β} {P : β → Prop} (hf : ∀ a, Gives (f a) P) (l : List α) :
    Gives (l.mapM f) fun bs => ∀ b ∈ bs, P b := by
  induction l with
  | nil =>
    rw [List.mapM_nil]
    exact pure (fun b hb => absurd hb List.not_mem_nil)
  | cons a l ih =>
    rw [List.mapM_cons]
    refine bind (hf a) fun b hb => bind ih fun bs hbs => pure ?_
    intro c hc
    rcases List.mem_cons.mp hc with rfl | hc
    · exact hb
    · exact hbs c hc

end Op.Gives

/-- After a pause the registry can be any. -/
theorem Op.pauseFor_ends {w : Wait} {f : Unit → Op ε α} {s s' : Registry ε} {o : Outcome α}
    (h : ((pauseFor w >>= f : Op ε α).run s).Ends o s') : ∃ s₁, ((f ()).run s₁).Ends o s' := by
  cases h with
  | pause h => exact ⟨_, h⟩

theorem Op.read_ends {f : Registry ε → Op ε α} {s s' : Registry ε} {o : Outcome α}
    (h : ((get >>= f : Op ε α).run s).Ends o s') : ((f s).run s).Ends o s' :=
  h

/-- What composition keeps is kept by steps over a list. -/
theorem Op.mapM_of {P : {α : Type} → Op ε α → Prop} (hpure : ∀ {α : Type} (a : α), P (pure a))
    (hbind : ∀ {α β : Type} {x : Op ε α} {f : α → Op ε β}, P x → (∀ a, P (f a)) → P (x >>= f))
    {f : α → Op ε β} (hf : ∀ a, P (f a)) (l : List α) : P (l.mapM f) := by
  induction l with
  | nil =>
    rw [List.mapM_nil]
    exact hpure []
  | cons a l ih =>
    rw [List.mapM_cons]
    exact hbind (hf a) fun b => hbind ih fun bs => hpure (b :: bs)

/-- The operation abides by an invariant of registries and a relation between them. -/
def Op.Abides (P : Registry ε → Prop) (R : Registry ε → Registry ε → Prop) (x : Op ε α) : Prop :=
  Flow.Abides P R x.run

namespace Op.Abides

variable {P : Registry ε → Prop} {R : Registry ε → Registry ε → Prop}

/-- What is done with a registry that has just been read starts from it. -/
theorem read {f : Registry ε → Op ε α} (h : ∀ s, P s → ((f s).run s).Abides P R s) :
    Abides P R (get >>= f) :=
  h

theorem write {f : Registry ε → Registry ε} (hP : ∀ s, P s → P (f s)) (hR : ∀ s, R s (f s)) :
    Abides P R (modify f : Op ε PUnit) :=
  fun s hs => .done (hP s hs) (hR s)

variable [Std.Refl R]

theorem conclude (o : Outcome α) : Abides P R (conclude o : Op ε α) :=
  Flow.Abides.pure o

theorem pure (a : α) : Abides P R (Pure.pure a : Op ε α) :=
  conclude (.ok a)

variable [Trans R R R]

theorem lift {x : Flow Wait (Registry ε) α} (hx : x.Abides P R) :
    Abides P R (ExceptT.lift x : Op ε α) :=
  Flow.Abides.bind hx fun a => Flow.Abides.pure (Except.ok a)

theorem pauseFor (w : Wait) : Abides P R (pauseFor w : Op ε Unit) :=
  lift (.pause w)

theorem attempt {x : Op ε α} (hx : Abides P R x) : Abides P R (attempt x) :=
  lift hx

theorem bind {x : Op ε α} {f : α → Op ε β} (hx : Abides P R x) (hf : ∀ a, Abides P R (f a)) :
    Abides P R (x >>= f) := by
  refine Flow.Abides.bind hx fun o => ?_
  cases o with
  | error e => exact Flow.Abides.pure (Except.error e)
  | ok a => exact hf a

theorem mapM {f : α → Op ε β} (hf : ∀ a, Abides P R (f a)) (l : List α) :
    Abides P R (l.mapM f) :=
  mapM_of pure bind hf l

end Op.Abides

end Registry

end Purse
