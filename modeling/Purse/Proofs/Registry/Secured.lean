import Mathlib.Data.List.Forall2
import Purse.Proofs.Course

/-!
# What is secured as long as others keep to something

Others may do anything to a registry between the turns of an operation. `Secures` asks of them
only that every turn finds an invariant: then every turn leaves the invariant as well, and a
value that comes out has the property. With nobody in between it is enough that the invariant
holds at the start (`Secures.run`).
-/

namespace Purse

variable {ω σ α β : Type}

namespace Flow

/-- As long as every turn finds the invariant, every turn leaves it, and the value has the
property. -/
def Secures (P : σ → Prop) (Q : α → Prop) (x : Flow ω σ α) : Prop :=
  ∀ ts t, x.Course ts t → (∀ τ ∈ ts, P τ.found) →
    (∀ τ ∈ ts, P τ.left) ∧ ∀ a s, t = .done a s → Q a

namespace Secures

variable {P : σ → Prop} {Q : α → Prop} {x : Flow ω σ α}

theorem mono {Q' : α → Prop} (h : Secures P Q x) (hQ : ∀ a, Q a → Q' a) : Secures P Q' x :=
  fun ts t hc hP => ⟨(h ts t hc hP).1, fun a s ht => hQ a ((h ts t hc hP).2 a s ht)⟩

theorem change {f : σ → α × σ} (h : ∀ s, P s → P (f s).2 ∧ Q (f s).1) :
    Secures P Q (modifyGet f : Flow ω σ α) := by
  intro ts t hc hP
  obtain ⟨w, s, rfl, rfl⟩ := hc.of_change
  obtain ⟨hleft, hvalue⟩ := h s (hP _ (List.mem_singleton_self _))
  refine ⟨fun τ hτ => ?_, fun a s' ht => ?_⟩
  · obtain rfl := List.mem_singleton.mp hτ
    exact hleft
  · cases ht
    exact hvalue

theorem pure {a : α} (h : Q a) : Secures P Q (Pure.pure a : Flow ω σ α) :=
  change (f := fun s => (a, s)) fun _ hs => ⟨hs, h⟩

theorem pause (w : ω) : Secures P (fun _ => True) (Flow.pause w : Flow ω σ Unit) := by
  intro ts t hc hP
  refine ⟨?_, fun _ _ _ => trivial⟩
  rcases hc.of_pause with ⟨w₀, s, rfl, -⟩ | ⟨w₀, s, s', rfl, -⟩
  · intro τ hτ
    obtain rfl := List.mem_singleton.mp hτ
    exact hP _ List.mem_cons_self
  · intro τ hτ
    have hfound := hP τ hτ
    rcases List.mem_cons.mp hτ with rfl | hτ
    · exact hfound
    · obtain rfl := List.mem_singleton.mp hτ
      exact hfound

theorem bind {Q' : β → Prop} {f : α → Flow ω σ β} (hx : Secures P Q x)
    (hf : ∀ a, Q a → Secures P Q' (f a)) : Secures P Q' (x >>= f) := by
  intro ts t hc hP
  cases hc.parts with
  | first hfirst => exact ⟨(hx _ _ hfirst hP).1, fun _ _ ht => nomatch ht⟩
  | @second pre post w s s' s'' a _ hfirst hsecond =>
    obtain ⟨hleft, hvalue⟩ := hx _ _ hfirst (found_first hP s')
    -- the second part goes on from what the first has left
    have hmiddle : P s' := hleft _ (List.mem_append_right _ (List.mem_singleton_self _))
    have hfound : ∀ τ ∈ (⟨w, s', s''⟩ :: post : List (Turn ω σ)), P τ.found := by
      intro τ hτ
      rcases List.mem_cons.mp hτ with rfl | hτ
      · exact hmiddle
      · exact hP τ (List.mem_append_right _ (List.mem_cons_of_mem _ hτ))
    obtain ⟨hleft', hvalue'⟩ := hf a (hvalue a s' rfl) _ _ hsecond hfound
    refine ⟨fun τ hτ => ?_, hvalue'⟩
    rcases List.mem_append.mp hτ with hτ | hτ
    · exact hleft τ (List.mem_append_left _ hτ)
    · rcases List.mem_cons.mp hτ with rfl | hτ
      · exact hleft' ⟨w, s', s''⟩ List.mem_cons_self
      · exact hleft' τ (List.mem_cons_of_mem _ hτ)

/-- What is left of the program finds the invariant too. -/
theorem state (h : Secures P Q x) {ts : List (Turn ω σ)} {t : Turns ω σ α} (hc : x.Course ts t)
    (hP : ∀ τ ∈ ts, P τ.found) : P t.state := by
  rcases List.eq_nil_or_concat ts with rfl | ⟨pre, τ, rfl⟩
  · exact absurd rfl hc.ne_nil
  · rw [List.concat_eq_append] at hc hP
    rw [← hc.left]
    exact (h _ _ hc hP).1 τ (List.mem_append_right _ (List.mem_singleton_self τ))

/-- With nobody in between the invariant is found throughout. -/
theorem exists_course (h : Secures P Q x) {s : σ} (hs : P s) (w : ω) :
    ∃ ts, x.Course ts (.done (x.run s).1 (x.run s).2) ∧ ∀ τ ∈ ts, P τ.found := by
  -- by induction on what is left, with the turns so far
  suffices hall : ∀ (t : Turns ω σ α) (ts : List (Turn ω σ)), x.Course ts t →
      (∀ τ ∈ ts, P τ.found) →
      ∃ ts', x.Course ts' (.done t.run.1 t.run.2) ∧ ∀ τ ∈ ts', P τ.found by
    refine hall (x s) _ (.first w s) fun τ hτ => ?_
    obtain rfl := List.mem_singleton.mp hτ
    exact hs
  intro t
  induction t with
  | done a s' => exact fun ts hc hP => ⟨ts, hc, hP⟩
  | pause w' s' resume ih =>
    intro ts hc hP
    have hs' : P s' := h.state hc hP
    refine ih s' _ (hc.next s') fun τ hτ => ?_
    rcases List.mem_append.mp hτ with hτ | hτ
    · exact hP τ hτ
    · obtain rfl := List.mem_singleton.mp hτ
      exact hs'

theorem run (h : Secures P Q x) {s : σ} (hs : P s) (w : ω) : P (x.run s).2 ∧ Q (x.run s).1 := by
  obtain ⟨ts, hc, hP⟩ := h.exists_course hs w
  exact ⟨h.state hc hP, (h ts _ hc hP).2 _ _ rfl⟩

end Secures

end Flow

namespace Registry.Op

variable {ε : Type}

/-- As long as every turn finds the invariant, every turn leaves it, and a success has the
property. -/
def Secures (P : Registry ε → Prop) (Q : α → Prop) (x : Op ε α) : Prop :=
  Flow.Secures P (fun o => ∀ a, o = .ok a → Q a) x.run

namespace Secures

variable {P : Registry ε → Prop} {Q : α → Prop} {x : Op ε α}

theorem conclude {o : Outcome α} (h : ∀ a, o = .ok a → Q a) :
    Secures P Q (conclude o : Op ε α) :=
  Flow.Secures.pure h

theorem pure {a : α} (h : Q a) : Secures P Q (Pure.pure a : Op ε α) :=
  conclude fun _ heq => Except.ok.inj heq ▸ h

theorem read : Secures P P (get : Op ε (Registry ε)) :=
  Flow.Secures.change (f := fun s => (Except.ok s, s)) fun _ hs =>
    ⟨hs, fun _ heq => Except.ok.inj heq ▸ hs⟩

theorem write {f : Registry ε → Registry ε} (h : ∀ s, P s → P (f s)) :
    Secures P (fun _ => True) (modify f : Op ε PUnit) :=
  Flow.Secures.change (f := fun s => (Except.ok PUnit.unit, f s)) fun s hs =>
    ⟨h s hs, fun _ _ => trivial⟩

theorem bind {Q' : β → Prop} {f : α → Op ε β} (hx : Secures P Q x)
    (hf : ∀ a, Q a → Secures P Q' (f a)) : Secures P Q' (x >>= f) := by
  refine Flow.Secures.bind hx fun o ho => ?_
  cases o with
  | error e => exact Flow.Secures.pure fun _ heq => nomatch heq
  | ok a => exact hf a (ho a rfl)

theorem attempt (hx : Secures P Q x) :
    Secures P (fun o => ∀ a, o = .ok a → Q a) (attempt x) :=
  Flow.Secures.bind hx fun _ ho => Flow.Secures.pure fun _ heq => Except.ok.inj heq ▸ ho

theorem pauseFor (w : Wait) : Secures P (fun _ => True) (pauseFor w : Op ε Unit) :=
  Flow.Secures.bind (.pause w) fun _ _ => .pure fun _ _ => trivial

/-- Steps over a list secure what each of them does, one by one. -/
theorem mapM {γ : Type} {R : γ → β → Prop} {f : α → Op ε β} {cs : List γ} {l : List α}
    (h : List.Forall₂ (fun c a => Secures P (R c) (f a)) cs l) :
    Secures P (List.Forall₂ R cs) (l.mapM f) := by
  induction h with
  | nil =>
    rw [List.mapM_nil]
    exact pure .nil
  | cons hf _ ih =>
    rw [List.mapM_cons]
    exact bind hf fun b hb => bind ih fun bs hbs => pure (.cons hb hbs)

end Secures

/-- As long as every turn finds the invariant, every turn leaves it, and the outcome has the
property, be it a failure or not. -/
def Settles (P : Registry ε → Prop) (Q : Outcome α → Prop) (x : Op ε α) : Prop :=
  Flow.Secures P Q x.run

namespace Settles

variable {P : Registry ε → Prop} {Q : Outcome α → Prop} {x : Op ε α}

theorem conclude {o : Outcome α} (h : Q o) : Settles P Q (conclude o : Op ε α) :=
  Flow.Secures.pure h

theorem pure {a : α} (h : Q (.ok a)) : Settles P Q (Pure.pure a : Op ε α) :=
  conclude h

theorem read : Settles P (fun o => ∃ s, P s ∧ o = .ok s) (get : Op ε (Registry ε)) :=
  Flow.Secures.change (f := fun s => (Except.ok s, s)) fun s hs => ⟨hs, s, hs, rfl⟩

theorem pauseFor (w : Wait) : Settles P (· = .ok ()) (pauseFor w : Op ε Unit) :=
  Flow.Secures.bind (.pause w) fun _ _ => .pure rfl

theorem bind {Q' : Outcome β → Prop} {f : α → Op ε β} (hx : Settles P Q x)
    (herror : ∀ e, Q (.error e) → Q' (.error e)) (hf : ∀ a, Q (.ok a) → Settles P Q' (f a)) :
    Settles P Q' (x >>= f) := by
  refine Flow.Secures.bind hx fun o ho => ?_
  cases o with
  | error e => exact Flow.Secures.pure (herror e ho)
  | ok a => exact hf a ho

/-- A first part that never fails. -/
theorem bind_of_ok {Q' : Outcome β → Prop} {R : α → Prop} {f : α → Op ε β}
    (hx : Settles P (fun o => ∃ a, R a ∧ o = .ok a) x) (hf : ∀ a, R a → Settles P Q' (f a)) :
    Settles P Q' (x >>= f) :=
  bind hx (fun _ ⟨_, _, heq⟩ => nomatch heq) fun _ ⟨_, ha, heq⟩ =>
    hf _ (Except.ok.inj heq ▸ ha)

/-- A first part that comes to one value only. -/
theorem bind_ok {Q' : Outcome β → Prop} {f : α → Op ε β} {a : α} (hx : Settles P (· = .ok a) x)
    (hf : Settles P Q' (f a)) : Settles P Q' (x >>= f) :=
  bind hx (fun _ heq => nomatch heq) fun _ heq => Except.ok.inj heq ▸ hf

theorem attempt (hx : Settles P Q x) : Settles P (fun o => ∃ o', Q o' ∧ o = .ok o') (attempt x) :=
  Flow.Secures.bind hx fun o ho => Flow.Secures.pure ⟨o, ho, rfl⟩

end Settles

end Registry.Op

end Purse
