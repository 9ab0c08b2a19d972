import Purse.Proofs.Interference

/-!
# Courses of programs among others

A course is what a program has gone through so far: its turns, with the state that
each of them found and left, and what is left of the program. Between two turns
others may have changed the state in any way.

A course of a composed program is a course of its first part, or one of each part; the
turn in which the first part ends is the one in which the second begins
(`Course.parts`, `Registry.Op.parts`). So what is true of the turns of a
program is found by going through the program once: `Within` says what each turn may do
and wait for, `Learns` what a value must have come across.
-/

namespace Purse

variable {ω σ α β : Type}

theorem getElem?_concat {l : List α} {a b : α} {j : Nat} (h : (l ++ [a])[j]? = some b) :
    l[j]? = some b ∨ j = l.length ∧ a = b := by
  rw [List.getElem?_append] at h
  by_cases hlt : j < l.length
  · rw [if_pos hlt] at h
    exact Or.inl h
  · rw [if_neg hlt] at h
    obtain ⟨hle, heq⟩ := List.getElem?_eq_some_iff.mp h
    rw [List.length_singleton] at hle
    exact Or.inr ⟨by omega, by simpa using heq⟩

theorem eq_of_concat (l : List α) {l' : List α} {a b : α} (h : l' ++ [a] = l ++ [b]) :
    l' = l ∧ [a] = [b] :=
  List.append_inj' h rfl

/-- A turn: the wait before it, the state that it found and the one that it left. -/
structure Turn (ω σ : Type) where
  wait : ω
  found : σ
  left : σ

/-- What the turns of a program have found, those of its first part have found. -/
theorem found_first {P : σ → Prop} {pre post : List (Turn ω σ)} {w : ω} {s s'' : σ}
    (h : ∀ τ ∈ pre ++ ⟨w, s, s''⟩ :: post, P τ.found) (s' : σ) :
    ∀ τ ∈ pre ++ [⟨w, s, s'⟩], P τ.found := by
  intro τ hτ
  rcases List.mem_append.mp hτ with hτ | hτ
  · exact h τ (List.mem_append_left _ hτ)
  · obtain rfl := List.mem_singleton.mp hτ
    exact h ⟨w, s, s''⟩ (List.mem_append_right _ List.mem_cons_self)

/-- The state in which a program is left. -/
def Turns.state : Turns ω σ α → σ
  | done _ s | pause _ s _ => s

namespace Flow

/-- The turns that a program has had, and what is left of it. -/
inductive Course (x : Flow ω σ α) : List (Turn ω σ) → Turns ω σ α → Prop
  | first (w : ω) (s : σ) : Course x [⟨w, s, (x s).state⟩] (x s)
  | next {ts : List (Turn ω σ)} {w : ω} {s : σ} {resume : σ → Turns ω σ α}
      (h : Course x ts (.pause w s resume)) (s' : σ) :
      Course x (ts ++ [⟨w, s', (resume s').state⟩]) (resume s')

namespace Course

variable {x : Flow ω σ α} {ts : List (Turn ω σ)} {t : Turns ω σ α}

theorem ne_nil (h : x.Course ts t) : ts ≠ [] := by
  cases h with
  | first => exact List.cons_ne_nil _ _
  | next => exact List.append_ne_nil_of_right_ne_nil _ (List.cons_ne_nil _ _)

theorem left {τ : Turn ω σ} (h : x.Course (ts ++ [τ]) t) : τ.left = t.state := by
  generalize hts : ts ++ [τ] = turns at h
  cases h with
  | first w s =>
    obtain ⟨-, hτ⟩ := eq_of_concat [] hts
    cases hτ
    rfl
  | next h s' =>
    obtain ⟨-, hτ⟩ := List.append_inj' hts rfl
    cases hτ
    rfl

/-- After its first turn a program is what is left of it. -/
inductive Head (x : Flow ω σ α) : List (Turn ω σ) → Turns ω σ α → Prop
  | only (w : ω) (s : σ) : Head x [⟨w, s, (x s).state⟩] (x s)
  | more {w w' : ω} {s s' found left : σ} {resume : Flow ω σ α} {post : List (Turn ω σ)}
      {t : Turns ω σ α} (hx : x s = .pause w' s' resume)
      (h : resume.Course (⟨w', found, left⟩ :: post) t) :
      Head x (⟨w, s, s'⟩ :: ⟨w', found, left⟩ :: post) t

theorem head (h : x.Course ts t) : Head x ts t := by
  induction h with
  | first w s => exact .only w s
  | @next ts w s resume h s' ih =>
    generalize ht : Turns.pause w s resume = t at ih
    cases ih with
    | only w₀ s₀ =>
      rw [← ht]
      exact .more ht.symm (.first w s')
    | more hx h =>
      subst ht
      exact .more hx (h.next s')

/-- A course of what is left goes on with the program's. -/
theorem onward {w : ω} {s s' : σ} {resume : Flow ω σ α} (w₀ : ω) (hx : x s = .pause w s' resume)
    (h : resume.Course ts t) : ∃ τ post, ts = τ :: post ∧
      x.Course (⟨w₀, s, s'⟩ :: ⟨w, τ.found, τ.left⟩ :: post) t := by
  induction h with
  | first w₁ s₁ =>
    have hfirst := Course.first (x := x) w₀ s
    rw [hx] at hfirst
    exact ⟨_, [], rfl, hfirst.next s₁⟩
  | next _ s₁ ih =>
    obtain ⟨τ, post, rfl, hc⟩ := ih
    exact ⟨τ, _, rfl, hc.next s₁⟩

/-- What a course ends with is one of the ends that the program has among others. -/
theorem ends {a : α} {s : σ} (h : x.Course ts t) (ht : t.Ends a s) :
    ∃ τ, ts.head? = some τ ∧ (x τ.found).Ends a s := by
  induction h with
  | first w s₀ => exact ⟨_, rfl, ht⟩
  | next _ s' ih =>
    obtain ⟨τ, hτ, hends⟩ := ih (.pause ht)
    exact ⟨τ, by rw [List.head?_append, hτ]; rfl, hends⟩

/-- To every end there is a course. -/
theorem of_ends {a : α} {s : σ} (h : x.Course ts t) (ht : t.Ends a s) :
    ∃ ts', x.Course (ts ++ ts') (.done a s) := by
  induction ht generalizing ts with
  | done a s => exact ⟨[], by rwa [List.append_nil]⟩
  | pause _ ih =>
    obtain ⟨ts', h⟩ := ih (h.next _)
    exact ⟨_ :: ts', by rwa [List.append_assoc] at h⟩

/-- A composed program is in its first part or in its second. -/
inductive Parts (x : Flow ω σ α) (f : α → Flow ω σ β) : List (Turn ω σ) → Turns ω σ β → Prop
  | first {ts : List (Turn ω σ)} {w : ω} {s : σ} {resume : σ → Turns ω σ α}
      (h : x.Course ts (.pause w s resume)) :
      Parts x f ts (.pause w s fun s' => (resume s').bind f)
  /-- The turn in which the first part ends goes on with the second. -/
  | second {pre post : List (Turn ω σ)} {w : ω} {s s' s'' : σ} {a : α} {t : Turns ω σ β}
      (h : x.Course (pre ++ [⟨w, s, s'⟩]) (.done a s'))
      (hf : (f a).Course (⟨w, s', s''⟩ :: post) t) : Parts x f (pre ++ ⟨w, s, s''⟩ :: post) t

/-- A turn of the first part either leaves it under way or goes on with the second. -/
theorem Parts.turn {f : α → Flow ω σ β} {pre : List (Turn ω σ)} {w : ω} {s : σ} {t : Turns ω σ α}
    (h : x.Course (pre ++ [⟨w, s, t.state⟩]) t) :
    Parts x f (pre ++ [⟨w, s, (t.bind f).state⟩]) (t.bind f) := by
  cases t with
  | pause w' s' resume => exact .first h
  | done a s' => exact .second h (.first w s')

theorem parts {f : α → Flow ω σ β} {t : Turns ω σ β} (h : (x >>= f).Course ts t) :
    Parts x f ts t := by
  induction h with
  | first w s =>
    have h : x.Course ([] ++ [⟨w, s, (x s).state⟩]) (x s) := .first w s
    exact Parts.turn h
  | next _ s' ih =>
    cases ih with
    | first h => exact Parts.turn (h.next s')
    | second h hf =>
      rw [List.append_assoc, List.cons_append]
      exact .second h (hf.next s')

theorem of_change {f : σ → α × σ} (h : (modifyGet f : Flow ω σ α).Course ts t) :
    ∃ w s, ts = [⟨w, s, (f s).2⟩] ∧ t = .done (f s).1 (f s).2 := by
  generalize hx : (modifyGet f : Flow ω σ α) = x at h
  induction h with
  | first w s =>
    subst hx
    exact ⟨w, s, rfl, rfl⟩
  | next _ _ ih =>
    obtain ⟨w, s, -, ht⟩ := ih
    cases ht

theorem of_pure {a : α} (h : (pure a : Flow ω σ α).Course ts t) :
    ∃ w s, ts = [⟨w, s, s⟩] ∧ t = .done a s :=
  of_change (f := fun s => (a, s)) h

theorem of_pause {w : ω} {t : Turns ω σ Unit} (h : (pause w : Flow ω σ Unit).Course ts t) :
    (∃ w₀ s, ts = [⟨w₀, s, s⟩] ∧ t = .pause w s fun s' => .done () s') ∨
    ∃ w₀ s s', ts = [⟨w₀, s, s⟩, ⟨w, s', s'⟩] ∧ t = .done () s' := by
  generalize hx : (pause w : Flow ω σ Unit) = x at h
  induction h with
  | first w₀ s =>
    subst hx
    exact Or.inl ⟨w₀, s, rfl, rfl⟩
  | next _ s' ih =>
    rcases ih with ⟨w₀, s, rfl, ht⟩ | ⟨_, _, _, _, ht⟩
    · cases ht
      exact Or.inr ⟨w₀, _, s', rfl, rfl⟩
    · cases ht

end Course

/-- What a program waits for after these turns and how it goes on then. Before its first
turn it waits for `w₀`. -/
inductive Waits (w₀ : ω) (x : Flow ω σ α) : List (Turn ω σ) → ω → (σ → Turns ω σ α) → Prop
  | begun : Waits w₀ x [] w₀ x
  | pauses {ts : List (Turn ω σ)} {w : ω} {s : σ} {resume : σ → Turns ω σ α}
      (h : x.Course ts (.pause w s resume)) : Waits w₀ x ts w resume

theorem Waits.turn {w₀ w : ω} {x : Flow ω σ α} {ts : List (Turn ω σ)} {resume : σ → Turns ω σ α}
    (h : x.Waits w₀ ts w resume) (s : σ) :
    x.Course (ts ++ [⟨w, s, (resume s).state⟩]) (resume s) := by
  cases h with
  | begun => exact .first w₀ s
  | pauses h => exact h.next s

/-! ## What turns may do -/

/-- Each turn stays within the relation, and the program waits only for what it may. -/
def Within (P : ω → Prop) (R : σ → σ → Prop) (x : Flow ω σ α) : Prop :=
  ∀ ts t, x.Course ts t →
    (∀ τ ∈ ts, R τ.found τ.left) ∧ ∀ w s resume, t = .pause w s resume → P w

namespace Within

variable {P : ω → Prop} {R : σ → σ → Prop}

theorem mono {P' : ω → Prop} {R' : σ → σ → Prop} {x : Flow ω σ α} (h : Within P R x)
    (hP : ∀ w, P w → P' w) (hR : ∀ s s', R s s' → R' s s') : Within P' R' x :=
  fun ts t hc =>
    ⟨fun τ hτ => hR _ _ ((h ts t hc).1 τ hτ), fun w s r heq => hP w ((h ts t hc).2 w s r heq)⟩

/-- Every turn is the last one of a course. -/
theorem of_last {x : Flow ω σ α}
    (h : ∀ ts τ t, x.Course (ts ++ [τ]) t → R τ.found τ.left) : Within (fun _ => True) R x := by
  intro ts t hc
  refine ⟨?_, fun _ _ _ _ => trivial⟩
  induction hc with
  | first w s =>
    intro τ hτ
    obtain rfl := List.mem_singleton.mp hτ
    exact h [] _ _ (.first w s)
  | next hc s' ih =>
    intro τ hτ
    rcases List.mem_append.mp hτ with hτ | hτ
    · exact ih τ hτ
    · obtain rfl := List.mem_singleton.mp hτ
      exact h _ _ _ (hc.next s')

/-- What is left of a program does as the program does. -/
theorem resume {x r : Flow ω σ α} {w : ω} {s s' : σ} (h : Within P R x)
    (hx : x s = .pause w s' r) : Within P R r := by
  intro ts t hc
  obtain ⟨τ, post, rfl, hcourse⟩ := hc.onward w hx
  obtain ⟨hturns, hwait⟩ := h _ _ hcourse
  refine ⟨fun τ' hτ' => ?_, hwait⟩
  rcases List.mem_cons.mp hτ' with rfl | hτ'
  · exact hturns ⟨w, τ'.found, τ'.left⟩ (List.mem_cons_of_mem _ List.mem_cons_self)
  · exact hturns τ' (List.mem_cons_of_mem _ (List.mem_cons_of_mem _ hτ'))

/-- Wherever a program waits, what is left of it does as the program does. -/
theorem waits {w₀ w : ω} {x r : Flow ω σ α} {ts : List (Turn ω σ)} (h : Within P R x)
    (hw : x.Waits w₀ ts w r) : Within P R r := by
  cases hw with
  | begun => exact h
  | @pauses _ _ s _ hc =>
    generalize ht : Turns.pause w s r = t at hc
    induction hc generalizing w s r with
    | first => exact h.resume ht.symm
    | next _ _ ih => exact (ih rfl).resume ht.symm

/-- A program of a single turn. -/
theorem once {x : Flow ω σ α} (h : ∀ s, ∃ a s', x s = .done a s' ∧ R s s') : Within P R x := by
  intro ts t hc
  cases hc.head with
  | only w s =>
    obtain ⟨a, s', heq, hR⟩ := h s
    rw [heq]
    refine ⟨fun τ hτ => ?_, fun _ _ _ heq => nomatch heq⟩
    obtain rfl := List.mem_singleton.mp hτ
    exact hR
  | @more _ _ s _ _ _ _ _ _ hpause _ =>
    obtain ⟨a, s', heq, -⟩ := h s
    cases heq.symm.trans hpause

theorem change {f : σ → α × σ} (h : ∀ s, R s (f s).2) :
    Within P R (modifyGet f : Flow ω σ α) :=
  once fun s => ⟨_, _, rfl, h s⟩

variable [Std.Refl R]

theorem pure (a : α) : Within P R (Pure.pure a : Flow ω σ α) :=
  change (f := fun s => (a, s)) Std.Refl.refl

theorem pause {w : ω} (hw : P w) : Within P R (pause w : Flow ω σ Unit) := by
  intro ts t h
  rcases h.of_pause with ⟨w₀, s, rfl, rfl⟩ | ⟨w₀, s, s', rfl, rfl⟩
  · refine ⟨fun τ hτ => ?_, fun _ _ _ heq => ?_⟩
    · obtain rfl := List.mem_singleton.mp hτ
      exact Std.Refl.refl s
    · cases heq
      exact hw
  · refine ⟨fun τ hτ => ?_, fun _ _ _ heq => nomatch heq⟩
    rcases List.mem_cons.mp hτ with rfl | hτ
    · exact Std.Refl.refl s
    · obtain rfl := List.mem_singleton.mp hτ
      exact Std.Refl.refl s'

omit [Std.Refl R] in
theorem bind [Trans R R R] {x : Flow ω σ α} {f : α → Flow ω σ β} (hx : Within P R x)
    (hf : ∀ a, Within P R (f a)) : Within P R (x >>= f) := by
  intro ts t h
  cases h.parts with
  | first hc =>
    refine ⟨(hx _ _ hc).1, fun _ _ _ heq => ?_⟩
    cases heq
    exact (hx _ _ hc).2 _ _ _ rfl
  | @second pre post w s s' s'' a _ hc hc' =>
    obtain ⟨hpre, -⟩ := hx _ _ hc
    obtain ⟨hpost, hwait⟩ := hf a _ _ hc'
    refine ⟨fun τ hτ => ?_, hwait⟩
    rcases List.mem_append.mp hτ with hτ | hτ
    · exact hpre τ (List.mem_append_left _ hτ)
    · rcases List.mem_cons.mp hτ with rfl | hτ
      · -- the turn in the middle belongs to both parts
        have h₁ : R s s' := hpre _ (List.mem_append_right _ (List.mem_singleton_self _))
        have h₂ : R s' s'' := hpost _ List.mem_cons_self
        exact Trans.trans h₁ h₂
      · exact hpost τ (List.mem_cons_of_mem _ hτ)

end Within

/-! ## What values rest on -/

/-- A value of this kind has come with something that was found on the way. -/
def Learns (V : α → Prop) (Q : α → σ → Prop) (x : Flow ω σ α) : Prop :=
  ∀ ts a s, x.Course ts (.done a s) → V a → ∃ τ ∈ ts.tail, Q a τ.found

namespace Learns

variable {V : α → Prop} {Q : α → σ → Prop}

theorem pure {a : α} (h : ¬V a) : Learns V Q (Pure.pure a : Flow ω σ α) := by
  intro ts b s hc hV
  obtain ⟨w, s', -, heq⟩ := hc.of_pure
  cases heq
  exact absurd hV h

/-- What the second part comes across after its first turn, the whole comes across. -/
theorem after (x : Flow ω σ β) {f : β → Flow ω σ α} (hf : ∀ b, Learns V Q (f b)) :
    Learns V Q (x >>= f) := by
  intro ts a s h hV
  cases h.parts with
  | @second pre post w s₁ s' s'' b _ hc hc' =>
    obtain ⟨τ, hτ, hQ⟩ := hf b _ _ _ hc' hV
    have hτ : τ ∈ post := hτ
    refine ⟨τ, ?_, hQ⟩
    cases pre with
    | nil => exact hτ
    | cons τ₀ pre => exact List.mem_append_right _ (List.mem_cons_of_mem _ hτ)

/-- What is found at a pause is what the next part begins with. -/
theorem pause (w : ω) {f : σ → α × σ} (h : ∀ s, V (f s).1 → Q (f s).1 s) :
    Learns V Q (Flow.pause w >>= fun _ => (modifyGet f : Flow ω σ α)) := by
  intro ts a s hc hV
  cases hc.parts with
  | second hx hf =>
    obtain ⟨w', s', hts, heq⟩ := hf.of_change
    cases hts
    cases heq
    rcases hx.of_pause with ⟨_, _, _, heq⟩ | ⟨w₀, s, s', hts, heq⟩
    · cases heq
    · cases heq
      obtain ⟨rfl, hlast⟩ := eq_of_concat [_] hts
      cases hlast
      exact ⟨_, List.mem_singleton_self _, h _ hV⟩

end Learns

end Flow

/-! ## Operations on the registry -/

namespace Registry.Op

variable {ε : Type} {x : Op ε α} {f : α → Op ε β} {ts : List (Turn Wait (Registry ε))}

/-- An operation of two parts is in its first part, or that has failed, or it is in its
second part. -/
inductive Parts (x : Op ε α) (f : α → Op ε β) :
    List (Turn Wait (Registry ε)) → Turns Wait (Registry ε) (Outcome β) → Prop
  | first {ts : List (Turn Wait (Registry ε))} {w : Wait} {s : Registry ε}
      {resume : Registry ε → Turns Wait (Registry ε) (Outcome α)}
      (h : x.run.Course ts (.pause w s resume)) :
      Parts x f ts (.pause w s fun s' => (resume s').bind (ExceptT.bindCont f))
  | failed {ts : List (Turn Wait (Registry ε))} {e : Failure} {s : Registry ε}
      (h : x.run.Course ts (.done (.error e) s)) : Parts x f ts (.done (.error e) s)
  | second {pre post : List (Turn Wait (Registry ε))} {w : Wait} {s s' s'' : Registry ε} {a : α}
      {t : Turns Wait (Registry ε) (Outcome β)}
      (h : x.run.Course (pre ++ [⟨w, s, s'⟩]) (.done (.ok a) s'))
      (hf : (f a).run.Course (⟨w, s', s''⟩ :: post) t) : Parts x f (pre ++ ⟨w, s, s''⟩ :: post) t

theorem parts {t : Turns Wait (Registry ε) (Outcome β)}
    (h : Flow.Course (x >>= f : Op ε β).run ts t) : Parts x f ts t := by
  have hbind : Flow.Course (x.run >>= ExceptT.bindCont f) ts t := h
  cases hbind.parts with
  | first hx => exact .first hx
  | @second _ _ _ _ _ _ o _ hx hf =>
    cases o with
    | ok a => exact .second hx hf
    | error e =>
      have hf : Flow.Course (pure (.error e) : Flow Wait (Registry ε) (Outcome β)) _ t := hf
      obtain ⟨w, s, hτ, rfl⟩ := hf.of_pure
      cases hτ
      exact .failed hx

/-- Every success has come with something that was found on the way. -/
def Learns (x : Op ε α) (Q : α → Registry ε → Prop) : Prop :=
  ∀ ts a s, x.run.Course ts (.done (.ok a) s) → ∃ τ ∈ ts.tail, Q a τ.found

/-- What the first part came across is enough, if the second makes of it what it may. -/
theorem Learns.bind {Q : α → Registry ε → Prop} {Q' : β → Registry ε → Prop} (hx : x.Learns Q)
    (hf : ∀ a, (f a).Gives fun b => ∀ s, Q a s → Q' b s) : (x >>= f : Op ε β).Learns Q' := by
  intro ts b s h
  cases parts h with
  | @second pre post w s₁ s' s'' a _ hc hc' =>
    obtain ⟨τ, hτ, hQ⟩ := hx _ _ _ hc
    obtain ⟨_, -, hends⟩ := hc'.ends (.done _ _)
    have hQ' := hf a _ _ _ hends _ hQ
    cases pre with
    | nil => exact absurd hτ List.not_mem_nil
    | cons τ₀ pre =>
      -- the last turn of the first part has found what the turn in the middle found
      rcases List.mem_append.mp hτ with hτ | hτ
      · exact ⟨τ, List.mem_append_left _ hτ, hQ'⟩
      · obtain rfl := List.mem_singleton.mp hτ
        exact ⟨⟨w, s₁, s''⟩, List.mem_append_right _ List.mem_cons_self, hQ'⟩

/-- Each turn of the operation stays within the relation, and it waits only for what it
may. -/
def Within (P : Wait → Prop) (R : Registry ε → Registry ε → Prop) (x : Op ε α) : Prop :=
  Flow.Within P R x.run

namespace Within

variable {P : Wait → Prop} {R : Registry ε → Registry ε → Prop} [Std.Refl R]

omit [Std.Refl R] in
/-- What is done with a registry that has just been read, in a single turn. -/
theorem once {f : Registry ε → Op ε α} (h : ∀ s, ∃ o s', (f s).run s = .done o s' ∧ R s s') :
    Within P R (get >>= f) :=
  Flow.Within.once h

theorem conclude (o : Outcome α) : Within P R (conclude o : Op ε α) :=
  Flow.Within.pure o

theorem pure (a : α) : Within P R (Pure.pure a : Op ε α) :=
  conclude (.ok a)

theorem read : Within P R (get : Op ε (Registry ε)) :=
  Flow.Within.change (f := fun s => (Except.ok s, s)) Std.Refl.refl

variable [Trans R R R]

theorem pauseFor {w : Wait} (hw : P w) : Within P R (pauseFor w : Op ε Unit) :=
  Flow.Within.bind (.pause hw) fun _ => .pure _

theorem bind (hx : Within P R x) (hf : ∀ a, Within P R (f a)) : Within P R (x >>= f) := by
  refine Flow.Within.bind hx fun o => ?_
  cases o with
  | error e => exact Flow.Within.pure (Except.error e)
  | ok a => exact hf a

theorem mapM {f : α → Op ε β} (hf : ∀ a, Within P R (f a)) (l : List α) :
    Within P R (l.mapM f) :=
  mapM_of pure bind hf l

theorem attempt (hx : Within P R x) : Within P R (attempt x) :=
  Flow.Within.bind hx fun o => .pure (Except.ok o)

end Within

end Registry.Op

end Purse
