import Purse.Proofs.Registry.Callers
import Purse.Proofs.Registry.Exchanges

/-!
# Where pictures come from

In the turns of a program that calls for refreshes, those of one refresh stand next to each
other. In the first of them something may have come before it, and in the last of them
something may follow (`Part`). A turn in which a picture changes is the last one of a refresh
that has succeeded, and the picture is what the answers in these turns made of it.

Main statement: `Calls.shows`.
-/

namespace Purse

variable {ε α : Type}

/-! ## Parts of a program's turns -/

/-- The turns end with those of a part. -/
def Closes (ts part : List (Turn Wait (Registry ε))) : Prop :=
  ∃ pre first mid last s s', ts = pre ++ first :: (mid ++ [last]) ∧
    part = { first with found := s } :: (mid ++ [{ last with left := s' }])

/-- The turns have those of a part among them. -/
def Part (ts part : List (Turn Wait (Registry ε))) : Prop :=
  ∃ ts' post, ts = ts' ++ post ∧ Closes ts' part

variable {ts pre part : List (Turn Wait (Registry ε))} {τ : Turn Wait (Registry ε)}

theorem Part.append (h : Part ts part) (more : List (Turn Wait (Registry ε))) :
    Part (ts ++ more) part := by
  obtain ⟨ts', post, rfl, hcloses⟩ := h
  exact ⟨ts', post ++ more, List.append_assoc _ _ _, hcloses⟩

theorem Closes.two_le (h : Closes ts part) : 2 ≤ ts.length := by
  obtain ⟨pre, first, mid, last, s, s', rfl, -⟩ := h
  simp only [List.length_append, List.length_cons, List.length_nil]
  omega

theorem closes_self (h : 1 ≤ ts.length) : Closes (ts ++ [τ]) (ts ++ [τ]) := by
  cases ts with
  | nil => cases h
  | cons first mid => exact ⟨[], first, mid, τ, first.found, τ.left, rfl, rfl⟩

/-- What follows in the last turn makes no difference. -/
theorem Closes.left (h : Closes (ts ++ [τ]) part) (s : Registry ε) :
    Closes (ts ++ [{ τ with left := s }]) part := by
  obtain ⟨pre, first, mid, last, s₁, s₂, hts, rfl⟩ := h
  rw [← List.cons_append, ← List.append_assoc] at hts
  obtain ⟨rfl, hτ⟩ := List.append_inj' hts rfl
  cases hτ
  exact ⟨pre, first, mid, { τ with left := s }, s₁, s₂, by simp, rfl⟩

/-- What comes before the first turn, or earlier in it, makes no difference. -/
theorem Closes.found (h : Closes (τ :: ts) part) (s : Registry ε) :
    Closes (pre ++ { τ with found := s } :: ts) part := by
  obtain ⟨pre', first, mid, last, s₁, s₂, hts, rfl⟩ := h
  cases pre' with
  | nil =>
    cases hts
    exact ⟨pre, { τ with found := s }, mid, last, s₁, s₂, rfl, rfl⟩
  | cons τ' pre' =>
    cases hts
    exact ⟨pre ++ { τ with found := s } :: pre', first, mid, last, s₁, s₂, by simp, rfl⟩

namespace Registry

variable {s s' : Registry ε} {key k ticket : Nat} {w : WalletId}

/-! ## Changes of pictures -/

theorem Aside.picture (h : Aside s s') (key : Nat) : s'.picture key = s.picture key := by
  induction h with
  | refl | engines | remove => rfl
  | add access => exact picture_add _ access key
  | trans _ _ ih ih' => exact ih'.trans ih

/-- Where a picture is put up, that one is seen and no other picture changes. -/
theorem picture_putUp_of_ne {p : Accounts} (h : (s.putUp key p).picture k ≠ s.picture k) :
    k = key ∧ (s.putUp key p).picture k = some p := by
  cases ha : s.access? key with
  | none =>
    have hnone : s.registrations[key]? = none := Option.map_eq_none_iff.mp ha
    have hsame : s.putUp key p = s := by
      unfold putUp modifyRegistration
      rw [List.modify_eq_self (List.getElem?_eq_none_iff.mp hnone)]
    rw [hsame] at h
    exact absurd rfl h
  | some a =>
    rw [picture_putUp ha] at h ⊢
    by_cases hk : k = key
    · exact ⟨hk, if_pos hk⟩
    · rw [if_neg hk] at h
      exact absurd rfl h

variable [Engine ε]

/-- In a turn of a refresh a picture changes only if the refresh has succeeded. -/
theorem refresh_changed {t : Turns Wait (Registry ε) (Outcome Accounts)}
    (h : (refresh ticket w).run.Course (ts ++ [τ]) t)
    (hne : τ.left.picture key ≠ τ.found.picture key) :
    3 ≤ ts.length ∧ ∃ p r, t = .done (.ok p) τ.left ∧ FoundAs w key r (ts ++ [τ]) ∧
      τ.left.picture key = some p := by
  cases refresh_turn h with
  | begins _ hleft | misses _ hleft | finds _ hleft => exact absurd (by rw [hleft]) hne
  | linesUp _ _ hleft => exact absurd (by rw [hleft, picture_lineUp]) hne
  | asks _ _ he => exact absurd (he.picture key) hne
  | fails _ _ he hleft => exact absurd (by rw [hleft, picture_leave, he.picture]) hne
  | @succeeds key' r p hlength hfound hleft =>
    rw [hleft, picture_leave] at hne
    obtain ⟨rfl, hpicture⟩ := picture_putUp_of_ne hne
    refine ⟨hlength, p, r, rfl, hfound.append _, ?_⟩
    rw [hleft, picture_leave, hpicture]

end Registry

/-! ## Programs that change pictures -/

variable [Engine ε] {ticket key : Nat}

/-- A turn in which a picture changes is the last one of a refresh that has succeeded. -/
theorem Calls.changed {x : Flow Wait (Registry ε) α} (h : Calls ticket x)
    {t : Turns Wait (Registry ε) α} (hc : x.Course (ts ++ [τ]) t)
    (hne : τ.left.picture key ≠ τ.found.picture key) :
    ∃ w part p s r, Closes (ts ++ [τ]) part ∧
      (Registry.refresh ticket w).run.Course part (.done (.ok p) s) ∧
      Registry.FoundAs w key r part ∧ τ.left.picture key = some p := by
  induction h generalizing ts τ with
  | aside h =>
    have hturn : Registry.Aside τ.found τ.left :=
      (h _ _ hc).1 τ (List.mem_append_right _ (List.mem_singleton_self _))
    exact absurd (hturn.picture key) hne
  | refresh w =>
    obtain ⟨hlength, p, r, rfl, hfound, hpicture⟩ := Registry.refresh_changed hc hne
    exact ⟨w, _, p, _, r, closes_self (by omega), hc, hfound, hpicture⟩
  | @bind α β x f _ _ ihx ihf =>
    generalize hts : ts ++ [τ] = turns at hc
    cases hc.parts with
    | first hx =>
      subst hts
      exact ihx hx hne
    | @second pre post wait s s' s'' a _ hx hf =>
      rcases List.eq_nil_or_concat' post with rfl | ⟨post, τ', rfl⟩
      · obtain ⟨rfl, hτ⟩ := List.append_inj' hts rfl
        cases hτ
        -- the second part has only begun, and has not changed any picture
        have hbegun : s''.picture key = s'.picture key := by
          apply Decidable.byContradiction
          intro hne'
          have hfirst : (f a).Course ([] ++ [⟨wait, s', s''⟩]) _ := hf
          obtain ⟨_, _, _, _, _, hcloses, -⟩ := ihf a hfirst hne'
          have hle := hcloses.two_le
          simp at hle
        have hne' : s'.picture key ≠ s.picture key := fun heq => hne (hbegun.trans heq)
        obtain ⟨w, part, p, s₁, r, hcloses, hrefresh, hfound, hpicture⟩ := ihx hx hne'
        exact ⟨w, part, p, s₁, r, hcloses.left s'', hrefresh, hfound, hbegun.trans hpicture⟩
      · rw [← List.cons_append, ← List.append_assoc] at hts
        obtain ⟨rfl, hτ⟩ := List.append_inj' hts rfl
        cases hτ
        have hf : (f a).Course ((⟨wait, s', s''⟩ :: post) ++ [τ]) _ := hf
        obtain ⟨w, part, p, s₁, r, hcloses, hrefresh, hfound, hpicture⟩ := ihf a hf hne
        exact ⟨w, part, p, s₁, r, hcloses.found s, hrefresh, hfound, hpicture⟩

/-- The picture is what the answers in the turns of that refresh made of it. -/
theorem Calls.shows {x : Flow Wait (Registry ε) α} (h : Calls ticket x)
    {t : Turns Wait (Registry ε) α} (hc : x.Course (ts ++ [τ]) t) {config : Config}
    (hconfig : ∀ τ' ∈ ts ++ [τ], τ'.found.config = config)
    (hne : τ.left.picture key ≠ τ.found.picture key) :
    ∃ w part p r, Part (ts ++ [τ]) part ∧
      Registry.Refreshed ticket w config.effectiveConfirmations part (.ok p) ∧
      Registry.FoundAs w key r part ∧ τ.left.picture key = some p := by
  obtain ⟨w, part, p, s, r, hcloses, hrefresh, hfound, hpicture⟩ := h.changed hc hne
  refine ⟨w, part, p, r, ⟨_, [], (List.append_nil _).symm, hcloses⟩,
    Registry.refreshed hrefresh ?_, hfound, hpicture⟩
  obtain ⟨hwithin, -⟩ := h.onward _ _ hc
  obtain ⟨hpart, -⟩ := Registry.refresh_onward ticket w _ _ hrefresh
  obtain ⟨pre, first, mid, last, s₁, s₂, hts, rfl⟩ := hcloses
  rw [hts] at hconfig hwithin
  intro τ' hτ'
  rcases List.mem_cons.mp hτ' with rfl | hτ'
  · -- the program has left the configuration of its first turn as it was
    have hfirst : first ∈ pre ++ first :: (mid ++ [last]) :=
      List.mem_append_right _ List.mem_cons_self
    have hleft := (hpart _ List.mem_cons_self).config
    exact hleft.symm.trans ((hwithin first hfirst).config.trans (hconfig first hfirst))
  · rcases List.mem_append.mp hτ' with hτ' | hτ'
    · exact hconfig τ' (List.mem_append_right _ (List.mem_cons_of_mem _ (List.mem_append_left _ hτ')))
    · obtain rfl := List.mem_singleton.mp hτ'
      refine hconfig last (List.mem_append_right _ (List.mem_cons_of_mem _ ?_))
      exact List.mem_append_right _ (List.mem_singleton_self _)

end Purse
